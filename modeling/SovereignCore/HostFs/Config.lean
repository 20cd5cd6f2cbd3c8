import SovereignCore.HostFs.Record

/-!
# Geometry of the host store

The configuration of `HostFsStore`, what `validate_config` admits, the check of a caller's header against it, the
zeroing of unused token rows, and what recovery makes of a header region (`host_fs.rs`).

* `HostFsConfig`, `validateConfig` : the geometry and its checks;
* `checkHeader` : `validate_chunk_header_against_config`;
* `zeroTailBlock` : the last block of a chunk as it is stored;
* `classifyRecoveredHeader` : ours, another namespace's, or corrupt.
-/

namespace SovereignCore.HostFs

open Store Result

/-! ## Configuration -/

structure LayoutStrides where
  headStride : UInt64
  tokenStride : UInt64
  kvPlaneStride : UInt64
  layerStride : UInt64
  blockStride : UInt64
  elementBytes : UInt64
  deriving DecidableEq, Repr

structure HostFsConfig where
  namespaceId : NamespaceId
  modelSha256 : Bytes32
  layout : LayoutStrides
  numLayers : UInt32
  numKvHeads : UInt32
  headDim : UInt32
  blockSize : UInt32
  chunkTokens : UInt32
  dtype : UInt8
  backendFormat : UInt8
  quotaBytes : Nat := 8589934592
  maxObjects : Nat := 65536
  maxRestoreOps : Nat := 48
  maxParkOps : Nat := 64
  maxInflightBytes : Nat := 268435456
  maxWaitersPerJob : Nat := 16
  maxWaitersTotal : Nat := 1024
  purgeAfterRecovery : Bool := true
  deriving DecidableEq

/-- `u64::checked_mul`. -/
def checkedMul (a b : Nat) : Except PlatformError Nat := if a * b < 2 ^ 64 then .ok (a * b) else .error .invalidLayout

/-- `u64::checked_add`. -/
def checkedAdd (a b : Nat) : Except PlatformError Nat := if a + b < 2 ^ 64 then .ok (a + b) else .error .invalidLayout

def fitsIn (span : Nat) (stride : UInt64) : Except PlatformError Unit :=
  if stride.toNat < span then .error .invalidLayout else .ok ()

namespace HostFsConfig

variable (c : HostFsConfig)

/-- A zero size, or more blocks in a chunk than a region has digests for. -/
def badSizes : Bool :=
  c.quotaBytes = 0 || c.maxObjects = 0 || c.maxRestoreOps = 0 || c.maxParkOps = 0 || c.maxInflightBytes = 0 ||
    c.maxWaitersPerJob = 0 || c.maxWaitersTotal = 0 || c.blockSize = 0 || c.chunkTokens = 0 ||
    c.chunkTokens.toNat % c.blockSize.toNat ≠ 0 || maxSegments < c.chunkTokens.toNat / c.blockSize.toNat ||
    c.numLayers = 0 || c.numKvHeads = 0 || c.headDim = 0 || c.layout.blockStride = 0 || c.layout.elementBytes = 0

/-- Heads fit into a row, rows into a plane, two planes into a layer, layers into a block. -/
def validateConfig : Except PlatformError Unit :=
  if c.badSizes then .error .invalidLayout
  else do
    let headBytes ← checkedMul c.headDim.toNat c.layout.elementBytes.toNat
    fitsIn headBytes c.layout.headStride
    let heads ← checkedMul (c.numKvHeads.toNat - 1) c.layout.headStride.toNat
    let rowSpan ← checkedAdd heads headBytes
    fitsIn rowSpan c.layout.tokenStride
    let rows ← checkedMul (c.blockSize.toNat - 1) c.layout.tokenStride.toNat
    let planeSpan ← checkedAdd rows rowSpan
    fitsIn planeSpan c.layout.kvPlaneStride
    let twoPlanes ← checkedAdd c.layout.kvPlaneStride.toNat planeSpan
    fitsIn twoPlanes c.layout.layerStride
    let layers ← checkedMul (c.numLayers.toNat - 1) c.layout.layerStride.toNat
    let totalSpan ← checkedAdd layers twoPlanes
    fitsIn totalSpan c.layout.blockStride

/-- Blocks of a chunk with `tokens` positions. -/
def blocksOf (tokens : UInt32) : Nat := (tokens.toNat + c.blockSize.toNat - 1) / c.blockSize.toNat

/-- The payload of `n` blocks, `saturating_mul`. -/
def payloadOf (n : Nat) : Nat := min (n * c.layout.blockStride.toNat) (2 ^ 64 - 1)

def wantFlags (tokens : UInt32) : UInt16 := if tokens < c.chunkTokens then flagPartialTail else 0

/-- Everything but the namespace that a header says about the geometry. -/
def geometryDiffers (h : ChunkHeader) : Bool :=
  h.modelSha256 ≠ c.modelSha256 || h.chunkTokens ≠ c.chunkTokens || h.blockSize ≠ c.blockSize ||
    h.numLayers ≠ c.numLayers || h.numKvHeads ≠ c.numKvHeads || h.headDim ≠ c.headDim || h.dtype ≠ c.dtype ||
    h.backendFormat ≠ c.backendFormat || h.firstPosition.toNat % c.chunkTokens.toNat ≠ 0 || h.tokenCount = 0 ||
    c.chunkTokens < h.tokenCount

/-- `validate_chunk_header_against_config`. -/
def checkHeader (h : ChunkHeader) : Except PlatformError Unit :=
  if h.namespaceId ≠ c.namespaceId || c.geometryDiffers h || h.payloadLen = 0 then .error .invalidLayout
  else if h.flags ≠ c.wantFlags h.tokenCount then .error .invalidLayout
  else if maxSegments < c.blocksOf h.tokenCount ∨ h.payloadLen.toNat ≠ c.payloadOf (c.blocksOf h.tokenCount) then
    .error .invalidLayout
  else .ok ()

/-! ## The tail block -/

/-- Bytes of one token row, from its first head to the end of its last. -/
def rowBytes : Nat := (c.numKvHeads.toNat - 1) * c.layout.headStride.toNat + c.headDim.toNat * c.layout.elementBytes.toNat

def rowOffset (layer plane tok : Nat) : Nat :=
  layer * c.layout.layerStride.toNat + plane * c.layout.kvPlaneStride.toNat + tok * c.layout.tokenStride.toNat

/-- The rows from token `valid` on, in every layer and plane. -/
def tailRows (valid : Nat) : List Nat :=
  (List.range c.numLayers.toNat).flatMap fun layer => (List.range 2).flatMap fun plane =>
    (List.range' valid (c.blockSize.toNat - valid)).map fun tok => c.rowOffset layer plane tok

def zeroTailBlock (block : List UInt8) (valid : Nat) : List UInt8 :=
  (c.tailRows valid).foldl (fun b off => put b off (List.replicate c.rowBytes 0)) block

end HostFsConfig

/-! ## Recovery's view of a region -/

inductive RecoveredHeader
  | ours (payloadLen : Nat)
  | foreign (payloadLen : Nat)
  | corrupt
  deriving DecidableEq, Repr

section Classify

variable (P : Primitives)

/-- The digest table of another namespace's region ends at its last byte that is not zero; its root has to match. -/
def foreignRegionIsClean (buf : List UInt8) (r : RecordHeader) : Bool :=
  let table := slice buf headerLen (sealSlotOffset - headerLen)
  let used := (table.reverse.dropWhile (· = 0)).length
  let n := (used + 31) / 32
  0 < used && n ≤ maxSegments && n ≤ r.chunk.payloadLen.toNat &&
    P.sha (payloadDomain ++ slice buf headerLen (32 * n)) = r.payloadSha256

def classifyRecoveredHeader (buf : List UInt8) (fileSize : Nat) (fileKey : ChunkKey) (c : HostFsConfig) :
    RecoveredHeader :=
  if !isSealedRegion buf then .corrupt
  else
    match decode P buf with
    | .error _ => .corrupt
    | .ok r =>
      let h := r.chunk
      if h.chunkKey ≠ fileKey then .corrupt
      else if h.namespaceId = c.namespaceId then
        if c.geometryDiffers h then .corrupt
        else if h.flags ≠ c.wantFlags h.tokenCount then .corrupt
        else if h.payloadLen.toNat ≠ c.payloadOf (c.blocksOf h.tokenCount) then .corrupt
        else if (validateRecord P buf fileSize h c.layout.blockStride).isOk then .ours h.payloadLen.toNat
        else .corrupt
      else if h.payloadLen = 0 ∨ ¬ (headerRegionLen + h.payloadLen.toNat < 2 ^ 64 ∧
          headerRegionLen + h.payloadLen.toNat = fileSize) ∨ foreignRegionIsClean P buf r = false then .corrupt
      else .foreign h.payloadLen.toNat

end Classify

end SovereignCore.HostFs
