import SovereignCore.Lib.Wire
import SovereignCore.Lib.Result
import SovereignCore.Store.Worker

/-!
# Record files

The file of one stored chunk: a header region of 4096 bytes and the payload. The region is the 256-byte header
(`record.rs`), a table of segment digests, zeros, and the seal slot (`seal.rs`). SHA-256 and the AEAD are parameters.

* `RecordHeader.encode`, `decodeStruct` : the 256-byte header, fields at their offsets;
* `encodeRegion`, `payloadRoot` : the region and what its table hashes to;
* `validateRecord` : the checks of a reader that knows what it asked for (`validate.rs`);
* `sealFile`, `openPayload` : the payload is encrypted in place, the slot filled.
-/

namespace SovereignCore.HostFs

open Store Result Wire

/-! ## Numbers and hashes -/

/-- 32 bytes, the first the most significant. -/
abbrev Bytes32 := BitVec 256

def bytes32 (x : Bytes32) : List UInt8 := beBytes 32 x.toNat

def get32 (buf : List UInt8) (off : Nat) : Bytes32 := BitVec.ofNat 256 (beValue (slice buf off 32))

def le16 (v : UInt16) : List UInt8 := leBytes 2 v.toNat

def le64 (v : UInt64) : List UInt8 := leBytes 8 v.toNat

def le32 (v : UInt32) : List UInt8 := leBytes 4 v.toNat

def getU16 (buf : List UInt8) (off : Nat) : UInt16 := .ofNat (leValue (slice buf off 2))

def getU32 (buf : List UInt8) (off : Nat) : UInt32 := .ofNat (leValue (slice buf off 4))

def getU64 (buf : List UInt8) (off : Nat) : UInt64 := .ofNat (leValue (slice buf off 8))

def getU8 (buf : List UInt8) (off : Nat) : UInt8 := buf.getD off 0

/-- The functions of other crates: SHA-256, and AES-256-GCM under the store's key. -/
structure Primitives where
  sha : List UInt8 → Bytes32
  sealInPlace : List UInt8 → List UInt8 → List UInt8 → Option (List UInt8 × List UInt8)
  /-- The payload from nonce, associated data, tag and ciphertext, when they belong together. -/
  openInPlace : List UInt8 → List UInt8 → List UInt8 → List UInt8 → Option (List UInt8)

/-! ## The header -/

inductive KvError
  | truncated
  | badMagic
  | unsupportedVersion
  | badRecordKind
  | badHeaderLen
  | headerChecksum
  | badFlags
  | badPadding
  | segmentRootMismatch
  | tooManySegments
  | namespaceMismatch
  | keyMismatch
  | parentMismatch
  | positionMismatch
  | tokenCountOutOfRange
  | tokenCountMismatch
  | geometryMismatch
  | payloadLenMismatch
  | fileSizeMismatch
  | invalidGeometry
  deriving DecidableEq, Repr

/-- `AIENKVC1`. -/
def magic : List UInt8 := [65, 73, 69, 78, 75, 86, 67, 49]

def headerLen : Nat := 256

def headerRegionLen : Nat := 4096

def maxSegments : Nat := 119

def sealSlotOffset : Nat := headerRegionLen - 32

def formatVersion : UInt16 := 1

def recordKindChunk : UInt16 := 1

/-- The chunk holds fewer than `chunkTokens` positions. -/
def flagPartialTail : UInt16 := 1

def hashedPrefixLen : Nat := 224

/-- `AIEN-PKV-PAYLOAD-V1` and a zero byte. -/
def payloadDomain : List UInt8 :=
  [65, 73, 69, 78, 45, 80, 75, 86, 45, 80, 65, 89, 76, 79, 65, 68, 45, 86, 49, 0]

/-- The header fields that a caller sets. -/
structure ChunkHeader where
  namespaceId : NamespaceId
  chunkKey : ChunkKey
  parentKey : Bytes32
  modelSha256 : Bytes32
  firstPosition : UInt32
  tokenCount : UInt32
  chunkTokens : UInt32
  blockSize : UInt32
  numLayers : UInt32
  numKvHeads : UInt32
  headDim : UInt32
  dtype : UInt8
  backendFormat : UInt8
  flags : UInt16
  payloadLen : UInt64
  writtenUnixNs : UInt64
  deriving DecidableEq

/-- A header and the root of its payload. -/
structure RecordHeader where
  chunk : ChunkHeader
  payloadSha256 : Bytes32
  deriving DecidableEq

section Format

variable (P : Primitives)

def RecordHeader.encodeHashed (r : RecordHeader) : List UInt8 :=
  let c := r.chunk
  let b := List.replicate headerLen 0
  let b := put b 0 magic
  let b := put b 8 (le16 formatVersion)
  let b := put b 10 (le16 recordKindChunk)
  let b := put b 12 (le32 (.ofNat headerLen))
  let b := put b 16 (bytes32 c.namespaceId)
  let b := put b 48 (bytes32 c.chunkKey)
  let b := put b 80 (bytes32 c.parentKey)
  let b := put b 112 (bytes32 c.modelSha256)
  let b := put b 144 (le32 c.firstPosition)
  let b := put b 148 (le32 c.tokenCount)
  let b := put b 152 (le32 c.chunkTokens)
  let b := put b 156 (le32 c.blockSize)
  let b := put b 160 (le32 c.numLayers)
  let b := put b 164 (le32 c.numKvHeads)
  let b := put b 168 (le32 c.headDim)
  let b := put b 172 [c.dtype]
  let b := put b 173 [c.backendFormat]
  let b := put b 174 (le16 c.flags)
  let b := put b 176 (le64 c.payloadLen)
  let b := put b 184 (bytes32 r.payloadSha256)
  put b 216 (le64 c.writtenUnixNs)

def RecordHeader.encode (r : RecordHeader) : List UInt8 :=
  let b := r.encodeHashed
  put b hashedPrefixLen (bytes32 (P.sha (b.take hashedPrefixLen)))

/-- Length, magic, version, kind, header length, checksum and reserved flag bits of the header. -/
def decodeStruct (buf : List UInt8) : Except KvError RecordHeader :=
  if buf.length < headerLen then .error .truncated
  else if slice buf 0 8 ≠ magic then .error .badMagic
  else if getU16 buf 8 ≠ formatVersion then .error .unsupportedVersion
  else if getU16 buf 10 ≠ recordKindChunk then .error .badRecordKind
  else if (getU32 buf 12).toNat ≠ headerLen then .error .badHeaderLen
  else if bytes32 (P.sha (buf.take hashedPrefixLen)) ≠ slice buf 224 32 then .error .headerChecksum
  else if getU16 buf 174 &&& ~~~ flagPartialTail ≠ 0 then .error .badFlags
  else .ok
    { chunk :=
        { namespaceId := get32 buf 16
          chunkKey := get32 buf 48
          parentKey := get32 buf 80
          modelSha256 := get32 buf 112
          firstPosition := getU32 buf 144
          tokenCount := getU32 buf 148
          chunkTokens := getU32 buf 152
          blockSize := getU32 buf 156
          numLayers := getU32 buf 160
          numKvHeads := getU32 buf 164
          headDim := getU32 buf 168
          dtype := getU8 buf 172
          backendFormat := getU8 buf 173
          flags := getU16 buf 174
          payloadLen := getU64 buf 176
          writtenUnixNs := getU64 buf 216 }
      payloadSha256 := get32 buf 184 }

def decode (buf : List UInt8) : Except KvError RecordHeader :=
  if buf.length < headerRegionLen then .error .truncated else decodeStruct P buf

def payloadRoot (digests : List Bytes32) : Bytes32 := P.sha (payloadDomain ++ digests.flatMap bytes32)

def segmentCount (payloadLen segmentBytes : UInt64) : Except KvError Nat :=
  if payloadLen = 0 ∨ segmentBytes = 0 then .error .invalidGeometry
  else
    let n := (payloadLen.toNat + segmentBytes.toNat - 1) / segmentBytes.toNat
    if maxSegments < n then .error .tooManySegments else .ok n

def RecordHeader.encodeRegion (r : RecordHeader) (digests : List Bytes32) : Except KvError (List UInt8) :=
  if maxSegments < digests.length then .error .tooManySegments
  else
    let region := put (List.replicate headerRegionLen 0) 0 (r.encode P)
    .ok (put region headerLen (digests.flatMap bytes32))

/-! ## Validation -/

/-- The reader's checks of a region and a file size against the header it expects, in order. -/
def validateRecord (buf : List UInt8) (fileSize : Nat) (expect : ChunkHeader) (segmentBytes : UInt64) :
    Except KvError RecordHeader := do
  let r ← decode P buf
  let h := r.chunk
  if h.namespaceId ≠ expect.namespaceId then .error .namespaceMismatch else
  if h.chunkKey ≠ expect.chunkKey then .error .keyMismatch else
  if h.parentKey ≠ expect.parentKey then .error .parentMismatch else
  if h.firstPosition ≠ expect.firstPosition ∨ h.chunkTokens = 0 ∨
      h.firstPosition.toNat % h.chunkTokens.toNat ≠ 0 then .error .positionMismatch else
  if h.tokenCount = 0 ∨ h.chunkTokens < h.tokenCount then .error .tokenCountOutOfRange else
  if h.tokenCount ≠ expect.tokenCount then .error .tokenCountMismatch else
  if h.modelSha256 ≠ expect.modelSha256 ∨ h.chunkTokens ≠ expect.chunkTokens ∨ h.blockSize ≠ expect.blockSize ∨
      h.numLayers ≠ expect.numLayers ∨ h.numKvHeads ≠ expect.numKvHeads ∨ h.headDim ≠ expect.headDim ∨
      h.dtype ≠ expect.dtype ∨ h.backendFormat ≠ expect.backendFormat then .error .geometryMismatch else
  if decide (h.flags &&& flagPartialTail ≠ 0) ≠ decide (h.tokenCount < h.chunkTokens) ∨ h.flags ≠ expect.flags then
    .error .badFlags else
  if h.payloadLen ≠ expect.payloadLen then .error .payloadLenMismatch else
  let n ← segmentCount h.payloadLen segmentBytes
  let tableEnd := headerLen + 32 * n
  if (slice buf tableEnd (sealSlotOffset - tableEnd)).any (· ≠ 0) then .error .badPadding else
  if P.sha (payloadDomain ++ slice buf headerLen (tableEnd - headerLen)) ≠ r.payloadSha256 then
    .error .segmentRootMismatch else
  if headerRegionLen + h.payloadLen.toNat < 2 ^ 64 ∧ headerRegionLen + h.payloadLen.toNat = fileSize then .ok r
  else .error .fileSizeMismatch

/-! ## The seal -/

inductive SealError
  | short
  | notSealed
  | unsupportedVersion
  | rejected
  | random
  deriving DecidableEq, Repr

/-- `AKS`. -/
def sealMagic : List UInt8 := [65, 75, 83]

def sealedFormatVersion : UInt8 := 2

def nonceLen : Nat := 12

/-- Region bytes bound as associated data: everything before the nonce. -/
def aadLen : Nat := sealSlotOffset + 4

def tagOffset : Nat := aadLen + nonceLen

/-- Seal a region and payload; `nonce` is what the random source answered. -/
def sealFile (nonce : Option (List UInt8)) (file : List UInt8) : Except SealError (List UInt8) :=
  if file.length < headerRegionLen then .error .short
  else
    let region := file.take headerRegionLen
    let payload := file.drop headerRegionLen
    let region := put region sealSlotOffset sealMagic
    let region := put region (sealSlotOffset + 3) [sealedFormatVersion]
    match nonce with
    | none => .error .random
    | some nonce =>
      let region := put region aadLen nonce
      match P.sealInPlace nonce (region.take aadLen) payload with
      | none => .error .rejected
      | some (ciphertext, tag) => .ok (put region tagOffset tag ++ ciphertext)

def checkMarker (region : List UInt8) : Except SealError Unit :=
  if slice region sealSlotOffset 3 ≠ sealMagic then .error .notSealed
  else if getU8 region (sealSlotOffset + 3) ≠ sealedFormatVersion then .error .unsupportedVersion
  else .ok ()

def isSealedRegion (region : List UInt8) : Bool := headerRegionLen ≤ region.length && (checkMarker region).isOk

def openPayload (region payload : List UInt8) : Except SealError (List UInt8) :=
  if region.length < headerRegionLen then .error .short
  else do
    checkMarker region
    match P.openInPlace (slice region aadLen nonceLen) (region.take aadLen) (slice region tagOffset 16) payload with
    | none => .error .rejected
    | some plain => .ok plain

end Format

end SovereignCore.HostFs
