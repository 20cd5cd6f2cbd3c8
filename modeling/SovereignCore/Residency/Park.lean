import SovereignCore.HostFs.Config
import SovereignCore.Store.Namespace
import SovereignCore.Store.Calls
import SovereignCore.Kv.Calls

/-!
# Parking a finished sequence

The finish hook of `kv_residency.rs`: a finished sequence's computed prefix is cut into chunks, every chunk that the
store does not have gets a holder over its blocks and a header, and the intents go to the outbox. A refusal on the way
frees the holders forked so far. The manager, the holder generations, the outbox and the counters are the state; what the
store's index answers and the time are arguments.

* `NamespaceFields.expectedPayloadLen`, `NamespaceFields.chunkHeader` : the header of a chunk (`identity.rs`);
* `HolderGenerations` : live generations and the counter (`holder.rs`);
* `Shared`, `HookState`, `ParkIntent` : what the hook reads and changes;
* `parkChunk`, `parkChunks`, `onFinish` : the hook.
-/

namespace SovereignCore.Residency

open Std Store Kv AienKvManager Prog

/-! ## Headers -/

inductive HeaderError
  | geometry (e : NamespaceError)
  | tokenCountOutOfRange
  | overflow
  | positionMismatch
  deriving DecidableEq, Repr

def HeaderError.display : HeaderError → String
  | geometry (.fieldTooLong name) => "kv identity field " ++ name ++ " is too long"
  | geometry (.fieldEmpty name) => "kv identity field " ++ name ++ " is empty"
  | geometry .invalidGeometry => "kv record refused: InvalidGeometry"
  | geometry .tooManySegments => "kv record refused: TooManySegments"
  | tokenCountOutOfRange => "kv record refused: TokenCountOutOfRange"
  | overflow => "kv record refused: Overflow"
  | positionMismatch => "kv record refused: PositionMismatch"

def chainErrorDisplay : IdentityError → String
  | .overflow => "kv record refused: Overflow"
  | .tokenCountOutOfRange => "kv record refused: TokenCountOutOfRange"
  | .invalidGeometry => "kv record refused: InvalidGeometry"

/-- A product that has to fit into a `u64`. -/
def checked (n : Nat) : Except HeaderError Nat := if n < 2 ^ 64 then .ok n else .error .overflow

/-- Blocks that `tokens` positions take, `tokens.div_ceil(size)`. -/
def blocksFor (tokens size : Nat) : Nat := (tokens + size - 1) / size

/-- Payload size the writer must produce for `tokenCount` positions. -/
def expectedPayloadLen (f : NamespaceFields) (tokenCount : UInt32) : Except HeaderError Nat := do
  f.checkGeometry.mapError .geometry
  if tokenCount = 0 ∨ f.chunkTokens < tokenCount then .error .tokenCountOutOfRange else
  match f.backendFormat with
  | .hostPagedPoolV1 => checked (blocksFor tokenCount.toNat f.blockSize.toNat * f.layout.blockStride.toNat)
  | .nativeF32DecodeStateV1 =>
    let kvDim ← checked (f.numKvHeads.toNat * f.headDim.toNat)
    let v ← checked (f.numLayers.toNat * 2)
    let v ← checked (v * tokenCount.toNat)
    let v ← checked (v * kvDim)
    checked (v * f.layout.elementBytes.toNat)

def ofDigest (d : Digest) : BitVec 256 := .ofNat 256 (Wire.beValue d.toList)

def chunkHeader (f : NamespaceFields) (ns key : Digest) (parent : Option Digest) (firstPosition tokenCount : UInt32)
    (writtenUnixNs : UInt64) : Except HeaderError HostFs.ChunkHeader := do
  let payloadLen ← expectedPayloadLen f tokenCount
  if firstPosition.toNat % f.chunkTokens.toNat ≠ 0 then .error .positionMismatch else
  .ok
    { namespaceId := ofDigest ns
      chunkKey := ofDigest key
      parentKey := ofDigest (parent.getD (.replicate 32 0))
      modelSha256 := ofDigest f.modelSha256
      firstPosition
      tokenCount
      chunkTokens := f.chunkTokens
      blockSize := f.blockSize
      numLayers := f.numLayers
      numKvHeads := f.numKvHeads
      headDim := f.headDim
      dtype := f.dtype.code
      backendFormat := f.backendFormat.code
      flags := if tokenCount < f.chunkTokens then HostFs.flagPartialTail else 0
      payloadLen := .ofNat payloadLen
      writtenUnixNs }

/-! ## Holder generations -/

/-- Generations `1..=max`; none is handed out while it is live. -/
structure HolderGenerations where
  next : Nat
  max : Nat
  live : ExtTreeSet Nat

namespace HolderGenerations

def new : HolderGenerations := ⟨1, 2 ^ 32 - 1, ∅⟩

/-- The loop of `alloc`: the counter is stepped until it meets a free value. -/
def allocLoop : Nat → HolderGenerations → Option (Nat × HolderGenerations)
  | 0, _ => none
  | fuel + 1, g =>
    let gen := g.next
    let g := { g with next := if g.max ≤ gen then 1 else gen + 1 }
    if gen ∈ g.live then allocLoop fuel g else some (gen, { g with live := g.live.insert gen })

/-- `Exhausted` while every generation is live. At least one value is free otherwise, so that the loop ends within one
more step than there are live values. -/
def alloc (g : HolderGenerations) : Option (Nat × HolderGenerations) :=
  if g.max ≤ g.live.size then none else allocLoop (g.live.size + 1) g

def release (g : HolderGenerations) (gen : Nat) : HolderGenerations := { g with live := g.live.erase gen }

end HolderGenerations

/-! ## The hook -/

/-- What the hook reads. -/
structure Shared where
  fields : NamespaceFields
  namespaceId : Digest
  chunkTokens : Nat
  blockSize : Nat
  park : Bool

/-- One chunk's holder and header. -/
structure ParkIntent where
  holder : UInt64
  generation : Nat
  blocks : List BlockId
  tailValid : Nat
  header : HostFs.ChunkHeader
  inc : Incarnation

structure HookCounts where
  intents : Nat := 0
  skipped : Nat := 0
  dedup : Nat := 0
  failed : Nat := 0

/-- What the hook changes. -/
structure HookState where
  kv : AienKvManager
  gens : HolderGenerations
  outbox : List ParkIntent := []
  counts : HookCounts := {}

/-- What the hook is told about the request that is finishing. -/
structure FinishContext where
  requestId : UInt64
  computedPrefix : Option (List UInt32)

abbrev Hook := Prog HookState String

def onKv {α : Type} (x : Prog AienKvManager String α) : Hook α := zoom HookState.kv (fun kv s => { s with kv }) x

def releaseGeneration (gen : Nat) : Hook Unit := modify fun s => { s with gens := s.gens.release gen }

def count (f : HookCounts → HookCounts) : Hook Unit := modify fun s => { s with counts := f s.counts }

def skip : Hook Unit := count fun c => { c with skipped := c.skipped + 1 }

def undo (made : List ParkIntent) : Hook Unit :=
  made.forM fun it => do
    ignore (onKv (freeSequence it.holder))
    releaseGeneration it.generation

def refuse {α : Type} (made : List ParkIntent) (why : String) : Hook α := do
  undo made
  count fun c => { c with failed := c.failed + 1 }
  fail why

def holderIdOf (gen : Nat) : UInt64 := (holderSlot.toUInt64 <<< 32) ||| .ofNat gen

/-- A holder generation and its id; the generation goes back on a refusal. -/
def allocHolder : Hook (Except String (UInt64 × Nat)) := do
  let s ← get
  match s.gens.alloc with
  | none => pure (.error "holder generations: Exhausted")
  | some (gen, gens) =>
    set { s with gens }
    if gen = 0 ∨ 2 ^ 32 - 1 < gen then
      releaseGeneration gen
      pure (.error ("holder job id " ++ toString gen ++ " outside 1..=u32::MAX"))
    else pure (.ok (holderIdOf gen, gen))

def parkChunk (sh : Shared) (requestId : UInt64) (prefixLen : Nat) (written : UInt64) (i : Nat) (key : Digest)
    (parent : Option Digest) (made : List ParkIntent) : Hook (List ParkIntent) := do
  let first := i * sh.chunkTokens
  let tokens := min (prefixLen - first) sh.chunkTokens
  let firstBlock := first / sh.blockSize
  let nBlocks := blocksFor tokens sh.blockSize
  let tailValid := tokens - (nBlocks - 1) * sh.blockSize
  match chunkHeader sh.fields sh.namespaceId key parent (.ofNat first) (.ofNat tokens) written with
  | .error e => refuse made ("park: header: " ++ e.display)
  | .ok header =>
    match ← allocHolder with
    | .error e => refuse made ("park: " ++ e)
    | .ok (holder, generation) =>
      match ← result (onKv (forkRange requestId firstBlock nBlocks holder)) with
      | .ok blocks => pure (made ++ [⟨holder, generation, blocks, tailValid, header, ⟨requestId, 0⟩⟩])
      | .error e =>
        releaseGeneration generation
        refuse made ("park: fork_range: " ++ e)

/-- The loop over the keys from chunk `i` on: the intents made so far, and the chunks that the store has. -/
def parkChunks (sh : Shared) (requestId : UInt64) (prefixLen : Nat) (written : UInt64) (found : List (Option Nat)) :
    Nat → Option Digest → List Digest → List ParkIntent → Nat → Hook (List ParkIntent × Nat)
  | _, _, [], made, dedup => pure (made, dedup)
  | i, parent, key :: keys, made, dedup => do
    if (found[i]?.join).isSome then parkChunks sh requestId prefixLen written found (i + 1) (some key) keys made (dedup + 1)
    else
      let made ← parkChunk sh requestId prefixLen written i key parent made
      parkChunks sh requestId prefixLen written found (i + 1) (some key) keys made dedup

def tableReady (sh : Shared) (kv : AienKvManager) (requestId : UInt64) (prefixLen : Nat) : Bool :=
  match kv.sequenceTables.lookup requestId with
  | none => false
  | some t => t.prefillState.isReady && prefixLen ≤ t.totalTokens && prefixLen ≤ t.blockIds.length * sh.blockSize

/-- The finish hook; `lookup` is the store's index and `written` the time. -/
def onFinish (sha : List UInt8 → Digest) (sh : Shared) (lookup : List Digest → List (Option Nat)) (written : UInt64)
    (ctx : FinishContext) : Hook Unit := do
  if !sh.park then skip
  else
    match ctx.computedPrefix with
    | none => skip
    | some tokens =>
      let s ← get
      if tokens.isEmpty || s.kv.tensorPool.isNone then skip
      else if !tableReady sh s.kv ctx.requestId tokens.length then skip
      else
        match chunkChain sha sh.namespaceId (.ofNat sh.chunkTokens) tokens with
        | .error e =>
          count fun c => { c with failed := c.failed + 1 }
          fail ("park: key chain: " ++ chainErrorDisplay e)
        | .ok keys =>
          let (made, dedup) ← parkChunks sh ctx.requestId tokens.length written (lookup keys) 0 none keys [] 0
          count fun c => { c with intents := c.intents + made.length, dedup := c.dedup + dedup }
          modify fun s => { s with outbox := s.outbox ++ made }

end SovereignCore.Residency
