import SovereignCore.Lib.Prog
import SovereignCore.Lib.Slots
import SovereignCore.Kv.Manager

/-!
# Sequences and their arena

The scheduler numbers its sequences by slot and generation and keeps one record for each in `SequenceArena`.

* `SequenceId`, `SequenceRecord`, `SequencePhase` : the data of one sequence; `prefillInput` is what a prefill computes;
* `CompletionEvent` : what a sink is told;
* `SequenceArena` : the generational slots of the records, `allocateSlot`, `insertWith`, `insertWithId`, `fork`,
  `freeSequence`, `isStale`, `get`, `getMut`.
-/

namespace SovereignCore.Sched

open Prog Kv

abbrev SequenceId : Type := SlotId

/-- `SequenceId::from_u64` -/
def SequenceId.fromU64 (val : UInt64) : Except String SequenceId :=
  if (SlotId.ofU64 val).generation = 0 then .error "Generation zero is strictly invalid" else .ok (SlotId.ofU64 val)

def SequenceId.le (a b : SequenceId) : Bool := a.slot < b.slot || (a.slot == b.slot && a.generation ≤ b.generation)

def SequenceId.display (id : SequenceId) : String := s!"Seq(slot:{id.slot},gen:{id.generation})"

abbrev CompletionSinkId : Type := UInt64

inductive Priority where
  | background
  | normal
  | interactive
  | realtime
  deriving DecidableEq, Repr

/-- `priority as u8` -/
def Priority.toU8 : Priority → UInt8
  | background => 0
  | normal => 1
  | interactive => 2
  | realtime => 3

def Priority.ofU8 (p : UInt8) : Priority :=
  if p = 0 then background else if p = 1 then normal else if p = 2 then interactive else realtime

structure SamplingParams where
  temperature : F32
  topP : F32
  maxTokens : Nat
  stopTokenIds : List UInt32
  deriving DecidableEq, Repr

/-- The defaults: temperature 0.7 and top-p 0.95 as their bit patterns. -/
def SamplingParams.default : SamplingParams where
  temperature := 0x3F333333
  topP := 0x3F733333
  maxTokens := 512
  stopTokenIds := [0, 1, 2]

structure SequenceRequest where
  requestId : UInt64
  promptTokens : List UInt32
  samplingParams : SamplingParams
  arrivalTimeNs : UInt64
  priority : UInt8
  deriving DecidableEq, Repr

inductive FinishReason where
  | stopToken
  | lengthLimit
  | aborted
  | preempted
  deriving DecidableEq, Repr

/-- How a backend chose the tokens of a request. -/
structure DecodeObservation where
  greedyTokens : UInt64
  sampledTokens : UInt64
  temperature : Option F32
  topP : Option F32
  seedRequestId : Option UInt64
  deriving DecidableEq, Repr

structure OpEvidence where
  backend : String
  nativeFallbacks : UInt64
  referenceRuns : UInt64
  report : String
  gpuExecutions : Option UInt64
  deriving DecidableEq, Repr

inductive CompletionEvent where
  | token (seqId : SequenceId) (token : UInt32)
  | finished (seqId : SequenceId) (finishReason : FinishReason) (totalTokens : Nat)
      (decoding : Option DecodeObservation) (ops : Option OpEvidence)
  | error (seqId : SequenceId) (message : String)
  deriving DecidableEq, Repr

inductive SequencePhase where
  | waiting
  | awaitingRestore
  | prefill
  | prefillInFlight
  | decode
  | decodeInFlight
  | preempted
  | finished
  | cancelled
  deriving DecidableEq, Repr

def SequencePhase.debug : SequencePhase → String
  | waiting => "Waiting"
  | awaitingRestore => "AwaitingRestore"
  | prefill => "Prefill"
  | prefillInFlight => "PrefillInFlight"
  | decode => "Decode"
  | decodeInFlight => "DecodeInFlight"
  | preempted => "Preempted"
  | finished => "Finished"
  | cancelled => "Cancelled"

/-- What a caller says about a new sequence. -/
structure SequenceParams where
  prompt : List UInt32
  model : UInt32
  kv : UInt64
  priority : Priority
  deadline : Option UInt64
  branchParent : Option SequenceId
  nextTokenBudget : UInt32
  samplingParams : SamplingParams
  sinkId : Option CompletionSinkId
  deriving DecidableEq, Repr

structure SequenceRecord extends SequenceParams where
  seqId : SequenceId
  phase : SequencePhase
  tokensGenerated : Nat
  promptTokensPrefilled : Nat
  isPrefilled : Bool
  arrivalTimeNs : UInt64
  generatedTokens : List UInt32
  deriving DecidableEq, Repr

namespace SequenceRecord

def new (seqId : SequenceId) (params : SequenceParams) : SequenceRecord where
  toSequenceParams := params
  seqId := seqId
  phase := .waiting
  tokensGenerated := 0
  promptTokensPrefilled := 0
  isPrefilled := false
  arrivalTimeNs := 0
  generatedTokens := []

/-- The prompt, then every token generated before the K/V was dropped. -/
def prefillInput (r : SequenceRecord) : List UInt32 := r.prompt ++ r.generatedTokens

def prefillInputLen (r : SequenceRecord) : Nat := r.prompt.length + r.generatedTokens.length

theorem length_prefillInput (r : SequenceRecord) : r.prefillInput.length = r.prefillInputLen := List.length_append

/-- The K/V of the sequence is gone: the next prefill starts at zero. -/
def reset (r : SequenceRecord) (phase : SequencePhase) : SequenceRecord :=
  { r with phase, promptTokensPrefilled := 0, isPrefilled := false }

end SequenceRecord

/-- The records by slot and generation, with the number of retired slots. -/
structure SequenceArena extends Slots SequenceRecord where
  retiredSlotsCount : Nat

/-- `next_slot_index`: the slot of the storage holders is never handed out. -/
def nextSlotIndex (len : Nat) : Except String UInt32 :=
  if len < holderSlot.toNat then .ok (UInt32.ofNat len)
  else .error s!"sequence arena is full: slot {holderSlot} is reserved for storage holders"

namespace SequenceArena

def new : SequenceArena where
  slots := []
  freeSlots := []
  retiredSlotsCount := 0

def withCapacity (capacity : Nat) : SequenceArena where
  slots := List.replicate capacity .fresh
  freeSlots := (List.range capacity).map UInt32.ofNat
  retiredSlotsCount := 0

/-- The loop of `allocate_slot` over the stack of free slots. -/
def allocateFrom : List UInt32 → Prog SequenceArena String SequenceId
  | [] => do
    let a ← Prog.get
    match nextSlotIndex a.slots.length with
    | .error e => fail e
    | .ok slotIdx =>
      set { a with slots := a.slots ++ [.fresh] }
      pure ⟨slotIdx, 1⟩
  | slotIdx :: rest => do
    Prog.modify fun a => { a with freeSlots := rest }
    let a ← Prog.get
    let slot ← unwrap a.slots[slotIdx.toNat]?
    if slot.retired then allocateFrom rest
    else if slot.generation = 0 then
      set { a with toSlots := a.toSlots.setEntry slotIdx { slot with generation := 1 } }
      pure ⟨slotIdx, 1⟩
    else pure ⟨slotIdx, slot.generation⟩

def allocateSlot : Prog SequenceArena String SequenceId := do
  let a ← Prog.get
  allocateFrom a.freeSlots

/-- `self.slots[slot].record = Some(record)` -/
def setRecord (slotIdx : UInt32) (record : SequenceRecord) : Prog SequenceArena String Unit := do
  let a ← Prog.get
  let slot ← unwrap a.slots[slotIdx.toNat]?
  set { a with toSlots := a.toSlots.setEntry slotIdx { slot with record := some record } }

def insertWith (params : SequenceParams) : Prog SequenceArena String SequenceId := do
  let seqId ← allocateSlot
  setRecord seqId.slot (.new seqId params)
  pure seqId

/-- `count` new slots at the end, each of them free. -/
def grow : Nat → SequenceArena → SequenceArena
  | 0, a => a
  | count + 1, a =>
    grow count { a with slots := a.slots ++ [.fresh], freeSlots := UInt32.ofNat a.slots.length :: a.freeSlots }

/-- The stack without the entry of `slotIdx` that is nearest to its bottom. -/
def unlist (slotIdx : UInt32) (freeSlots : List UInt32) : List UInt32 := (freeSlots.reverse.erase slotIdx).reverse

def insertWithId (seqId : SequenceId) (params : SequenceParams) : Prog SequenceArena String SequenceId :=
  if seqId.generation = 0 then fail "Generation zero is strictly invalid"
  else if seqId.slot = holderSlot then
    fail s!"slot {seqId.slot} is reserved for storage holders and cannot hold a sequence"
  else do
    Prog.modify fun a => grow (seqId.slot.toNat + 1 - a.slots.length) a
    Prog.modify fun a => { a with freeSlots := unlist seqId.slot a.freeSlots }
    let a ← Prog.get
    let _ ← unwrap a.slots[seqId.slot.toNat]?
    let slot : SlotEntry SequenceRecord :=
      { generation := seqId.generation, retired := false, record := some (.new seqId params) }
    set { a with toSlots := a.toSlots.setEntry seqId.slot slot }
    pure seqId

def get (a : SequenceArena) (id : SequenceId) : Option SequenceRecord :=
  if id.generation = 0 then none else a.toSlots.get id

def isStale (a : SequenceArena) (id : SequenceId) : Bool :=
  if id.generation = 0 then true
  else match a.slots[id.slot.toNat]? with
    | none => true
    | some slot => slot.generation != id.generation || slot.record.isNone

/-- A change through `get_mut`. -/
def getMut (a : SequenceArena) (id : SequenceId) (f : SequenceRecord → SequenceRecord) : SequenceArena :=
  if id.generation = 0 then a else { a with toSlots := a.toSlots.modify id f }

def freeSequence (a : SequenceArena) (id : SequenceId) : Bool × SequenceArena :=
  if id.generation = 0 then (false, a)
  else match a.slots[id.slot.toNat]? with
    | none => (false, a)
    | some slot =>
      if slot.generation ≠ id.generation ∨ slot.record.isNone then (false, a)
      else
        (true, { toSlots := a.toSlots.vacate id slot
                 retiredSlotsCount := a.retiredSlotsCount + if slot.generation = 0xFFFFFFFF then 1 else 0 })

def forkRecord (parent : SequenceRecord) (parentId childId : SequenceId) (sinkId : Option CompletionSinkId) :
    SequenceRecord :=
  { parent with
    seqId := childId, kv := childId.toU64, branchParent := some parentId, phase := .decode, sinkId }

def fork (parentId : SequenceId) (sinkId : Option CompletionSinkId) : Prog SequenceArena String SequenceId := do
  let a ← Prog.get
  let parent ← orFail (a.get parentId) s!"Parent sequence {parentId.display} not found in arena or stale"
  let childId ← allocateSlot
  setRecord childId.slot (forkRecord parent parentId childId sinkId)
  pure childId

end SequenceArena

end SovereignCore.Sched
