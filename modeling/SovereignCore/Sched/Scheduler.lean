import Mathlib.Data.List.Sort
import SovereignCore.Sched.Arena

/-!
# The scheduler

`AienScheduler` batches the prefill chunks and decode steps of its sequences and drives a backend with them.

* `AienInferenceBackend β` : a backend with states `β`; any answer, and any change of the K/V by a step;
* `AienScheduler` : the queues, the arena, the shared K/V manager; `history` records what happened, oldest first;
* `submitRequest`, `submitWork`, `forkSequence`, `forkSubagentWithSinkIds`, `holdForRestore`, `releaseRestore`,
  `admitRestoredPrefix` : the calls without a backend;
* `buildScheduledBatch` : `preemptForWatermark`, `scheduleRunning`, `requeueRefused`, `admitWaiting`;
* `step` : the call with a backend.
-/

namespace SovereignCore.Sched

open Prog Kv

structure SchedulerConfig where
  maxBatchSize : Nat
  maxBatchTokens : Nat
  maxPrefillTokens : Nat
  prefillChunkSize : Nat
  chunkPrefill : Bool
  watermarkBlocks : Nat
  deriving DecidableEq, Repr

structure ScheduledBatch where
  prefillRequests : List SequenceRequest
  decodeRequests : List UInt64
  blockTables : AList fun _ : UInt64 => List BlockId
  stepId : UInt64

inductive DecodeOutput where
  | token (requestId : UInt64) (tokenId : UInt32) (logprob : Option F32)
  | finished (requestId : UInt64) (reason : FinishReason) (totalTokens : Nat)
  deriving DecidableEq, Repr

structure StepMetrics where
  prefillTokensProcessed : Nat
  decodeTokensEmitted : Nat
  deriving DecidableEq, Repr

/-- A backend whose state is a `β`. A step may change the shared K/V manager; a fork or a release may not. -/
structure AienInferenceBackend (β : Type) where
  managesKvCache : β → Bool
  executeStep : ScheduledBatch → AienKvManager → β → Except String (List DecodeOutput × StepMetrics) × AienKvManager × β
  forkSequence : UInt64 → UInt64 → β → Except String Unit × β
  forkSequenceWithSampling : UInt64 → UInt64 → SamplingParams → β → Except String Unit × β
  releaseSequence : UInt64 → β → Except String Unit × β
  computedPrefix : UInt64 → β → Option (List UInt32)
  takeDecodeObservation : UInt64 → β → Option DecodeObservation × β
  opEvidence : β → Option OpEvidence

structure FinishContext where
  seqId : SequenceId
  requestId : UInt64
  reason : FinishReason
  computedPrefix : Option (List UInt32)
  prompt : List UInt32

/-- `FinishHook::on_finish` -/
abbrev FinishHook : Type := FinishContext → Prog AienKvManager String Unit

/-- Why the K/V of a live sequence was freed; a failed append names the sink of the sequence. -/
inductive FreeCause where
  | watermark
  | gateRefusal
  | failedAppend (sinkId : Option CompletionSinkId)
  deriving DecidableEq, Repr

/-- What a run can be judged by: the backend calls and their answers, what the sinks were told, and the moments at
which a sequence loses its K/V, starts a prefill, passes the completion fence or is left behind by a call that fails. -/
inductive Event where
  | freed (seqId : SequenceId) (cause : FreeCause)
  | started (seqId : SequenceId) (offset : Nat) (input : List UInt32)
  | fenced (seqId : SequenceId) (input : List UInt32)
  | stranded (seqId : SequenceId)
  | released (requestId : UInt64) (ok : Bool)
  | forked (parentId childId : UInt64) (ok : Bool)
  | executed (batch : ScheduledBatch) (kv : AienKvManager) (ok : Bool)
  | emitted (sinkId : CompletionSinkId) (event : CompletionEvent)

/-- The registered sinks. -/
structure CompletionRouter where
  sinks : List CompletionSinkId
  nextId : CompletionSinkId

/-- The scheduler. `history` is no field of the source. -/
structure AienScheduler where
  config : SchedulerConfig
  kvManager : AienKvManager
  arena : SequenceArena
  completionRouter : CompletionRouter
  waitingQueue : List SequenceId
  preemptedQueue : List SequenceId
  pendingBackendReleases : List SequenceId
  runningSequences : List SequenceId
  stepId : UInt64
  finishHook : Option FinishHook
  history : List Event

namespace AienScheduler

def new (config : SchedulerConfig) (kvManager : AienKvManager) : AienScheduler where
  config := config
  kvManager := kvManager
  arena := .new
  completionRouter := ⟨[], 1⟩
  waitingQueue := []
  preemptedQueue := []
  pendingBackendReleases := []
  runningSequences := []
  stepId := 0
  finishHook := none
  history := []

variable {ε α : Type}

def onKv (x : Prog AienKvManager ε α) : Prog AienScheduler ε α :=
  zoom AienScheduler.kvManager (fun kv s => { s with kvManager := kv }) x

def onArena (x : Prog SequenceArena ε α) : Prog AienScheduler ε α :=
  zoom AienScheduler.arena (fun arena s => { s with arena }) x

/-- `if let Some(rec) = self.arena.get_mut(id) { f(rec) }` -/
def updateRecord (id : SequenceId) (f : SequenceRecord → SequenceRecord) : Prog AienScheduler ε Unit :=
  modify fun s => { s with arena := s.arena.getMut id f }

def note (e : Event) : Prog AienScheduler ε Unit := modify fun s => { s with history := s.history ++ [e] }

/-! ## Sinks -/

/-- `register_completion_sink` -/
def registerCompletionSink : Prog AienScheduler ε CompletionSinkId := do
  let s ← get
  let id := s.completionRouter.nextId
  set { s with completionRouter := ⟨id :: s.completionRouter.sinks, id + 1⟩ }
  pure id

/-- `completion_router_mut().unregister(id)` -/
def unregisterCompletionSink (id : CompletionSinkId) : Prog AienScheduler ε Unit :=
  modify fun s => { s with completionRouter.sinks := s.completionRouter.sinks.filter (· ≠ id) }

/-- `CompletionRouter::emit` to the sink of a sequence, if it has one. -/
def emit (sinkId : Option CompletionSinkId) (event : CompletionEvent) : Prog AienScheduler ε Unit := do
  let s ← get
  match sinkId with
  | none => pure ()
  | some id => if id ∈ s.completionRouter.sinks then note (.emitted id event) else pure ()

/-! ## Submitting -/

/-- What `submit_request` makes of a request. -/
def requestParams (request : SequenceRequest) : SequenceParams where
  prompt := request.promptTokens
  model := 0
  kv := 0
  priority := .ofU8 request.priority
  deadline := none
  branchParent := none
  nextTokenBudget := UInt32.ofNat request.samplingParams.maxTokens
  samplingParams := request.samplingParams
  sinkId := none

/-- The id a request asks for: one with a slot other than zero and a generation. -/
def explicitId (request : SequenceRequest) : Option SequenceId :=
  if request.requestId ≠ 0 ∧ request.requestId >>> 32 > 0 then (SequenceId.fromU64 request.requestId).toOption else none

/-- `insert_with(..).expect("Arena allocation failed")` -/
def expectInsert (params : SequenceParams) : Prog AienScheduler ε SequenceId :=
  expect (onArena (SequenceArena.insertWith params))

def insertExplicit (id : SequenceId) (params : SequenceParams) : Prog AienScheduler String SequenceId := do
  match ← result (onArena (SequenceArena.insertWithId id params)) with
  | .ok seqId => pure seqId
  | .error _ => expectInsert params

def insertRequest (request : SequenceRequest) : Prog AienScheduler String SequenceId :=
  match explicitId request with
  | some id => insertExplicit id (requestParams request)
  | none => expectInsert (requestParams request)

def pushWaiting (seqId : SequenceId) : Prog AienScheduler ε Unit :=
  modify fun s => { s with waitingQueue := s.waitingQueue ++ [seqId] }

def submitRequest (request : SequenceRequest) : Prog AienScheduler String SequenceId := do
  let seqId ← insertRequest request
  pushWaiting seqId
  pure seqId

structure InferenceWork where
  model : UInt32
  kv : UInt64
  priority : Priority
  deadline : Option UInt64
  branchParent : Option UInt64
  nextTokenBudget : UInt32

def workParams (work : InferenceWork) (prompt : List UInt32) (samplingParams : Option SamplingParams)
    (sinkId : Option CompletionSinkId) : SequenceParams where
  prompt := prompt
  model := work.model
  kv := work.kv
  priority := work.priority
  deadline := work.deadline
  branchParent := work.branchParent.bind fun p => (SequenceId.fromU64 p).toOption
  nextTokenBudget := work.nextTokenBudget
  samplingParams := samplingParams.getD .default
  sinkId := sinkId

def submitWork (work : InferenceWork) (prompt : List UInt32) (samplingParams : Option SamplingParams)
    (sinkId : Option CompletionSinkId) : Prog AienScheduler String SequenceId := do
  let seqId ← onArena (SequenceArena.insertWith (workParams work prompt samplingParams sinkId))
  pushWaiting seqId
  pure seqId

/-! ## Forking -/

def startOf (s : AienScheduler) (id : SequenceId) : List Event :=
  match s.arena.get id with
  | some r => [.started id r.promptTokensPrefilled r.prefillInput]
  | none => []

def pushFork (childId : SequenceId) : Prog AienScheduler ε Unit :=
  modify fun s => { s with
    history := s.history ++ s.startOf childId
    runningSequences := s.runningSequences ++ [childId] }

/-- `x?` on the way of a sequence to the running ones; an error leaves its record behind. -/
def orStrand (id : SequenceId) (x : Prog AienScheduler String α) : Prog AienScheduler String α := do
  match ← result x with
  | .ok a => pure a
  | .error e =>
    note (.stranded id)
    fail e

/-- The child's record, its K/V, its place among the running sequences. -/
def forkWith (parentId : SequenceId) (sinkId : Option CompletionSinkId)
    (kvPart : SequenceId → Prog AienKvManager String α) : Prog AienScheduler String (SequenceId × α) := do
  let childId ← onArena (SequenceArena.fork parentId sinkId)
  let a ← orStrand childId (onKv (kvPart childId))
  pushFork childId
  pure (childId, a)

def forkSequence (parentId : SequenceId) (sinkId : Option CompletionSinkId) : Prog AienScheduler String SequenceId := do
  let s ← get
  if s.arena.isStale parentId then fail s!"Parent sequence {parentId.display} is stale or inactive"
  else
    let (childId, _) ← forkWith parentId sinkId fun childId =>
      AienKvManager.forkSequence parentId.toU64 childId.toU64
    pure childId

/-- The running sequence a raw id names, by its 64-bit form or by its slot; else the id itself. -/
def findParent (s : AienScheduler) (parentRaw : UInt64) : Option SequenceId :=
  (s.runningSequences.find? fun id => id.toU64 == parentRaw || id.slot.toUInt64 == parentRaw).or
    (SequenceId.fromU64 parentRaw).toOption

/-- The K/V fork under the arena's ids, or under the caller's raw ids. -/
def forkKv (parentId childId : SequenceId) (parentRaw childRaw : UInt64) :
    Prog AienKvManager String (UInt64 × UInt64) := do
  match ← result (AienKvManager.forkSequence parentId.toU64 childId.toU64) with
  | .ok _ => pure (parentId.toU64, childId.toU64)
  | .error _ =>
    let _ ← AienKvManager.forkSequence parentRaw childRaw
    pure (parentRaw, childRaw)

def forkSubagentWithSinkIds (parentRaw childRaw : UInt64) (sinkId : Option CompletionSinkId) :
    Prog AienScheduler String (UInt64 × UInt64) := do
  let s ← get
  let parentId ← orFail (s.findParent parentRaw) s!"Parent sequence {parentRaw} not found in running pool"
  if s.arena.isStale parentId then fail s!"Parent sequence {parentId.display} is stale"
  else
    let (_, kvIds) ← forkWith parentId sinkId fun childId => forkKv parentId childId parentRaw childRaw
    pure kvIds

/-! ## Restored prefixes -/

def isAwaitingRestore (s : AienScheduler) (id : SequenceId) : Bool :=
  (s.arena.get id).any fun r => r.phase == .awaitingRestore

def setPhase (id : SequenceId) (phase : SequencePhase) : Prog AienScheduler ε Unit :=
  updateRecord id fun r => { r with phase }

def holdForRestore (seqId : SequenceId) : Prog AienScheduler String Unit := do
  let s ← get
  let r ← orFail (s.arena.get seqId) s!"hold_for_restore: sequence {seqId.display} is stale or unknown"
  if r.phase ≠ .waiting ∨ seqId ∉ s.waitingQueue then
    fail s!"hold_for_restore: sequence {seqId.display} is {r.phase.debug}, not a waiting request"
  else setPhase seqId .awaitingRestore

def releaseRestore (seqId : SequenceId) : Prog AienScheduler String Unit := do
  let s ← get
  if !s.isAwaitingRestore seqId then
    fail s!"release_restore: sequence {seqId.display} is stale or not awaiting a restore"
  else setPhase seqId .waiting

/-- The table of a restored prefix is pending and holds exactly the restored tokens. -/
def checkRestored (s : AienScheduler) (seqId : SequenceId) (restored : Nat) : Except String Unit :=
  match s.kvManager.sequenceTables.lookup seqId.toU64 with
  | none => .error s!"admit_restored_prefix: sequence {seqId.display} has no KV block table"
  | some table =>
    if table.prefillState ≠ .prefillPending then
      .error s!"admit_restored_prefix: table is {table.prefillState.debug}, expected PrefillPending"
    else if table.totalTokens ≠ restored then
      .error s!"admit_restored_prefix: table holds {table.totalTokens} tokens, restored is {restored}"
    else .ok ()

def admitRestoredPrefix (seqId : SequenceId) (restored : Nat) : Prog AienScheduler String Unit := do
  let s ← get
  let r ← orFail ((s.arena.get seqId).filter fun r => r.phase == .awaitingRestore)
    s!"admit_restored_prefix: sequence {seqId.display} is stale or not awaiting a restore"
  if restored = 0 ∨ restored ≥ r.prompt.length then
    fail <| s!"admit_restored_prefix: restored {restored} must be in 1..{r.prompt.length} " ++
      "so at least one prompt token is computed"
  else match s.checkRestored seqId restored with
    | .error e => fail e
    | .ok () =>
      if seqId ∉ s.waitingQueue then
        fail s!"admit_restored_prefix: sequence {seqId.display} is not in the waiting queue"
      else
        modify fun s => { s with waitingQueue := s.waitingQueue.erase seqId }
        updateRecord seqId fun r =>
          { r with phase := .prefill, promptTokensPrefilled := restored, isPrefilled := false }
        note (.started seqId restored r.prefillInput)
        modify fun s => { s with runningSequences := s.runningSequences ++ [seqId] }

/-! ## The batch -/

/-- The local variables of `build_scheduled_batch`. -/
structure Building where
  prefillRequests : List SequenceRequest
  decodeRequests : List UInt64
  blockTables : AList fun _ : UInt64 => List BlockId
  currentTokens : Nat
  prefillBudget : Nat
  reservedBlocks : Nat

def Building.size (b : Building) : Nat := b.decodeRequests.length + b.prefillRequests.length

/-- Stale ids leave the heads of the queues and the running sequences. -/
def purgeStaleWork : Prog AienScheduler ε Unit :=
  modify fun s => { s with
    waitingQueue := s.waitingQueue.dropWhile s.arena.isStale
    preemptedQueue := s.preemptedQueue.dropWhile s.arena.isStale
    runningSequences := s.runningSequences.filter fun id => !s.arena.isStale id }

/-- `let _ = kv.free_sequence(id)` -/
def freeKv (id : UInt64) : Prog AienScheduler ε Unit := ignore (onKv (AienKvManager.freeSequence id))

def victim (s : AienScheduler) : Option SequenceId :=
  let candidates := s.runningSequences.filterMap fun id => (s.arena.get id).map fun r => (id, r.priority)
  ((candidates.insertionSort fun a b => a.2.toU8 ≤ b.2.toU8).head?).map Prod.fst

def preempt (id : SequenceId) (cause : FreeCause) : Prog AienScheduler ε Unit := do
  modify fun s => { s with runningSequences := s.runningSequences.erase id }
  freeKv id.toU64
  note (.freed id cause)
  modify fun s => { s with pendingBackendReleases := s.pendingBackendReleases ++ [id] }
  updateRecord id fun r => r.reset .preempted
  modify fun s => { s with preemptedQueue := s.preemptedQueue ++ [id] }

def preemptForWatermark : Prog AienScheduler ε Bool := do
  let s ← get
  if s.kvManager.availableBlocks < s.config.watermarkBlocks ∧ s.runningSequences ≠ [] then
    match s.victim with
    | none => pure false
    | some id =>
      if id ∈ s.runningSequences then
        preempt id .watermark
        pure true
      else pure false
  else pure false

def tableState (s : AienScheduler) (id : SequenceId) : Option (List BlockId × Bool) :=
  (s.kvManager.sequenceTables.lookup id.toU64).map fun t => (t.blockIds, t.prefillState.isReady)

def prefillGateAllowsDecode (tableReady : Bool) : Bool := tableReady

def chunkRequest (id : SequenceId) (r : SequenceRecord) (start length : Nat) : SequenceRequest where
  requestId := id.toU64
  promptTokens := (r.prefillInput.drop start).take length
  samplingParams := r.samplingParams
  arrivalTimeNs := r.arrivalTimeNs
  priority := r.priority.toU8

def Building.addDecode (b : Building) (id : SequenceId) (blocks : List BlockId) : Building :=
  { b with
    blockTables := b.blockTables.insert id.toU64 blocks
    decodeRequests := b.decodeRequests ++ [id.toU64]
    currentTokens := b.currentTokens + 1 }

def Building.addChunk (b : Building) (req : SequenceRequest) (blocks : Option (List BlockId)) (length : Nat) :
    Building :=
  { b with
    blockTables := match blocks with
      | some blocks => b.blockTables.insert req.requestId blocks
      | none => b.blockTables
    prefillRequests := b.prefillRequests ++ [req]
    currentTokens := b.currentTokens + length
    prefillBudget := b.prefillBudget - length }

def nextChunk (config : SchedulerConfig) (b : Building) (r : SequenceRecord) : Nat :=
  min (min (r.prefillInputLen - r.promptTokensPrefilled) config.prefillChunkSize) b.prefillBudget

/-- The running loop: decode what is ready, go on with prefills, collect what the gate refused. -/
def scheduleRunning : List SequenceId → Building → List SequenceId →
    Prog AienScheduler ε (Building × List SequenceId)
  | [], b, needsPrefill => pure (b, needsPrefill)
  | seqId :: rest, b, needsPrefill => do
    let s ← get
    if b.size ≥ s.config.maxBatchSize then pure (b, needsPrefill)
    else if b.currentTokens ≥ s.config.maxBatchTokens then pure (b, needsPrefill)
    else match s.arena.get seqId with
      | none => scheduleRunning rest b needsPrefill
      | some r =>
        if r.isPrefilled then
          match s.tableState seqId with
          | none => scheduleRunning rest b needsPrefill
          | some (blocks, ready) =>
            if prefillGateAllowsDecode ready then scheduleRunning rest (b.addDecode seqId blocks) needsPrefill
            else
              updateRecord seqId fun r => r.reset .waiting
              scheduleRunning rest b (needsPrefill ++ [seqId])
        else
          let length := nextChunk s.config b r
          if length > 0 then
            scheduleRunning rest
              (b.addChunk (chunkRequest seqId r r.promptTokensPrefilled length) ((s.tableState seqId).map Prod.fst)
                length) needsPrefill
          else scheduleRunning rest b needsPrefill

/-- What the gate refused goes to the front of the waiting queue, without its table. -/
def requeueRefused (seqId : SequenceId) : Prog AienScheduler ε Unit := do
  modify fun s => { s with runningSequences := s.runningSequences.filter (· ≠ seqId) }
  freeKv seqId.toU64
  note (.freed seqId .gateRefusal)
  modify fun s => { s with pendingBackendReleases := s.pendingBackendReleases ++ [seqId] }
  modify fun s => { s with waitingQueue := seqId :: s.waitingQueue }

/-- The queue entry admission looks at: the head of the preempted, else the first waiting one that is not held. -/
inductive Candidate where
  | preempted
  | waiting (index : Nat)

def candidate (s : AienScheduler) : Option (SequenceId × Candidate) :=
  match s.preemptedQueue with
  | id :: _ => some (id, .preempted)
  | [] =>
    match s.waitingQueue.findIdx? fun id => !s.isAwaitingRestore id with
    | some idx => (s.waitingQueue[idx]?).map fun id => (id, .waiting idx)
    | none => none

def dequeue : Candidate → Prog AienScheduler ε Unit
  | .preempted => modify fun s => { s with preemptedQueue := s.preemptedQueue.tail }
  | .waiting idx => modify fun s => { s with waitingQueue := s.waitingQueue.eraseIdx idx }

def putBack (id : SequenceId) : Candidate → Prog AienScheduler ε Unit
  | .preempted => modify fun s => { s with preemptedQueue := id :: s.preemptedQueue }
  | .waiting idx => modify fun s => { s with waitingQueue := s.waitingQueue.insertIdx idx id }

def poolExhausted (id : SequenceId) (needed headroom available poolBlocks : Nat) : String :=
  s!"KV pool exhausted: admission of sequence {id.toU64} needs {needed} new KV blocks (plus {headroom} watermark) " ++
    s!"but only {available} are free ({poolBlocks} in the pool) and nothing is running that could free more; " ++
    "the request stays queued"

def enterDecode (id : SequenceId) (promptLen : Nat) : Prog AienScheduler ε Unit := do
  updateRecord id fun r => { r with isPrefilled := true, phase := .decode, promptTokensPrefilled := promptLen }
  modify fun s => { s with runningSequences := s.runningSequences ++ [id] }

/-- Blocks for the whole input, and a table that waits for its prefill. -/
def allocateKv (id : SequenceId) (input : List UInt32) : Prog AienScheduler String (List BlockId) := do
  let blocks ← onKv (AienKvManager.allocateSequence id.toU64 input)
  onKv (mapErr PrefillGateError.display (AienKvManager.markPrefillPending id.toU64))
  pure blocks

def enterPrefill (id : SequenceId) (input : List UInt32) : Prog AienScheduler ε Unit := do
  updateRecord id fun r => { r with phase := .prefill }
  note (.started id 0 input)
  modify fun s => { s with runningSequences := s.runningSequences ++ [id] }

def firstChunk (config : SchedulerConfig) (b : Building) (promptLen : Nat) : Nat :=
  min (if config.chunkPrefill then min promptLen config.prefillChunkSize else promptLen) b.prefillBudget

/-- What one round of the admission loop leaves: go on, or stop. -/
inductive Round where
  | more (b : Building)
  | stop (b : Building)

def admitDequeued (id : SequenceId) (origin : Candidate) (r : SequenceRecord) (needed : Nat) (b : Building) :
    Prog AienScheduler String Round := do
  let s ← get
  let length := firstChunk s.config b r.prefillInputLen
  match s.tableState id with
  | some (blocks, true) =>
    enterDecode id r.prefillInputLen
    pure (.more { b.addDecode id blocks with reservedBlocks := b.reservedBlocks + needed })
  | table =>
    if table.isSome then freeKv id.toU64 else pure ()
    if length = 0 then
      putBack id origin
      pure (.stop b)
    else
      let blocks ← orStrand id (allocateKv id r.prefillInput)
      enterPrefill id r.prefillInput
      pure (.more (b.addChunk (chunkRequest id r 0 length) (some blocks) length))

def admitRound (b : Building) : Prog AienScheduler String Round := do
  let s ← get
  match s.candidate with
  | none => pure (.stop b)
  | some (id, origin) =>
    match s.arena.get id with
    | none =>
      dequeue origin
      pure (.more b)
    | some r =>
      if s.kvManager.blockSize = 0 then panic
      else
        let needed := s.kvManager.incrementalBlocksNeeded id.toU64 r.prefillInputLen
        let available := s.kvManager.availableBlocks - b.reservedBlocks
        let headroom := match origin with
          | .preempted => s.config.watermarkBlocks
          | .waiting _ => 0
        if available < needed + headroom then
          if s.kvManager.totalBlocks < needed + headroom ∨
              (s.runningSequences = [] ∧ b.decodeRequests = [] ∧ b.prefillRequests = []) then
            fail (poolExhausted id needed headroom available s.kvManager.totalBlocks)
          else pure (.stop b)
        else
          dequeue origin
          admitDequeued id origin r needed b

/-- The admission loop; every round but the last takes an entry out of a queue, so their length is enough fuel. -/
def admitWaiting : Nat → Building → Prog AienScheduler String Building
  | 0, b => pure b
  | fuel + 1, b => do
    let s ← get
    if b.size < s.config.maxBatchSize ∧ b.currentTokens < s.config.maxBatchTokens ∧ b.prefillBudget > 0 then
      match ← admitRound b with
      | .more b => admitWaiting fuel b
      | .stop b => pure b
    else pure b

def Building.start (config : SchedulerConfig) : Building where
  prefillRequests := []
  decodeRequests := []
  blockTables := ∅
  currentTokens := 0
  prefillBudget := config.maxPrefillTokens
  reservedBlocks := 0

def admitUnless (preempted : Bool) (b : Building) : Prog AienScheduler String Building := do
  let s ← get
  if preempted then pure b else admitWaiting (s.waitingQueue.length + s.preemptedQueue.length + 1) b

def buildScheduledBatch : Prog AienScheduler String (Option ScheduledBatch) := do
  modify fun s => { s with stepId := s.stepId + 1 }
  purgeStaleWork
  let preempted ← preemptForWatermark
  let s ← get
  let (b, needsPrefill) ←
    scheduleRunning (s.runningSequences.insertionSort fun a b => a.le b) (.start s.config) []
  needsPrefill.forM requeueRefused
  let b ← admitUnless preempted b
  let s ← get
  if b.prefillRequests.isEmpty && b.decodeRequests.isEmpty then pure none
  else
    pure (some { prefillRequests := b.prefillRequests, decodeRequests := b.decodeRequests,
                 blockTables := b.blockTables, stepId := s.stepId })

end AienScheduler

end SovereignCore.Sched
