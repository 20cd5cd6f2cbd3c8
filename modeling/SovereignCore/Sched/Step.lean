import SovereignCore.Sched.Scheduler

/-!
# Steps against a backend

* `Engine β` : the scheduler and the backend it drives;
* `release`, `execute` : the backend calls, noted in the history;
* `advancePrefill` : the progress of an executed chunk and the completion fence;
* `handleToken`, `handleFinished` : the two kinds of output; `step` : one step.
-/

namespace SovereignCore.Sched

open Prog Kv AienScheduler

/-- The scheduler and the state of its backend. -/
structure Engine (β : Type) where
  sched : AienScheduler
  backend : β

namespace Engine
variable {β ε α : Type} (B : AienInferenceBackend β)

def onSched (x : Prog AienScheduler ε α) : Prog (Engine β) ε α :=
  zoom Engine.sched (fun sched e => { e with sched }) x

/-- `x?` for an answer of the backend. -/
def orRefuse : Except ε α → Prog (Engine β) ε α
  | .ok a => pure a
  | .error e => fail e

/-- `backend.release_sequence(id)?` -/
def release (id : UInt64) : Prog (Engine β) String Unit := do
  let e ← get
  let (answer, backend) := B.releaseSequence id e.backend
  set { e with backend }
  onSched (note (.released id answer.isOk))
  orRefuse answer

/-- `take_pending_backend_releases` -/
def takePendingBackendReleases : Prog AienScheduler ε (List SequenceId) := do
  let s ← get
  set { s with pendingBackendReleases := [] }
  pure s.pendingBackendReleases

/-- `backend.execute_step(&batch).await?` -/
def execute (batch : ScheduledBatch) : Prog (Engine β) String (List DecodeOutput × StepMetrics) := do
  let e ← get
  let (answer, kv, backend) := B.executeStep batch e.sched.kvManager e.backend
  onSched (note (.executed batch e.sched.kvManager answer.isOk))
  modify fun e => { e with sched.kvManager := kv, backend }
  orRefuse answer

/-- An executed chunk moves the prefill on; the last one fires the completion fence. -/
def advancePrefill (req : SequenceRequest) : Prog AienScheduler ε Unit := do
  let s ← get
  match SequenceId.fromU64 req.requestId with
  | .error _ => pure ()
  | .ok seqId =>
    match s.arena.get seqId with
    | none => pure ()
    | some r =>
      if r.isPrefilled then pure ()
      else
        let done := r.promptTokensPrefilled + req.promptTokens.length
        if done ≥ r.prefillInputLen then
          updateRecord seqId fun r => { r with promptTokensPrefilled := done, isPrefilled := true, phase := .decode }
          ignore (onKv (AienKvManager.completePrefill req.requestId))
          note (.fenced seqId r.prefillInput)
        else updateRecord seqId fun r => { r with promptTokensPrefilled := done }

/-- `AienScheduler::computed_prefix` -/
def computedPrefix (s : AienScheduler) (seqId : SequenceId) : Option (List UInt32) := do
  let r ← s.arena.get seqId
  let _ ← r.generatedTokens.getLast?
  if r.isPrefilled then some (r.prompt ++ r.generatedTokens.dropLast) else none

/-- The prefix a finish hook is told of: the backend's, else the scheduler's own. -/
def finishPrefix (e : Engine β) (seqId : SequenceId) : Option (List UInt32) :=
  match B.computedPrefix seqId.toU64 e.backend with
  | some tokens => some tokens
  | none => if B.managesKvCache e.backend then none else computedPrefix e.sched seqId

def finishHookOf (s : AienScheduler) (seqId : SequenceId) (reason : FinishReason) : Option FinishHook :=
  if reason ≠ .preempted ∧ s.arena.isStale seqId = false then s.finishHook else none

def finishKvTransaction (seqId : SequenceId) (reason : FinishReason) : Prog (Engine β) ε Unit := do
  let e ← get
  match finishHookOf e.sched seqId reason with
  | none => onSched (freeKv seqId.toU64)
  | some hook =>
    let ctx : FinishContext :=
      { seqId, requestId := seqId.toU64, reason, computedPrefix := finishPrefix B e seqId,
        prompt := ((e.sched.arena.get seqId).map fun r => r.prompt).getD [] }
    onSched (ignore (onKv (hook ctx)))
    onSched (freeKv seqId.toU64)

def reportFinished (seqId : SequenceId) (reason : FinishReason) (totalTokens : Nat)
    (sinkId : Option CompletionSinkId) : Prog (Engine β) ε Unit := do
  let e ← get
  let (decoding, backend) := B.takeDecodeObservation seqId.toU64 e.backend
  set { e with backend }
  onSched (emit sinkId (.finished seqId reason totalTokens decoding (B.opEvidence backend)))

def dropRunning (seqId : SequenceId) : Prog AienScheduler ε Unit :=
  modify fun s => { s with runningSequences := s.runningSequences.erase seqId }

/-- `self.arena.free_sequence(seq_id)` -/
def freeRecord (seqId : SequenceId) : Prog AienScheduler ε Unit :=
  modify fun s => { s with arena := (s.arena.freeSequence seqId).2 }

def retire (seqId : SequenceId) (reason : FinishReason) : Prog (Engine β) ε Unit := do
  onSched (dropRunning seqId)
  finishKvTransaction B seqId reason
  onSched (freeRecord seqId)

/-- What ends a sequence with this token: a stop token, the length limit, or an append without room. -/
def verdict (r : SequenceRecord) (requestId : UInt64) (tokenId : UInt32) : Prog (Engine β) ε (Option FinishReason) := do
  let e ← get
  if tokenId ∈ r.samplingParams.stopTokenIds then pure (some .stopToken)
  else if r.tokensGenerated + 1 ≥ r.samplingParams.maxTokens then pure (some .lengthLimit)
  else if B.managesKvCache e.backend then pure none
  else
    let appended ← onSched (onKv (succeeds (AienKvManager.appendTokenWithSlot requestId)))
    pure (if appended then none else some .preempted)

def handleToken (requestId : UInt64) (tokenId : UInt32) (logprob : Option F32) :
    Prog (Engine β) ε (List DecodeOutput) := do
  let e ← get
  match SequenceId.fromU64 requestId with
  | .error _ => pure []
  | .ok seqId =>
    match e.sched.arena.get seqId with
    | none => pure []
    | some r =>
      if !r.isPrefilled then pure []
      else
        onSched (updateRecord seqId fun r =>
          { r with tokensGenerated := r.tokensGenerated + 1, generatedTokens := r.generatedTokens ++ [tokenId] })
        let reason ← verdict B r requestId tokenId
        onSched (emit r.sinkId (.token seqId tokenId))
        match reason with
        | none => pure [.token requestId tokenId logprob]
        | some reason =>
          if reason = .preempted then onSched (preempt seqId (.failedAppend r.sinkId))
          else retire B seqId reason
          reportFinished B seqId reason (r.tokensGenerated + 1) r.sinkId
          pure [.finished requestId reason (r.tokensGenerated + 1)]

def handleFinished (requestId : UInt64) (reason : FinishReason) (totalTokens : Nat) :
    Prog (Engine β) ε (List DecodeOutput) := do
  let e ← get
  match SequenceId.fromU64 requestId with
  | .error _ => pure [.finished requestId reason totalTokens]
  | .ok seqId =>
    retire B seqId reason
    reportFinished B seqId reason totalTokens ((e.sched.arena.get seqId).bind fun r => r.sinkId)
    pure [.finished requestId reason totalTokens]

def handleOutput : DecodeOutput → Prog (Engine β) ε (List DecodeOutput)
  | .token requestId tokenId logprob => handleToken B requestId tokenId logprob
  | .finished requestId reason totalTokens => handleFinished B requestId reason totalTokens

def handleOutputs : List DecodeOutput → Prog (Engine β) ε (List DecodeOutput)
  | [] => pure []
  | output :: rest => do
    let out ← handleOutput B output
    let outs ← handleOutputs rest
    pure (out ++ outs)

def runBatch (batch : ScheduledBatch) : Prog (Engine β) String (List DecodeOutput × StepMetrics) := do
  let (outputs, metrics) ← execute B batch
  onSched (batch.prefillRequests.forM advancePrefill)
  let outs ← handleOutputs B outputs
  pure (outs, metrics)

def step : Prog (Engine β) String (Option (List DecodeOutput × StepMetrics)) := do
  let batch ← onSched buildScheduledBatch
  let ids ← onSched takePendingBackendReleases
  ids.forM fun id => release B id.toU64
  match batch with
  | none => pure none
  | some batch =>
    let answer ← runBatch B batch
    pure (some answer)

end Engine

end SovereignCore.Sched
