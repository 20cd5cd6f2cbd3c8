import SovereignCore.Sched.Drive

/-!
# Runs

* `Call` : a call of the scheduler by one of its callers, with any arguments; other owners of the shared K/V manager
  may change it between two calls in any way;
* `Engine.call`, `Engine.run` : one call and a list of them; a call that returns an error is no end, a panic is;
* `Engine.fits`, `allFit` : explicit ids are admitted by the arena;
* `call_drives`, `run_path` : a run is a path of moves.
-/

namespace SovereignCore.Sched

open Prog Kv AienScheduler

/-- What a caller may do. -/
inductive Call where
  | submitRequest (request : SequenceRequest)
  | submitWork (work : InferenceWork) (prompt : List UInt32) (samplingParams : Option SamplingParams)
      (sinkId : Option CompletionSinkId)
  | forkSequence (parentId : SequenceId) (sinkId : Option CompletionSinkId)
  | forkSubagentWithSinkIds (parentRaw childRaw : UInt64) (sinkId : Option CompletionSinkId)
  | holdForRestore (seqId : SequenceId)
  | releaseRestore (seqId : SequenceId)
  | admitRestoredPrefix (seqId : SequenceId) (restored : Nat)
  | buildScheduledBatch
  | step
  | registerCompletionSink
  | unregisterCompletionSink (id : CompletionSinkId)
  | setFinishHook (hook : Option FinishHook)
  | otherOwner (change : AienKvManager → AienKvManager)

namespace Engine
variable {β : Type} (B : AienInferenceBackend β)

def onSched_ {α : Type} (x : Prog AienScheduler String α) : Prog (Engine β) String Unit := do
  let _ ← onSched x
  pure ()

def call : Call → Prog (Engine β) String Unit
  | .submitRequest request => onSched_ (AienScheduler.submitRequest request)
  | .submitWork work prompt samplingParams sinkId =>
    onSched_ (AienScheduler.submitWork work prompt samplingParams sinkId)
  | .forkSequence parentId sinkId => onSched_ (AienScheduler.forkSequence parentId sinkId)
  | .forkSubagentWithSinkIds parentRaw childRaw sinkId =>
    onSched_ (AienScheduler.forkSubagentWithSinkIds parentRaw childRaw sinkId)
  | .holdForRestore seqId => onSched_ (AienScheduler.holdForRestore seqId)
  | .releaseRestore seqId => onSched_ (AienScheduler.releaseRestore seqId)
  | .admitRestoredPrefix seqId restored => onSched_ (AienScheduler.admitRestoredPrefix seqId restored)
  | .buildScheduledBatch => onSched_ AienScheduler.buildScheduledBatch
  | .step => do
    let _ ← Engine.step B
    pure ()
  | .registerCompletionSink => onSched_ AienScheduler.registerCompletionSink
  | .unregisterCompletionSink id => onSched_ (AienScheduler.unregisterCompletionSink id)
  | .setFinishHook hook => onSched_ (modify fun s => { s with finishHook := hook })
  | .otherOwner change => onSched_ (modify fun s => { s with kvManager := change s.kvManager })

/-- The engine after a call, whether it returned a value or an error; `none` after a panic. -/
def after (e : Engine β) (c : Call) : Option (Engine β) :=
  match call B c e with
  | .ok _ e' => some e'
  | .err _ e' => some e'
  | .panic => none

def run (e : Engine β) (calls : List Call) : Option (Engine β) := calls.foldlM (after B) e

def start (config : SchedulerConfig) (kvManager : AienKvManager) (backend : β) : Engine β where
  sched := .new config kvManager
  backend := backend

/-- A request that names an id of its own names one the arena admits: no live record in the slot, no retired slot, no
later generation. -/
def fits (e : Engine β) : Call → Bool
  | .submitRequest request => (explicitId request).all e.sched.arena.admits
  | _ => true

def allFit (e : Engine β) : List Call → Prop
  | [] => True
  | c :: calls => e.fits c = true ∧ ∀ e', after B e c = some e' → allFit e' calls

end Engine

/-! ## Fixed runs -/

/-- The answers of a backend to its steps and releases, in order; it forks always and knows nothing else. -/
structure Script where
  steps : List (Except String (List DecodeOutput))
  releases : List (Except String Unit)

/-- The backend that answers as written; past the end it computes nothing and releases everything. -/
def Script.backend : AienInferenceBackend Script where
  managesKvCache _ := false
  executeStep _ kv b := ((b.steps.headD (.ok [])).map fun out => (out, ⟨0, 0⟩), kv, { b with steps := b.steps.tail })
  forkSequence _ _ b := (.ok (), b)
  forkSequenceWithSampling _ _ _ b := (.ok (), b)
  releaseSequence _ b := (b.releases.headD (.ok ()), { b with releases := b.releases.tail })
  computedPrefix _ _ := none
  takeDecodeObservation _ b := (none, b)
  opEvidence _ := none

def plainConfig (watermarkBlocks : Nat) : SchedulerConfig where
  maxBatchSize := 4
  maxBatchTokens := 64
  maxPrefillTokens := 64
  prefillChunkSize := 64
  chunkPrefill := true
  watermarkBlocks := watermarkBlocks

/-- A request for `maxTokens` tokens after a prompt; the id `0` asks for a new one. -/
def plainRequest (requestId : UInt64) (prompt : List UInt32) (maxTokens : Nat) : SequenceRequest where
  requestId := requestId
  promptTokens := prompt
  samplingParams := { SamplingParams.default with maxTokens }
  arrivalTimeNs := 0
  priority := 1

def plainWork : InferenceWork where
  model := 0
  kv := 0
  priority := .normal
  deadline := none
  branchParent := none
  nextTokenBudget := 0

open Engine

variable {β : Type} {B : AienInferenceBackend β} {lax : Prop} {e e' : Engine β}

theorem onSched_drives_ {α : Type} {x : Prog AienScheduler String α} (h : Within (Goes lax) x) :
    Within (Drives lax) (onSched_ x : Prog (Engine β) String Unit) :=
  within_bind (onSched_drives h) fun _ => within_pure _

theorem buildScheduledBatch_goes : Within (Goes lax) buildScheduledBatch := by
  intro s
  by_cases hwf : s.arena.WF
  · refine (buildScheduledBatch_path hwf).mono (fun batch s' h => ?_) fun _ _ h _ => h
    cases batch with
    | none => exact fun _ => h
    | some batch => exact fun _ => h.tail (.abandon (.ready s' batch) ⟨rfl, rfl, rfl⟩)
  · exact ends_of_not_wf hwf

theorem call_drives (c : Call) (e : Engine β) (hfit : lax ∨ e.fits c = true) :
    Outcome.Ends True (fun _ e' => Drives lax e e') (fun _ e' => Drives lax e e') (Engine.call B c e) := by
  cases c with
  | submitRequest request =>
    show Outcome.Ends True _ _ (onSched_ _ e)
    unfold onSched_
    rw [ends_bind, ends_onSched]
    refine (submitRequest_goes request e.sched (hfit.imp_right fun h id hid => ?_)).mono (fun _ _ h => h) fun _ _ h => h
    have hall : (explicitId request).all e.sched.arena.admits = true := h
    rw [hid] at hall
    exact hall
  | submitWork work prompt samplingParams sinkId => exact onSched_drives_ (submitWork_goes _ _ _ _) e
  | forkSequence parentId sinkId => exact onSched_drives_ (forkSequence_goes _ _) e
  | forkSubagentWithSinkIds parentRaw childRaw sinkId => exact onSched_drives_ (forkSubagentWithSinkIds_goes _ _ _) e
  | holdForRestore seqId => exact onSched_drives_ (holdForRestore_goes _) e
  | releaseRestore seqId => exact onSched_drives_ (releaseRestore_goes _) e
  | admitRestoredPrefix seqId restored => exact onSched_drives_ (admitRestoredPrefix_goes _ _) e
  | buildScheduledBatch => exact onSched_drives_ buildScheduledBatch_goes e
  | step => exact within_bind (step_drives B) (fun _ => within_pure _) e
  | registerCompletionSink => exact onSched_drives_ registerCompletionSink_goes e
  | unregisterCompletionSink id => exact onSched_drives_ (unregisterCompletionSink_goes id) e
  | setFinishHook hook =>
    have hgoes : ∀ s, Goes lax s { s with finishHook := hook } := fun s => goes_aside ⟨rfl, rfl, rfl, rfl, rfl, rfl⟩
    exact onSched_drives_ (within_modify hgoes) e
  | otherOwner change => exact onSched_drives_ (within_modify fun s => goes_kv _) e

theorem after_drives (c : Call) (hfit : lax ∨ e.fits c = true) (h : after B e c = some e') : Drives lax e e' := by
  have hends := @call_drives β B lax c e hfit
  unfold after at h
  cases hc : Engine.call B c e with
  | ok u e1 =>
    rw [hc] at h hends
    exact Option.some.inj h ▸ hends
  | err msg e1 =>
    rw [hc] at h hends
    exact Option.some.inj h ▸ hends
  | panic =>
    rw [hc] at h
    cases h

theorem run_drives : ∀ (calls : List Call) (e : Engine β), lax ∨ allFit B e calls → run B e calls = some e' →
    Drives lax e e'
  | [], e, _, h => Option.some.inj h ▸ Goes.refl e.sched
  | c :: calls, e, hfit, h => by
    obtain ⟨e1, h1, h⟩ := Option.bind_eq_some_iff.1 h
    refine Goes.trans (after_drives c (hfit.imp_right fun hfit => hfit.1) h1) ?_
    exact run_drives calls e1 (hfit.imp_right fun hfit => hfit.2 e1 h1) h

theorem run_path {config : SchedulerConfig} {kvManager : AienKvManager} {backend : β} {calls : List Call}
    (hfit : lax ∨ allFit B (start config kvManager backend) calls)
    (h : run B (start config kvManager backend) calls = some e) :
    Path lax (.rest (.new config kvManager)) (.rest e.sched) :=
  run_drives calls _ hfit h (SequenceArena.Start.wf .new)

end SovereignCore.Sched
