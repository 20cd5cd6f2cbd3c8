import SovereignCore.Kv.Frames
import SovereignCore.Sched.Moves

/-!
# Calls without a backend as paths

* `Goes over s s'` : from a scheduler whose arena is in order, `s'` is reached by moves;
* one lemma for each call; an explicit id must be admitted unless `lax`.
-/

namespace SovereignCore.Sched

open Prog Kv AienScheduler

variable {lax : Prop} {x : Stage} {s s' s'' : AienScheduler} {id : SequenceId} {ε : Type}

/-- `s'` is reached from `s` by moves. -/
def Goes (lax : Prop) (s s' : AienScheduler) : Prop := s.arena.WF → Path lax (.rest s) (.rest s')

theorem Goes.refl (s : AienScheduler) : Goes lax s s := fun _ => .refl

theorem Goes.trans (h : Goes lax s s') (h' : Goes lax s' s'') : Goes lax s s'' := by
  intro hwf
  have hpath := h hwf
  exact hpath.trans (h' (hpath.wf hwf))

theorem Goes.single (h : Move lax (.rest s) (.rest s')) : Goes lax s s' := fun _ => .single h

theorem aside_path (x : Stage) (s' : AienScheduler) (h : SameCore x.sched s')
    (hready : ∀ id ∈ x.decodes, tableReady x.sched.kvManager id → tableReady s'.kvManager id) :
    Path lax x { x with sched := s' } := .single (.aside x s' h hready)

theorem goes_aside (h : SameCore s s') : Goes lax s s' :=
  fun _ => aside_path (.rest s) s' h (fun _ hd => absurd hd List.not_mem_nil)

theorem goes_kv (kv : AienKvManager) : Goes lax s { s with kvManager := kv } := goes_aside ⟨rfl, rfl, rfl, rfl, rfl, rfl⟩

theorem ends_of_not_wf {α : Type} {o : Outcome ε AienScheduler α} (h : ¬ s.arena.WF) :
    o.Ends True (fun _ s' => Goes lax s s') (fun _ s' => Goes lax s s') :=
  Outcome.Ends.any (fun _ _ hwf => absurd hwf h) fun _ _ hwf => absurd hwf h

/-! ## Sinks and the outside -/

theorem registerCompletionSink_goes : Within (Goes lax) (registerCompletionSink : Prog AienScheduler ε CompletionSinkId) :=
  within_get fun _ => goes_aside ⟨rfl, rfl, rfl, rfl, rfl, rfl⟩

theorem unregisterCompletionSink_goes (id : CompletionSinkId) :
    Within (Goes lax) (unregisterCompletionSink id : Prog AienScheduler ε Unit) :=
  within_modify fun _ => goes_aside ⟨rfl, rfl, rfl, rfl, rfl, rfl⟩

/-! ## Submitting -/

theorem goes_submit {params : SequenceParams} {arena : SequenceArena}
    (h : SequenceArena.Inserted s.arena arena id (.new id params)) :
    Goes lax s { s with arena, waitingQueue := s.waitingQueue ++ [id] } :=
  .single (.submit (.rest s) id params arena h rfl)

theorem goes_idle {arena : SequenceArena} (h : SequenceArena.Idle s.arena.toSlots arena.toSlots) :
    Goes lax s { s with arena } := .single (.idle (.rest s) arena h rfl)

theorem expectInsert_goes (hwf : s.arena.WF) (params : SequenceParams) :
    Outcome.Ends True (fun id s' => Goes lax s { s' with waitingQueue := s'.waitingQueue ++ [id] })
      (fun _ s' => Goes lax s s') ((expectInsert params : Prog AienScheduler ε SequenceId) s) := by
  unfold expectInsert
  rw [ends_expect]
  unfold onArena
  rw [ends_zoom]
  refine ((SequenceArena.insertWith_ends hwf).mono (fun id a' h => ?_) fun _ _ _ => trivial).weaken
  exact goes_submit h

theorem insertExplicit_goes (hwf : s.arena.WF) (id : SequenceId) (params : SequenceParams)
    (hfit : lax ∨ s.arena.admits id = true) :
    Outcome.Ends True (fun id s' => Goes lax s { s' with waitingQueue := s'.waitingQueue ++ [id] })
      (fun _ s' => Goes lax s s') (insertExplicit id params s) := by
  unfold insertExplicit
  rw [ends_bind, ends_result]
  unfold onArena
  rw [ends_zoom]
  rcases hfit with hover | hfit
  · refine ((SequenceArena.insertWithId_over hwf).mono (fun id' a' h => ?_) fun _ a' h => ?_).weaken
    · exact .single (.submitOver (.rest s) id' a' hover h.2.1 rfl)
    · obtain rfl := h
      exact expectInsert_goes hwf params
  · refine ((SequenceArena.insertWithId_ends hwf hfit).mono (fun id' a' h => ?_) fun _ a' h => ?_).weaken
    · obtain ⟨rfl, h⟩ := h
      exact goes_submit h
    · obtain rfl := h
      exact expectInsert_goes hwf params

theorem submitRequest_goes (request : SequenceRequest) (s : AienScheduler)
    (hfit : lax ∨ ∀ id, explicitId request = some id → s.arena.admits id = true) :
    Outcome.Ends True (fun _ s' => Goes lax s s') (fun _ s' => Goes lax s s') (submitRequest request s) := by
  by_cases hwf : s.arena.WF
  · unfold submitRequest insertRequest
    rw [ends_bind]
    cases hid : explicitId request with
    | none => exact (expectInsert_goes hwf _).mono (fun _ _ h => h) fun _ _ h => h
    | some id =>
      exact (insertExplicit_goes hwf id _ (hfit.imp_right fun h => h id hid)).mono (fun _ _ h => h) fun _ _ h => h
  · exact ends_of_not_wf hwf

theorem submitWork_goes (work : InferenceWork) (prompt : List UInt32) (samplingParams : Option SamplingParams)
    (sinkId : Option CompletionSinkId) : Within (Goes lax) (submitWork work prompt samplingParams sinkId) := by
  intro s
  by_cases hwf : s.arena.WF
  · unfold submitWork onArena
    rw [ends_bind, ends_zoom]
    exact ((SequenceArena.insertWith_ends hwf).mono (fun id a' h => goes_submit h) fun _ a' h => goes_idle h).weaken
  · exact ends_of_not_wf hwf

/-! ## Forking -/

/-- The child is in the arena; its K/V is forked, and it runs where its parent stands. -/
theorem goes_fork {parentId : SequenceId} {parent : SequenceRecord} {sinkId : Option CompletionSinkId}
    {arena : SequenceArena} (hparent : s.arena.get parentId = some parent)
    (h : SequenceArena.Inserted s.arena arena id (SequenceArena.forkRecord parent parentId id sinkId)) :
    Goes lax s { s with
      arena
      history := s.history ++ [.started id parent.promptTokensPrefilled parent.prefillInput]
      runningSequences := s.runningSequences ++ [id] } :=
  .single (.fork (.rest s) parentId id parent sinkId arena hparent h rfl)

theorem goes_forkLost {parentId : SequenceId} {parent : SequenceRecord} {sinkId : Option CompletionSinkId}
    {arena : SequenceArena} (hparent : s.arena.get parentId = some parent)
    (h : SequenceArena.Inserted s.arena arena id (SequenceArena.forkRecord parent parentId id sinkId)) :
    Goes lax s { s with arena, history := s.history ++ [.stranded id] } :=
  .single (.forkLost (.rest s) parentId id parent sinkId arena hparent h rfl)

theorem ends_orStrand {α : Type} {N : Prop} {Q : α → AienScheduler → Prop} {E : String → AienScheduler → Prop}
    (x : Prog AienScheduler String α) : Outcome.Ends N Q E (orStrand id x s) ↔
      (x s).Ends N Q fun e s' => E e { s' with history := s'.history ++ [.stranded id] } := by
  unfold orStrand
  rw [ends_bind, ends_result]
  cases x s <;> rfl

theorem forkWith_goes {α : Type} (parentId : SequenceId) (sinkId : Option CompletionSinkId)
    (kvPart : SequenceId → Prog AienKvManager String α) (hwf : s.arena.WF) :
    Outcome.Ends True (fun _ s' => Goes lax s s') (fun _ s' => Goes lax s s') (forkWith parentId sinkId kvPart s) := by
  unfold forkWith
  unfold onArena
  rw [ends_bind, ends_zoom]
  refine ((SequenceArena.fork_ends hwf).mono (fun childId arena h => ?_) fun _ _ h => goes_idle h).weaken
  obtain ⟨parent, hparent, h⟩ := h
  unfold onKv
  rw [ends_bind, ends_orStrand, ends_zoom]
  refine Outcome.Ends.any (fun a kv => ?_) fun _ kv => ?_
  · have hstart : ∀ s' : AienScheduler, s'.arena = arena →
        s'.startOf childId = [.started childId parent.promptTokensPrefilled parent.prefillInput] := by
      intro s' hs'
      unfold startOf
      rw [hs', h.self]
      rfl
    unfold pushFork
    rw [ends_bind, ends_modify, ends_pure, hstart _ rfl]
    exact (goes_kv kv).trans (goes_fork (s := { s with kvManager := kv }) hparent h)
  · exact (goes_kv kv).trans (goes_forkLost (s := { s with kvManager := kv }) hparent h)

theorem forkSequence_goes (parentId : SequenceId) (sinkId : Option CompletionSinkId) :
    Within (Goes lax) (AienScheduler.forkSequence parentId sinkId) := by
  unfold AienScheduler.forkSequence
  refine within_get fun s => ?_
  split_ifs
  · exact Goes.refl s
  · by_cases hwf : s.arena.WF
    · rw [ends_bind]
      exact (forkWith_goes parentId sinkId _ hwf).mono (fun _ _ h => h) fun _ _ h => h
    · exact ends_of_not_wf hwf

theorem forkSubagentWithSinkIds_goes (parentRaw childRaw : UInt64) (sinkId : Option CompletionSinkId) :
    Within (Goes lax) (forkSubagentWithSinkIds parentRaw childRaw sinkId) := by
  unfold forkSubagentWithSinkIds
  refine within_get fun s => ?_
  cases s.findParent parentRaw with
  | none => exact Goes.refl s
  | some parentId =>
    rw [ends_bind, ends_orFail_some]
    split_ifs
    · exact Goes.refl s
    · by_cases hwf : s.arena.WF
      · rw [ends_bind]
        exact (forkWith_goes parentId sinkId _ hwf).mono (fun _ _ h => h) fun _ _ h => h
      · exact ends_of_not_wf hwf

/-! ## Restored prefixes -/

theorem setPhase_goes (id : SequenceId) (phase : SequencePhase) :
    Within (Goes lax) (setPhase id phase : Prog AienScheduler ε Unit) :=
  within_modify fun s => .single (.phase (.rest s) id phase rfl)

theorem holdForRestore_goes (id : SequenceId) : Within (Goes lax) (holdForRestore id) := by
  unfold holdForRestore
  refine within_get fun s => ?_
  cases s.arena.get id with
  | none => exact Goes.refl s
  | some r =>
    rw [ends_bind, ends_orFail_some]
    split_ifs
    · exact Goes.refl s
    · exact setPhase_goes id .awaitingRestore s

theorem releaseRestore_goes (id : SequenceId) : Within (Goes lax) (releaseRestore id) := by
  unfold releaseRestore
  refine within_get fun s => ?_
  split_ifs
  · exact Goes.refl s
  · exact setPhase_goes id .waiting s

theorem admitRestoredPrefix_goes (id : SequenceId) (restored : Nat) :
    Within (Goes lax) (admitRestoredPrefix id restored) := by
  unfold admitRestoredPrefix
  refine within_get fun s => ?_
  cases hr : (s.arena.get id).filter fun r => r.phase == .awaitingRestore with
  | none => exact Goes.refl s
  | some r =>
    rw [ends_bind, ends_orFail_some]
    split_ifs with hlen hw
    · exact Goes.refl s
    · cases s.checkRestored id restored with
      | error e => exact Goes.refl s
      | ok u =>
        have hget : s.arena.get id = some r := (Option.filter_eq_some_iff.1 hr).1
        rw [not_or, Nat.not_le] at hlen
        exact .single (.restore (.rest s) id r restored hget ⟨Nat.pos_of_ne_zero hlen.1, hlen.2⟩ hw rfl)
    · cases s.checkRestored id restored with
      | error e => exact Goes.refl s
      | ok u => exact Goes.refl s

end SovereignCore.Sched
