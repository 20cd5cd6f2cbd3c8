import SovereignCore.Lib.Traces
import SovereignCore.Sched.Runs

/-!
# Backend releases

A sequence that loses its K/V and stays live is owed a release by the backend.

* `Owes h id` : `id` was freed in `h` and not released since;
* `Owing` : what is owed is queued, and nothing is owed when a batch is executed;
* `freed_sequences_are_released` : so it is in every run in which the backend refuses no release;
* `refused_release_is_lost` : a refused release is not repeated.
-/

namespace SovereignCore.Sched

open Prog Kv AienScheduler Engine

/-- The event freed the K/V of the sequence with this 64-bit id, which stays live. -/
def Event.Frees (raw : UInt64) : Event → Prop
  | .freed id _ => id.toU64 = raw
  | _ => False

def Event.Releases (raw : UInt64) : Event → Prop
  | .released raw' ok => raw' = raw ∧ ok = true
  | _ => False

def Owes (h : List Event) (raw : UInt64) : Prop := Pending (Event.Frees raw) (Event.Releases raw) h

def ScheduledBatch.ids (batch : ScheduledBatch) : List UInt64 :=
  batch.prefillRequests.map SequenceRequest.requestId ++ batch.decodeRequests

def Event.Settled (before : List Event) : Event → Prop
  | .executed batch _ _ => ∀ raw ∈ batch.ids, ¬ Owes before raw
  | _ => True

instance (raw : UInt64) : DecidablePred (Event.Frees raw)
  | .freed id _ => inferInstanceAs (Decidable (id.toU64 = raw))
  | .started .. | .fenced .. | .stranded .. | .released .. | .forked .. | .executed .. | .emitted .. => isFalse id

instance (raw : UInt64) : DecidablePred (Event.Releases raw)
  | .released raw' ok => inferInstanceAs (Decidable (raw' = raw ∧ ok = true))
  | .started .. | .fenced .. | .stranded .. | .freed .. | .forked .. | .executed .. | .emitted .. => isFalse id

instance (h : List Event) (raw : UInt64) : Decidable (Owes h raw) :=
  inferInstanceAs (Decidable (Pending (Event.Frees raw) (Event.Releases raw) h))

instance (before : List Event) : DecidablePred (Event.Settled before)
  | .executed batch _ _ => List.decidableBAll (fun raw => ¬ Owes before raw) batch.ids
  | .started .. | .fenced .. | .stranded .. | .freed .. | .forked .. | .released .. | .emitted .. => isTrue trivial

/-- What is owed is queued, or about to be released. -/
structure Owing (x : Stage) : Prop where
  owed : ∀ raw, Owes x.sched.history raw → raw ∈ x.sched.pendingBackendReleases.map SlotId.toU64 ∨ raw ∈ x.releasing
  settled : Always Event.Settled x.sched.history

variable {lax : Prop} {x y : Stage} {s : AienScheduler}

def Event.Quiet : Event → Prop
  | .freed _ _ => False
  | .executed _ _ _ => False
  | _ => True

theorem Owing.quiet (h : Owing x) {l : List Event} (hl : ∀ e ∈ l, e.Quiet)
    (hhist : y.sched.history = x.sched.history ++ l)
    (hpend : y.sched.pendingBackendReleases = x.sched.pendingBackendReleases) (hrel : y.releasing = x.releasing) :
    Owing y := by
  constructor
  · intro id howes
    rw [hpend, hrel]
    rw [hhist] at howes
    refine h.owed id (pending_append (fun e he hfree => ?_) howes)
    have hq := hl e he
    cases e <;> first | exact hfree | exact hq
  · rw [hhist]
    refine h.settled.append fun e he before => ?_
    have hq := hl e he
    cases e <;> first | exact trivial | exact hq.elim

theorem Owing.freed (h : Owing x) {id : SequenceId} {cause : FreeCause}
    (hhist : y.sched.history = x.sched.history ++ [.freed id cause])
    (hpend : y.sched.pendingBackendReleases = x.sched.pendingBackendReleases ++ [id]) (hrel : y.releasing = x.releasing) :
    Owing y := by
  constructor
  · intro raw howes
    rw [hpend, hrel, List.map_append]
    rw [hhist] at howes
    rcases pending_concat.1 howes with ⟨howes, -⟩ | hfree
    · exact (h.owed raw howes).imp_left (List.mem_append_left _)
    · obtain rfl : id.toU64 = raw := hfree
      exact .inl (List.mem_append_right _ (List.mem_singleton_self _))
  · rw [hhist]
    exact always_concat.2 ⟨h.settled, trivial⟩

theorem told_quiet {sinkId : Option CompletionSinkId} {event : CompletionEvent} :
    ∀ e ∈ told s sinkId event, e.Quiet := by
  intro e he
  unfold told at he
  cases sinkId with
  | none => cases he
  | some sink =>
    simp only at he
    split_ifs at he
    · rw [List.mem_singleton.1 he]
      exact trivial
    · cases he

def Event.isRefusal : Event → Bool
  | .released _ ok => !ok
  | _ => false

def NoRefusal (h : List Event) : Prop := ∀ e ∈ h, e.isRefusal = false

instance (h : List Event) : Decidable (NoRefusal h) := inferInstanceAs (Decidable (∀ e ∈ h, e.isRefusal = false))

theorem Move.owing (hm : Move lax x y) (h : NoRefusal x.sched.history → Owing x) : NoRefusal y.sched.history → Owing y := by
  intro hno
  have hx : Owing x := h fun e he => hno e (hm.grows.subset he)
  have hsame : ∀ {y : Stage}, y.sched.history = x.sched.history →
      y.sched.pendingBackendReleases = x.sched.pendingBackendReleases → y.releasing = x.releasing → Owing y :=
    fun hhist hpend hrel => hx.quiet (l := []) (List.forall_mem_nil _) (by rw [hhist, List.append_nil]) hpend hrel
  have hquiet : ∀ {y : Stage} {e : Event}, y.sched.history = x.sched.history ++ [e] → e.Quiet →
      y.sched.pendingBackendReleases = x.sched.pendingBackendReleases → y.releasing = x.releasing → Owing y :=
    fun hhist he hpend hrel => hx.quiet (fun e' he' => List.mem_singleton.1 he' ▸ he) hhist hpend hrel
  cases hm with
  | aside s' h => exact hsame h.history h.pending rfl
  | purge | look | pass | decode | chunk | refuse | admitReady | advanceNone | advance | abandon | submit | submitOver |
    idle | phase => exact hsame rfl rfl rfl
  | admitPrefill | restore | fork | fence | lose | forkLost => exact hquiet rfl trivial rfl rfl
  | token | reportPreempted | finish => exact hx.quiet told_quiet rfl rfl rfl
  | preempt | requeue => exact hx.freed rfl rfl rfl
  | takeReleases hnone =>
    refine ⟨fun raw howes => ?_, hx.settled⟩
    rcases hx.owed raw howes with hmem | hmem
    · exact .inr hmem
    · rw [hnone] at hmem
      cases hmem
  | release id rest hrel =>
    refine ⟨fun raw howes => ?_, always_concat.2 ⟨hx.settled, trivial⟩⟩
    rcases pending_concat.1 howes with ⟨howes, hnot⟩ | hfree
    · refine (hx.owed raw howes).imp_right fun hmem => ?_
      rw [hrel] at hmem
      exact (List.mem_cons.1 hmem).resolve_left fun heq => hnot ⟨heq.symm, rfl⟩
    · exact hfree.elim
  | refuseRelease raw rest hrel =>
    have hev : (Event.released raw false).isRefusal = false :=
      hno _ (List.mem_append_right _ (List.mem_singleton_self _))
    cases hev
  | execute batch ok hp hd hrel hidle =>
    have hnone : ∀ raw, ¬ Owes x.sched.history raw := by
      intro raw howes
      have hmem := hx.owed raw howes
      rw [hrel.1, hrel.2] at hmem
      rcases hmem with hmem | hmem
      · cases hmem
      · cases hmem
    refine ⟨fun raw howes => ?_, always_concat.2 ⟨hx.settled, fun raw _ => hnone raw⟩⟩
    rcases pending_concat.1 howes with ⟨howes, -⟩ | hfree
    · exact (hnone raw howes).elim
    · exact hfree.elim

/-! ## Runs -/

variable {β : Type}

/-- **Nothing runs on stale backend state**: in every run in which the backend refuses no release, whenever a batch is
passed to `execute_step`, every sequence of it that lost its K/V before was released since, whatever the backend, the
calls and their errors. -/
theorem freed_sequences_are_released (B : AienInferenceBackend β) (config : SchedulerConfig) (kvManager : AienKvManager)
    (backend : β) (calls : List Call) (e : Engine β) (hrun : run B (start config kvManager backend) calls = some e)
    (hno : NoRefusal e.sched.history) : Always Event.Settled e.sched.history := by
  have hpath : Path True _ _ := run_path (.inl trivial) hrun
  have howing : NoRefusal e.sched.history → Owing (.rest e.sched) := by
    refine hpath.keeps (P := fun x => NoRefusal x.sched.history → Owing x) (fun hm h => hm.owing h) fun _ => ?_
    exact ⟨fun raw howes => (not_pending_nil howes).elim, always_nil⟩
  exact (howing hno).settled

/-- Two requests over eight blocks of two tokens. Under the watermark the first loses its K/V; the second ends after one
token, and the first is prefilled again. -/
def pressure (releases : List (Except String Unit)) : Option (Engine Script) :=
  run Script.backend (start (plainConfig 4) (.new 8 2) ⟨[.ok [], .ok [.token 0x100000001 9 none]], releases⟩)
    [.submitRequest (plainRequest 0 [10, 11, 12, 13] 8), .submitRequest (plainRequest 0 [20, 21, 22, 23, 24, 25] 1),
     .step, .step, .step, .step]

theorem freed_sequences_are_released_sample : ∃ e, pressure [.ok ()] = some e ∧
    Owes (e.sched.history.take 6) 1 ∧ Always Event.Settled e.sched.history := by
  have hrun : (pressure [.ok ()]).any (fun e => decide (Owes (e.sched.history.take 6) 1 ∧ NoRefusal e.sched.history)) =
      true := by decide +kernel
  obtain ⟨e, he, hok⟩ := Option.any_eq_true _ _ |>.1 hrun
  obtain ⟨howes, hno⟩ := of_decide_eq_true hok
  exact ⟨e, he, howes, freed_sequences_are_released Script.backend _ _ _ _ e he hno⟩

/-- **A refused release is lost**: the list it came from was taken already, and the sequence is executed again on the
positions the backend still has for it. -/
theorem refused_release_is_lost : ∃ e, pressure [.error "busy"] = some e ∧
    ¬ Always Event.Settled e.sched.history := by
  have hrun : (pressure [.error "busy"]).any (fun e => decide (¬ Always Event.Settled e.sched.history)) = true := by
    decide +kernel
  obtain ⟨e, he, hnot⟩ := Option.any_eq_true _ _ |>.1 hrun
  exact ⟨e, he, of_decide_eq_true hnot⟩

end SovereignCore.Sched
