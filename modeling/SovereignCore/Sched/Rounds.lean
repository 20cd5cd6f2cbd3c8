import SovereignCore.Sched.Places

/-!
# Rules for the two loops of a batch

An invariant of the running loop or of the admission loop has to be shown once for each way a round can go.

* `scheduleRunning_rule` : a running sequence is passed over, decoded, refused by the gate or gets a chunk;
* `Freed kv id kv'` : the table of `id`, if there was one, is dropped;
* `admitRound_rule` : a candidate is stale, refused, has to wait, enters decode, goes back or enters prefill;
* `admitWaiting_rule` : the loop.
-/

namespace SovereignCore.Sched

open Prog Kv AienScheduler

variable {ε : Type} {s : AienScheduler} {b : Building} {id : SequenceId}

/-! ## The running loop -/

section Running
variable {I : List SequenceId → Building → List SequenceId → AienScheduler → Prop}

/-- Room for one more entry. -/
structure Room (c : SchedulerConfig) (b : Building) : Prop where
  size : b.size < c.maxBatchSize
  tokens : b.currentTokens < c.maxBatchTokens

theorem scheduleRunning_rule
    (hstop : ∀ todo b refused s, I todo b refused s → I [] b refused s)
    (hpass : ∀ id rest b refused s, I (id :: rest) b refused s → I rest b refused s)
    (hdecode : ∀ id rest b refused s blocks, I (id :: rest) b refused s → Room s.config b →
      I rest (b.addDecode id blocks) refused s)
    (hrefuse : ∀ id rest b refused s, I (id :: rest) b refused s →
      I rest b (refused ++ [id]) { s with arena := s.arena.getMut id fun r => r.reset .waiting })
    (hchunk : ∀ id rest b refused s r blocks, I (id :: rest) b refused s → Room s.config b →
      I rest (b.addChunk (chunkRequest id r r.promptTokensPrefilled (nextChunk s.config b r)) blocks
        (nextChunk s.config b r)) refused s) :
    ∀ (todo : List SequenceId) (b : Building) (refused : List SequenceId) (s : AienScheduler), I todo b refused s →
      Outcome.Ends True (fun p s' => I [] p.1 p.2 s') (fun _ _ => False)
        ((scheduleRunning todo b refused : Prog AienScheduler ε (Building × List SequenceId)) s)
  | [], _, _, _, h => h
  | seqId :: rest, b, refused, s, h => by
    have ih := scheduleRunning_rule hstop hpass hdecode hrefuse hchunk rest
    unfold scheduleRunning
    rw [ends_bind, ends_get]
    split_ifs with hsize htokens
    · exact hstop _ _ _ _ h
    · exact hstop _ _ _ _ h
    · have hroom : Room s.config b := ⟨Nat.lt_of_not_le hsize, Nat.lt_of_not_le htokens⟩
      cases hr : s.arena.get seqId with
      | none => exact ih _ _ _ (hpass _ _ _ _ _ h)
      | some r =>
        by_cases hpre : r.isPrefilled = true
        · simp only [hpre, if_true]
          cases ht : s.tableState seqId with
          | none => exact ih _ _ _ (hpass _ _ _ _ _ h)
          | some table =>
            obtain ⟨blocks, ready⟩ := table
            cases ready with
            | true => exact ih _ _ _ (hdecode _ _ _ _ _ blocks h hroom)
            | false =>
              show Outcome.Ends True _ _ (scheduleRunning rest b (refused ++ [seqId])
                { s with arena := s.arena.getMut seqId fun r => r.reset .waiting })
              exact ih _ _ _ (hrefuse _ _ _ _ _ h)
        · simp only [hpre, Bool.false_eq_true, if_false]
          split_ifs with hlen
          · exact ih _ _ _ (hchunk _ _ _ _ _ r _ h hroom)
          · exact ih _ _ _ (hpass _ _ _ _ _ h)

end Running

/-! ## The admission loop -/

/-- The table of `id` is dropped, if there is one. -/
def Freed (kv : AienKvManager) (id : UInt64) (kv' : AienKvManager) : Prop :=
  if (kv.sequenceTables.lookup id).isSome then (AienKvManager.freeSequence id kv).state? = some kv' else kv' = kv

/-- The blocks of a new table that waits for its prefill. -/
structure Allocated (kv : AienKvManager) (id : UInt64) (input : List UInt32) (blocks : List BlockId)
    (kv' : AienKvManager) : Prop where
  allocated : ∃ kv₁, AienKvManager.allocateSequence id input kv = .ok blocks kv₁ ∧
    AienKvManager.markPrefillPending id kv₁ = .ok () kv'

def Unallocated (kv : AienKvManager) (id : UInt64) (input : List UInt32) : Prop :=
  (∃ e kv', AienKvManager.allocateSequence id input kv = .err e kv') ∨
    ∃ blocks kv₁ e kv', AienKvManager.allocateSequence id input kv = .ok blocks kv₁ ∧
      AienKvManager.markPrefillPending id kv₁ = .err e kv'

def AienScheduler.without (s : AienScheduler) (origin : Candidate) : AienScheduler :=
  { s with waitingQueue := (origin.left s).1, preemptedQueue := (origin.left s).2 }

def AienScheduler.headroom (s : AienScheduler) : Candidate → Nat
  | .preempted => s.config.watermarkBlocks
  | .waiting _ => 0

def AienScheduler.needed (s : AienScheduler) (id : SequenceId) (r : SequenceRecord) : Nat :=
  s.kvManager.incrementalBlocksNeeded id.toU64 r.prefillInputLen

/-- A candidate for which there are enough blocks. -/
structure Admissible (s : AienScheduler) (b : Building) (id : SequenceId) (origin : Candidate) (r : SequenceRecord) :
    Prop where
  stands : origin.At s id
  record : s.arena.get id = some r
  sized : s.kvManager.blockSize ≠ 0
  enough : s.needed id r + s.headroom origin ≤ s.kvManager.availableBlocks - b.reservedBlocks

section Admission
variable {I : Building → AienScheduler → Prop} {E : String → AienScheduler → Prop}

theorem ends_ok {σ α : Type} {N : Prop} {Q : α → σ → Prop} {F : ε → σ → Prop} (a : α) (x : σ) :
    Outcome.Ends N Q F (.ok a x) ↔ Q a x := Iff.rfl

theorem ends_freeKv {Q : Unit → AienScheduler → Prop} {F : ε → AienScheduler → Prop} {raw : UInt64}
    (hQ : ∀ kv, (AienKvManager.freeSequence raw s.kvManager).state? = some kv → Q () { s with kvManager := kv }) :
    Outcome.Ends True Q F ((freeKv raw : Prog AienScheduler ε Unit) s) := by
  unfold freeKv onKv
  rw [ends_ignore, ends_zoom]
  cases ho : AienKvManager.freeSequence raw s.kvManager with
  | ok a kv => exact hQ kv (by rw [ho]; rfl)
  | err e kv => exact hQ kv (by rw [ho]; rfl)
  | panic => exact trivial

theorem ends_allocateKv {Q : List BlockId → AienScheduler → Prop} {input : List UInt32}
    (hQ : ∀ blocks kv, Allocated s.kvManager id.toU64 input blocks kv → Q blocks { s with kvManager := kv })
    (hE : ∀ e kv, Unallocated s.kvManager id.toU64 input → E e { s with kvManager := kv }) :
    Outcome.Ends True Q E (allocateKv id input s) := by
  unfold allocateKv onKv
  rw [ends_bind, ends_zoom]
  cases ho : AienKvManager.allocateSequence id.toU64 input s.kvManager with
  | panic => exact trivial
  | err e kv => exact hE e kv (.inl ⟨e, kv, ho⟩)
  | ok blocks kv =>
    rw [ends_ok, ends_bind, ends_zoom, ends_mapErr]
    dsimp only
    cases hm : AienKvManager.markPrefillPending id.toU64 kv with
    | panic => exact trivial
    | err e kv' => exact hE _ kv' (.inr ⟨blocks, kv, e, kv', ho, hm⟩)
    | ok u kv' => exact hQ blocks kv' ⟨kv, ho, hm⟩

theorem admitRound_rule
    (hstop : I b s)
    (hstale : ∀ id origin, origin.At s id → s.arena.get id = none → I b (s.without origin))
    (hrefuse : ∀ id origin r, s.candidate = some (id, origin) → s.arena.get id = some r →
      s.kvManager.availableBlocks - b.reservedBlocks < s.needed id r + s.headroom origin →
      E (poolExhausted id (s.needed id r) (s.headroom origin) (s.kvManager.availableBlocks - b.reservedBlocks)
        s.kvManager.totalBlocks) s)
    (hdecode : ∀ id origin r blocks, Admissible s b id origin r → s.tableState id = some (blocks, true) →
      I { b.addDecode id blocks with reservedBlocks := b.reservedBlocks + s.needed id r }
        { s.without origin with
          arena := s.arena.getMut id fun r' =>
            { r' with isPrefilled := true, phase := .decode, promptTokensPrefilled := r.prefillInputLen }
          runningSequences := s.runningSequences ++ [id] })
    (hback : ∀ id origin r kv, Admissible s b id origin r → tableReady s.kvManager id.toU64 = false →
      Freed s.kvManager id.toU64 kv → I b { s with kvManager := kv })
    (hprefill : ∀ id origin r kv blocks kv', Admissible s b id origin r → tableReady s.kvManager id.toU64 = false →
      Freed s.kvManager id.toU64 kv → Allocated kv id.toU64 r.prefillInput blocks kv' →
      I (b.addChunk (chunkRequest id r 0 (firstChunk s.config b r.prefillInputLen)) (some blocks)
          (firstChunk s.config b r.prefillInputLen))
        { s.without origin with
          kvManager := kv'
          arena := s.arena.getMut id fun r' => { r' with phase := .prefill }
          history := s.history ++ [.started id 0 r.prefillInput]
          runningSequences := s.runningSequences ++ [id] })
    (hlost : ∀ id origin r kv e s', Admissible s b id origin r → tableReady s.kvManager id.toU64 = false →
      Freed s.kvManager id.toU64 kv → Unallocated kv id.toU64 r.prefillInput → E e s') :
    Outcome.Ends True (fun r s' => I r.building s') E (admitRound b s) := by
  unfold admitRound
  rw [ends_bind, ends_get]
  cases hc : s.candidate with
  | none => exact hstop
  | some p =>
    obtain ⟨id, origin⟩ := p
    have hat := candidate_at hc
    dsimp only
    cases hr : s.arena.get id with
    | none =>
      dsimp only
      rw [ends_bind, dequeue_eq]
      exact hstale id origin hat hr
    | some r =>
      dsimp only
      split_ifs with hsize hfew hexh
      · exact trivial
      · exact hrefuse id origin r hc hr hfew
      · exact hstop
      · have hadm : Admissible s b id origin r := ⟨hat, hr, hsize, Nat.le_of_not_lt hfew⟩
        rw [ends_bind, dequeue_eq, ends_ok]
        -- A table that is not ready is dropped; then there is a chunk, or the candidate goes back.
        have hfresh : ∀ kv, Freed s.kvManager id.toU64 kv → tableReady s.kvManager id.toU64 = false →
            Outcome.Ends True (fun round s' => I round.building s') E
              ((if firstChunk s.config b r.prefillInputLen = 0 then do
                  AienScheduler.putBack id origin
                  pure (.stop b)
                else do
                  let blocks ← orStrand id (allocateKv id r.prefillInput)
                  enterPrefill id r.prefillInput
                  pure (.more (b.addChunk (chunkRequest id r 0 (firstChunk s.config b r.prefillInputLen)) (some blocks)
                    (firstChunk s.config b r.prefillInputLen))) : Prog AienScheduler String Round)
                { s.without origin with kvManager := kv }) := by
          intro kv hfreed hno
          split_ifs with hlen
          · rw [ends_bind, hat.putBack _ rfl rfl]
            exact hback id origin r kv hadm hno hfreed
          · rw [ends_bind, ends_orStrand]
            refine ends_allocateKv (fun blocks kv' hall => ?_) fun e kv' hall => ?_
            · exact hprefill id origin r kv blocks kv' hadm hno hfreed hall
            · exact hlost id origin r kv e _ hadm hno hfreed hall
        unfold admitDequeued
        rw [ends_bind, ends_get]
        cases ht : s.tableState id with
        | none =>
          rw [show AienScheduler.tableState { s with
            waitingQueue := (origin.left s).1, preemptedQueue := (origin.left s).2 } id = none from ht]
          refine hfresh s.kvManager ?_ (tableReady_of_none ht)
          unfold Freed
          rw [Option.map_eq_none_iff.1 ht]
          rfl
        | some table =>
          obtain ⟨blocks, ready⟩ := table
          rw [show AienScheduler.tableState { s with
            waitingQueue := (origin.left s).1, preemptedQueue := (origin.left s).2 } id = some (blocks, ready) from ht]
          cases ready with
          | true => exact hdecode id origin r blocks hadm ht
          | false =>
            show Outcome.Ends True _ _ ((freeKv id.toU64 >>= _) _)
            rw [ends_bind]
            refine ends_freeKv fun kv hkv => hfresh kv ?_ (tableReady_of_state ht)
            obtain ⟨t, ht', -⟩ := Option.map_eq_some_iff.1 ht
            unfold Freed
            rw [ht']
            exact hkv

theorem admitWaiting_rule
    (hround : ∀ b s, I b s → Room s.config b → Outcome.Ends True (fun r s' => I r.building s') E (admitRound b s)) :
    ∀ (fuel : Nat) (b : Building) (s : AienScheduler), I b s →
      Outcome.Ends True (fun b' s' => I b' s') E (admitWaiting fuel b s)
  | 0, _, _, h => h
  | fuel + 1, b, s, h => by
    unfold admitWaiting
    rw [ends_bind, ends_get]
    split_ifs with hguard
    · rw [ends_bind]
      refine (hround b s h ⟨hguard.1, hguard.2.1⟩).mono (fun r s' h' => ?_) fun _ _ h' => h'
      cases r with
      | more b' => exact admitWaiting_rule hround fuel b' s' h'
      | stop b' => exact h'
    · exact h

theorem admitUnless_rule
    (hround : ∀ b s, I b s → Room s.config b → Outcome.Ends True (fun r s' => I r.building s') E (admitRound b s))
    (preempted : Bool) (h : I b s) : Outcome.Ends True (fun b' s' => I b' s') E (admitUnless preempted b s) := by
  unfold admitUnless
  rw [ends_bind, ends_get]
  split_ifs
  · exact h
  · exact admitWaiting_rule hround _ b s h

end Admission

end SovereignCore.Sched
