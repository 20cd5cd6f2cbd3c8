import SovereignCore.Sched.Calls

/-!
# The batch as a path

* `Stage.building` : the scheduler while `build_scheduled_batch` runs;
* `scheduleRunning_path`, `requeueRefused_path`, `admitWaiting_path` : its loops;
* `buildScheduledBatch_path` : a batch is at hand at the end, or no call is under way.
-/

namespace SovereignCore.Sched

open Prog Kv AienScheduler

def Stage.building (s : AienScheduler) (b : Building) (todo refused : List SequenceId) : Stage where
  sched := s
  todo := todo
  refused := refused
  prefills := b.prefillRequests
  decodes := b.decodeRequests
  releasing := []
  advancing := []

variable {lax : Prop} {s s' : AienScheduler} {id : SequenceId} {b : Building} {todo refused : List SequenceId}
variable {ε : Type}

theorem tableReady_of_state {blocks : List BlockId} {ready : Bool} (h : s.tableState id = some (blocks, ready)) :
    tableReady s.kvManager id.toU64 = ready := by
  unfold tableState at h
  obtain ⟨t, ht, hp⟩ := Option.map_eq_some_iff.1 h
  unfold tableReady
  rw [ht]
  exact congrArg Prod.snd hp

theorem tableReady_of_none (h : s.tableState id = none) : tableReady s.kvManager id.toU64 = false := by
  unfold tableState at h
  unfold tableReady
  rw [Option.map_eq_none_iff.1 h]
  rfl

theorem ready_elsewhere {kv kv' : AienKvManager} {id : UInt64} (h : Elsewhere id kv kv') (hno : tableReady kv id = false)
    (ids : List UInt64) : ∀ id' ∈ ids, tableReady kv id' → tableReady kv' id' := by
  intro id' _ hready
  have hne : id' ≠ id := by
    rintro rfl
    rw [hno] at hready
    cases hready
  unfold tableReady at hready ⊢
  rw [h id' hne]
  exact hready

/-! ## Phase one -/

theorem dropWhile_sheds {a : SequenceArena} : ∀ l : List SequenceId, Sheds a l (l.dropWhile a.isStale)
  | [] => ⟨.refl _, fun _ _ => rfl⟩
  | id :: l => by
    by_cases hid : a.isStale id = true
    · rw [List.dropWhile_cons_of_pos hid]
      refine ⟨(dropWhile_sheds l).sublist.trans (List.sublist_cons_self id l), fun id' hlive => ?_⟩
      have hne : id ≠ id' := by
        rintro rfl
        rw [SequenceArena.isStale_eq, Option.isNone_iff_eq_none] at hid
        rw [hid] at hlive
        cases hlive
      rw [(dropWhile_sheds l).live id' hlive, List.count_cons_of_ne hne]
    · rw [List.dropWhile_cons_of_neg hid]
      exact ⟨.refl _, fun _ _ => rfl⟩

theorem filter_sheds {a : SequenceArena} (l : List SequenceId) : Sheds a l (l.filter fun id => !a.isStale id) where
  sublist := List.filter_sublist
  live := by
    intro id hlive
    refine List.count_filter ?_
    rw [SequenceArena.isStale_eq, Bool.not_eq_true', Option.isNone_eq_false_iff]
    exact hlive

theorem Sheds.refl {a : SequenceArena} (l : List SequenceId) : Sheds a l l := ⟨.refl l, fun _ _ => rfl⟩

theorem purgeStaleWork_goes : Within (Goes lax) (purgeStaleWork : Prog AienScheduler ε Unit) :=
  within_modify fun s => .single (.purge (.rest s) _ _ _ (dropWhile_sheds _) (dropWhile_sheds _) (filter_sheds _) ⟨rfl, rfl⟩)

theorem freeKv_ends {Q : Unit → AienScheduler → Prop} {E : ε → AienScheduler → Prop} {id : UInt64}
    (h : ∀ kv, Elsewhere id s.kvManager kv → kv.sequenceTables.lookup id = none → Q () { s with kvManager := kv }) :
    Outcome.Ends True Q E ((freeKv id : Prog AienScheduler ε Unit) s) := by
  unfold freeKv onKv
  rw [ends_ignore, ends_zoom]
  have hfree := (freeSequence_elsewhere id s.kvManager).and (freeSequence_gone s.kvManager id)
  exact hfree.mono (fun _ kv hkv => h kv hkv.1 hkv.2) fun _ kv hkv => h kv hkv.1 hkv.2

theorem preempt_goes {cause : FreeCause} {r : SequenceRecord} (hr : s.arena.get id = some r)
    (hrun : id ∈ s.runningSequences ∨ r.isPrefilled = true) :
    Outcome.Ends True (fun _ s' => Goes lax s s' ∧ s'.history = s.history ++ [.freed id cause])
      (fun _ _ => False) ((preempt id cause : Prog AienScheduler ε Unit) s) := by
  unfold preempt
  rw [ends_bind, ends_modify, ends_bind]
  refine freeKv_ends fun kv _ _ => ?_
  refine ⟨(goes_kv kv).trans (.single ?_), rfl⟩
  exact .preempt (.rest { s with kvManager := kv }) id r cause hr hrun rfl

theorem mem_victim (h : s.victim = some id) : id ∈ s.runningSequences ∧ ∃ r, s.arena.get id = some r := by
  unfold victim at h
  obtain ⟨⟨id', p⟩, hp, rfl⟩ := Option.map_eq_some_iff.1 h
  have hmem := List.mem_of_mem_head? hp
  rw [List.mem_insertionSort] at hmem
  obtain ⟨id'', hid, hget⟩ := List.mem_filterMap.1 hmem
  obtain ⟨r, hr, heq⟩ := Option.map_eq_some_iff.1 hget
  obtain ⟨rfl, -⟩ := Prod.mk.inj heq
  exact ⟨hid, r, hr⟩

theorem preemptForWatermark_goes : Within (Goes lax) (preemptForWatermark : Prog AienScheduler ε Bool) := by
  unfold preemptForWatermark
  refine within_get fun s => ?_
  split_ifs
  · cases hv : s.victim with
    | none => exact Goes.refl s
    | some id =>
      obtain ⟨hmem, r, hr⟩ := mem_victim hv
      show Outcome.Ends True _ _ ((if id ∈ s.runningSequences then _ else _ : Prog AienScheduler ε Bool) s)
      rw [if_pos hmem, ends_bind]
      exact (preempt_goes hr (.inl hmem)).mono (fun _ _ h => h.1) fun _ _ h => h.elim
  · exact Goes.refl s

/-! ## The running loop -/

theorem scheduleRunning_path : ∀ (todo : List SequenceId) (b : Building) (refused : List SequenceId)
    (s : AienScheduler), Outcome.Ends True
      (fun p s' => Path lax (.building s b todo refused) (.building s' p.1 [] p.2) ∧ s'.kvManager = s.kvManager ∧
        ∀ id ∈ p.2, id ∈ refused ∨ tableReady s.kvManager id.toU64 = false)
      (fun _ _ => False) ((scheduleRunning todo b refused : Prog AienScheduler ε (Building × List SequenceId)) s)
  | [], b, refused, s => ⟨.refl, rfl, fun _ h => .inl h⟩
  | seqId :: rest, b, refused, s => by
    -- A branch that leaves the scheduler alone: one move, then the rest of the loop.
    have hnext : ∀ b', Move lax (.building s b (seqId :: rest) refused) (.building s b' rest refused) →
        Outcome.Ends True
          (fun p s' => Path lax (.building s b (seqId :: rest) refused) (.building s' p.1 [] p.2) ∧
            s'.kvManager = s.kvManager ∧ ∀ id ∈ p.2, id ∈ refused ∨ tableReady s.kvManager id.toU64 = false)
          (fun _ _ => False)
          ((scheduleRunning rest b' refused : Prog AienScheduler ε (Building × List SequenceId)) s) :=
      fun b' hmove => (scheduleRunning_path rest b' refused s).mono
        (fun _ _ h => ⟨.head hmove h.1, h.2⟩) fun _ _ h => h
    have hpass : Move lax (.building s b (seqId :: rest) refused) (.building s b rest refused) :=
      .pass (.building s b (seqId :: rest) refused) [seqId] rest rfl
    have hstop : Path lax (.building s b (seqId :: rest) refused) (.building s b [] refused) :=
      .single (.pass (.building s b (seqId :: rest) refused) (seqId :: rest) [] (List.append_nil _).symm)
    unfold scheduleRunning
    rw [ends_bind, ends_get]
    split_ifs
    · exact ⟨hstop, rfl, fun _ h => .inl h⟩
    · exact ⟨hstop, rfl, fun _ h => .inl h⟩
    · cases hr : s.arena.get seqId with
      | none => exact hnext b hpass
      | some r =>
        by_cases hpre : r.isPrefilled = true
        · simp only [hpre, if_true]
          cases ht : s.tableState seqId with
          | none => exact hnext b hpass
          | some table =>
            obtain ⟨blocks, ready⟩ := table
            cases ready with
            | true =>
              exact hnext (b.addDecode seqId blocks)
                (.decode (.building s b (seqId :: rest) refused) seqId rest r rfl hr hpre (tableReady_of_state ht))
            | false =>
              have hmove : Move lax (.building s b (seqId :: rest) refused)
                  (.building { s with arena := s.arena.getMut seqId fun r => r.reset .waiting } b rest
                    (refused ++ [seqId])) :=
                .refuse (.building s b (seqId :: rest) refused) seqId rest r rfl hr hpre
              show Outcome.Ends True _ _ (scheduleRunning rest b (refused ++ [seqId])
                { s with arena := s.arena.getMut seqId fun r => r.reset .waiting })
              refine (scheduleRunning_path rest b (refused ++ [seqId]) _).mono (fun p s' h => ?_) fun _ _ h => h
              refine ⟨.head hmove h.1, h.2.1, fun id hid => ?_⟩
              rcases h.2.2 id hid with hid | hid
              · rcases List.mem_append.1 hid with hid | hid
                · exact .inl hid
                · rw [List.mem_singleton.1 hid]
                  exact .inr (tableReady_of_state ht)
              · exact .inr hid
        · simp only [hpre, Bool.false_eq_true, if_false]
          split_ifs with hlen
          · refine hnext _ (.chunk (.building s b (seqId :: rest) refused) seqId rest r (nextChunk s.config b r) rfl hr
              (Bool.eq_false_of_not_eq_true hpre) ?_ rfl)
            have hle : nextChunk s.config b r ≤ r.prefillInputLen - r.promptTokensPrefilled :=
              (min_le_left _ _).trans (min_le_left _ _)
            omega
          · exact hnext b hpass

/-! ## What the gate refused -/

theorem requeueRefused_path (ids : List SequenceId) (hno : ∀ id ∈ ids, tableReady s.kvManager id.toU64 = false) :
    Outcome.Ends True (fun _ s' => Path lax (.building s b [] ids) (.building s' b [] [])) (fun _ _ => False)
      ((ids.forM requeueRefused : Prog AienScheduler ε Unit) s) := by
  refine (ends_forM (fun ids' s' => Path lax (.building s b [] ids) (.building s' b [] ids') ∧
    ∀ id ∈ ids', tableReady s'.kvManager id.toU64 = false) ?_ ids s ⟨.refl, hno⟩).mono (fun _ _ h => h.1) fun _ _ h => h
  rintro id rest s' ⟨hpath, hno⟩
  unfold requeueRefused
  rw [ends_bind, ends_modify, ends_bind]
  refine freeKv_ends fun kv helse hgone => ?_
  have hid : tableReady s'.kvManager id.toU64 = false := hno id List.mem_cons_self
  refine ⟨?_, ?_⟩
  · refine hpath.trans ?_
    refine (aside_path (.building s' b [] (id :: rest)) { s' with kvManager := kv }
      ⟨rfl, rfl, rfl, rfl, rfl, rfl⟩ (ready_elsewhere helse hid _)).trans ?_
    exact .single (.requeue (.building { s' with kvManager := kv } b [] (id :: rest)) id rest rfl rfl)
  · intro id' hid'
    show tableReady kv id'.toU64 = false
    unfold tableReady
    by_cases heq : id'.toU64 = id.toU64
    · rw [heq, hgone]
      rfl
    · rw [helse _ heq]
      exact hno id' (List.mem_cons_of_mem id hid')

/-! ## Admission -/

def AienScheduler.Candidate.left (s : AienScheduler) : Candidate → List SequenceId × List SequenceId
  | .preempted => (s.waitingQueue, s.preemptedQueue.tail)
  | .waiting idx => (s.waitingQueue.eraseIdx idx, s.preemptedQueue)

theorem dequeue_eq (origin : Candidate) (s : AienScheduler) : (dequeue origin : Prog AienScheduler ε Unit) s =
    .ok () { s with waitingQueue := (origin.left s).1, preemptedQueue := (origin.left s).2 } := by
  cases origin with
  | preempted => rfl
  | waiting idx => rfl

/-- Where a candidate stands in its queue. -/
inductive AienScheduler.Candidate.At (s : AienScheduler) (id : SequenceId) : Candidate → Prop
  | preempted (rest : List SequenceId) (h : s.preemptedQueue = id :: rest) : At s id .preempted
  | waiting (idx : Nat) (h : s.waitingQueue[idx]? = some id) : At s id (.waiting idx)

theorem candidate_at {origin : Candidate} (h : s.candidate = some (id, origin)) : origin.At s id := by
  unfold candidate at h
  cases hp : s.preemptedQueue with
  | cons id' rest =>
    rw [hp] at h
    obtain ⟨rfl, rfl⟩ := Prod.mk.inj (Option.some.inj h)
    exact .preempted rest hp
  | nil =>
    rw [hp] at h
    simp only at h
    cases hidx : s.waitingQueue.findIdx? fun id => !s.isAwaitingRestore id with
    | none =>
      rw [hidx] at h
      cases h
    | some idx =>
      rw [hidx] at h
      obtain ⟨id', hid, heq⟩ := Option.map_eq_some_iff.1 h
      obtain ⟨rfl, rfl⟩ := Prod.mk.inj heq
      exact .waiting idx hid

theorem perm_eraseIdx {l : List SequenceId} {idx : Nat} (h : l[idx]? = some id) : l.Perm (id :: l.eraseIdx idx) := by
  obtain ⟨hlt, rfl⟩ := List.getElem?_eq_some_iff.1 h
  exact (List.getElem_cons_eraseIdx_perm hlt).symm

theorem AienScheduler.Candidate.At.takes {origin : Candidate} (h : origin.At s id) :
    Takes s id (origin.left s).1 (origin.left s).2 := by
  cases h with
  | preempted rest h =>
    refine ⟨?_, .refl _, List.tail_sublist _⟩
    show (s.waitingQueue ++ s.preemptedQueue).Perm (id :: (s.waitingQueue ++ s.preemptedQueue.tail))
    rw [h]
    exact List.perm_middle
  | waiting idx h =>
    refine ⟨?_, List.eraseIdx_sublist _ _, .refl _⟩
    exact (perm_eraseIdx h).append_right s.preemptedQueue

theorem AienScheduler.Candidate.At.putBack {origin : Candidate} (h : origin.At s id) (s' : AienScheduler)
    (hw : s'.waitingQueue = (origin.left s).1) (hp : s'.preemptedQueue = (origin.left s).2) :
    (AienScheduler.putBack id origin : Prog AienScheduler ε Unit) s' =
      .ok () { s' with waitingQueue := s.waitingQueue, preemptedQueue := s.preemptedQueue } := by
  cases h with
  | preempted rest h =>
    have hp' : s'.preemptedQueue = rest := by rw [hp]; show s.preemptedQueue.tail = rest; rw [h]; rfl
    show Outcome.ok () { s' with preemptedQueue := id :: s'.preemptedQueue } = _
    rw [hp', ← h, show s.waitingQueue = s'.waitingQueue from hw.symm]
  | waiting idx h =>
    obtain ⟨hlt, hid⟩ := List.getElem?_eq_some_iff.1 h
    have hback : (s'.waitingQueue).insertIdx idx id = s.waitingQueue := by
      rw [hw, ← hid]
      exact (List.insertIdx_eraseIdx_self (Nat.ne_of_lt hlt) _).trans (List.set_getElem_self hlt)
    show Outcome.ok () { s' with waitingQueue := s'.waitingQueue.insertIdx idx id } = _
    rw [hback, show s.preemptedQueue = s'.preemptedQueue from hp.symm]

theorem AienScheduler.Candidate.At.sheds {origin : Candidate} (h : origin.At s id) (hid : s.arena.get id = none) :
    Sheds s.arena s.waitingQueue (origin.left s).1 ∧ Sheds s.arena s.preemptedQueue (origin.left s).2 := by
  have hcount : ∀ {l l' : List SequenceId}, l.Perm (id :: l') → ∀ id', (s.arena.get id').isSome →
      l'.count id' = l.count id' := by
    intro l l' hperm id' hlive
    have hne : id ≠ id' := by
      rintro rfl
      rw [hid] at hlive
      cases hlive
    rw [hperm.count_eq, List.count_cons_of_ne hne]
  cases h with
  | preempted rest h =>
    refine ⟨.refl _, List.tail_sublist _, hcount ?_⟩
    show s.preemptedQueue.Perm (id :: s.preemptedQueue.tail)
    rw [h]
    exact .refl _
  | waiting idx h => exact ⟨⟨List.eraseIdx_sublist _ _, hcount (perm_eraseIdx h)⟩, .refl _⟩

theorem allocateKv_ends {Q : List BlockId → AienScheduler → Prop} {E : String → AienScheduler → Prop}
    {input : List UInt32}
    (hQ : ∀ blocks kv, Elsewhere id.toU64 s.kvManager kv → Q blocks { s with kvManager := kv })
    (hE : ∀ e kv, Elsewhere id.toU64 s.kvManager kv → E e { s with kvManager := kv }) :
    Outcome.Ends True Q E (allocateKv id input s) := by
  unfold allocateKv onKv
  rw [ends_bind, ends_zoom]
  refine (allocateSequence_elsewhere id.toU64 input s.kvManager).mono (fun blocks kv h => ?_) fun e kv h => hE e kv h
  rw [ends_bind, ends_zoom, ends_mapErr]
  refine (markPrefillPending_elsewhere id.toU64 kv).mono (fun _ kv' h' => ?_) fun _ kv' h' => ?_
  · exact hQ blocks kv' (h.trans h')
  · exact hE _ kv' (h.trans h')

def AienScheduler.Round.building : Round → Building
  | .more b => b
  | .stop b => b

theorem lose_path {kv : AienKvManager} {w p : List SequenceId} (ht : Takes s id w p)
    (helse : Elsewhere id.toU64 s.kvManager kv) (hno : tableReady s.kvManager id.toU64 = false) :
    Path lax (.building s b [] []) (.rest { s with
      kvManager := kv, waitingQueue := w, preemptedQueue := p, history := s.history ++ [.stranded id] }) := by
  refine (aside_path (.building s b [] []) { s with kvManager := kv } ⟨rfl, rfl, rfl, rfl, rfl, rfl⟩
    (ready_elsewhere helse hno _)).trans ?_
  refine .head (.lose (.building { s with kvManager := kv } b [] []) id w p ⟨ht.perm, ht.waiting, ht.preempted⟩
    ⟨rfl, rfl⟩) ?_
  exact .single (.abandon (.building { s with
    kvManager := kv, waitingQueue := w, preemptedQueue := p, history := s.history ++ [.stranded id] } b [] [])
    ⟨rfl, rfl, rfl⟩)

theorem admitDequeued_path {origin : Candidate} {r : SequenceRecord} (hat : origin.At s id)
    (hr : s.arena.get id = some r) (needed : Nat) : Outcome.Ends True
      (fun round s' => Path lax (.building s b [] []) (.building s' round.building [] []))
      (fun _ s' => Path lax (.building s b [] []) (.rest s'))
      (admitDequeued id origin r needed b
        { s with waitingQueue := (origin.left s).1, preemptedQueue := (origin.left s).2 }) := by
  unfold admitDequeued
  rw [ends_bind, ends_get]
  -- A table that is not ready is dropped; then there is a chunk, or the candidate goes back.
  have hfresh : ∀ kv, Elsewhere id.toU64 s.kvManager kv → tableReady s.kvManager id.toU64 = false →
      Outcome.Ends True (fun round s' => Path lax (.building s b [] []) (.building s' round.building [] []))
        (fun _ s' => Path lax (.building s b [] []) (.rest s'))
        ((if firstChunk s.config b r.prefillInputLen = 0 then do
            AienScheduler.putBack id origin
            pure (.stop b)
          else do
            let blocks ← orStrand id (allocateKv id r.prefillInput)
            enterPrefill id r.prefillInput
            pure (.more (b.addChunk (chunkRequest id r 0 (firstChunk s.config b r.prefillInputLen)) (some blocks)
              (firstChunk s.config b r.prefillInputLen))) : Prog AienScheduler String Round)
          { s with kvManager := kv, waitingQueue := (origin.left s).1, preemptedQueue := (origin.left s).2 }) := by
    intro kv helse hno
    split_ifs with hlen
    · rw [ends_bind, hat.putBack _ rfl rfl]
      exact aside_path (.building s b [] []) { s with kvManager := kv } ⟨rfl, rfl, rfl, rfl, rfl, rfl⟩
        (ready_elsewhere helse hno _)
    · rw [ends_bind, ends_orStrand]
      refine allocateKv_ends (fun blocks kv' helse' => ?_) fun _ kv' helse' => ?_
      · refine (aside_path (.building s b [] []) { s with kvManager := kv' }
          ⟨rfl, rfl, rfl, rfl, rfl, rfl⟩ (ready_elsewhere (helse.trans helse') hno _)).trans ?_
        refine .single (.admitPrefill (.building { s with kvManager := kv' } b [] []) id r (origin.left s).1
          (origin.left s).2 (firstChunk s.config b r.prefillInputLen)
          ⟨hat.takes.perm, hat.takes.waiting, hat.takes.preempted⟩ hr ?_ ⟨rfl, rfl, rfl⟩)
        unfold firstChunk
        split_ifs
        · exact (min_le_left _ _).trans (min_le_left _ _)
        · exact min_le_left _ _
      · exact lose_path hat.takes (helse.trans helse') hno
  cases ht : s.tableState id with
  | none =>
    have ht' : AienScheduler.tableState { s with
        waitingQueue := (origin.left s).1, preemptedQueue := (origin.left s).2 } id = none := ht
    rw [ht']
    exact hfresh s.kvManager (.refl _) (tableReady_of_none ht)
  | some table =>
    obtain ⟨blocks, ready⟩ := table
    have ht' : AienScheduler.tableState { s with
        waitingQueue := (origin.left s).1, preemptedQueue := (origin.left s).2 } id = some (blocks, ready) := ht
    rw [ht']
    cases ready with
    | true =>
      exact .single (.admitReady (.building s b [] []) id r (origin.left s).1 (origin.left s).2 hat.takes hr
        (tableReady_of_state ht) ⟨rfl, rfl⟩)
    | false =>
      show Outcome.Ends True _ _ ((freeKv id.toU64 >>= _) _)
      rw [ends_bind]
      exact freeKv_ends fun kv helse _ => hfresh kv helse (tableReady_of_state ht)

theorem admitRound_path (b : Building) (s : AienScheduler) : Outcome.Ends True
    (fun round s' => Path lax (.building s b [] []) (.building s' round.building [] []))
    (fun _ s' => Path lax (.building s b [] []) (.rest s')) (admitRound b s) := by
  have habandon : Path lax (.building s b [] []) (.rest s) :=
    .single (.abandon (.building s b [] []) ⟨rfl, rfl, rfl⟩)
  unfold admitRound
  rw [ends_bind, ends_get]
  cases hc : s.candidate with
  | none => exact .refl
  | some c =>
    obtain ⟨id, origin⟩ := c
    have hat := candidate_at hc
    cases hr : s.arena.get id with
    | none =>
      simp only [hr]
      rw [ends_bind, dequeue_eq]
      have hsheds := hat.sheds hr
      exact .single (.purge (.building s b [] []) (origin.left s).1 (origin.left s).2 s.runningSequences hsheds.1
        hsheds.2 (.refl _) ⟨rfl, rfl⟩)
    | some r =>
      simp only [hr]
      split_ifs
      · exact trivial
      · exact habandon
      · exact .refl
      · rw [ends_bind, dequeue_eq]
        exact admitDequeued_path hat hr _

theorem admitWaiting_path : ∀ (fuel : Nat) (b : Building) (s : AienScheduler), Outcome.Ends True
    (fun b' s' => Path lax (.building s b [] []) (.building s' b' [] []))
    (fun _ s' => Path lax (.building s b [] []) (.rest s')) (admitWaiting fuel b s)
  | 0, _, _ => .refl
  | fuel + 1, b, s => by
    unfold admitWaiting
    rw [ends_bind, ends_get]
    split_ifs
    · rw [ends_bind]
      refine (admitRound_path b s).mono (fun round s' h => ?_) fun _ _ h => h
      cases round with
      | more b' => exact (admitWaiting_path fuel b' s').mono (fun _ _ h' => h.trans h') fun _ _ h' => h.trans h'
      | stop b' => exact h
    · exact .refl

theorem admitUnless_path (preempted : Bool) (b : Building) (s : AienScheduler) : Outcome.Ends True
    (fun b' s' => Path lax (.building s b [] []) (.building s' b' [] []))
    (fun _ s' => Path lax (.building s b [] []) (.rest s')) (admitUnless preempted b s) := by
  unfold admitUnless
  rw [ends_bind, ends_get]
  split_ifs
  · exact .refl
  · exact admitWaiting_path _ b s

/-! ## The whole batch -/

def Stage.ready (s : AienScheduler) (batch : ScheduledBatch) : Stage :=
  { Stage.rest s with prefills := batch.prefillRequests, decodes := batch.decodeRequests }

theorem buildScheduledBatch_path (hwf : s.arena.WF) : Outcome.Ends True
    (fun batch s' => match batch with
      | none => Path lax (.rest s) (.rest s')
      | some batch => Path lax (.rest s) (.ready s' batch))
    (fun _ s' => Path lax (.rest s) (.rest s')) (buildScheduledBatch s) := by
  unfold buildScheduledBatch
  rw [ends_bind, ends_modify, ends_bind]
  have h0 : Goes lax s { s with stepId := s.stepId + 1 } := goes_aside ⟨rfl, rfl, rfl, rfl, rfl, rfl⟩
  refine (purgeStaleWork_goes _).mono (fun _ s1 h1 => ?_) fun _ s1 h1 => (h0.trans h1) hwf
  rw [ends_bind]
  refine (preemptForWatermark_goes s1).mono (fun preempted s2 h2 => ?_) fun _ s2 h2 => ((h0.trans h1).trans h2) hwf
  have hpath2 : Path lax (.rest s) (.rest s2) := ((h0.trans h1).trans h2) hwf
  rw [ends_bind, ends_get, ends_bind]
  have hlook : Path lax (.rest s2)
      (.building s2 (.start s2.config) (s2.runningSequences.insertionSort fun a b => a.le b) []) :=
    .single (.look (.rest s2) _ (List.perm_insertionSort _ _) ⟨rfl, rfl⟩ ⟨rfl, rfl⟩)
  refine (@scheduleRunning_path lax String _ _ [] s2).mono (fun p s3 h3 => ?_) fun _ _ h => h.elim
  obtain ⟨b3, needsPrefill⟩ := p
  obtain ⟨h3, hkv, hno⟩ := h3
  have hno3 : ∀ id ∈ needsPrefill, tableReady s3.kvManager id.toU64 = false := by
    intro id hid
    rw [hkv]
    exact (hno id hid).resolve_left List.not_mem_nil
  have hpath3 := (hpath2.trans hlook).trans h3
  simp only
  rw [ends_bind]
  refine (@requeueRefused_path lax s3 b3 String needsPrefill hno3).mono (fun _ s4 h4 => ?_) fun _ _ h => h.elim
  rw [ends_bind]
  refine (admitUnless_path preempted b3 s4).mono (fun b5 s5 h5 => ?_) fun _ s5 h5 => (hpath3.trans h4).trans h5
  have hpath5 := (hpath3.trans h4).trans h5
  rw [ends_bind, ends_get]
  split_ifs with hempty
  · rw [Bool.and_eq_true, List.isEmpty_iff, List.isEmpty_iff] at hempty
    have hrest : Stage.building s5 b5 [] [] = .rest s5 := by
      unfold Stage.building Stage.rest
      rw [hempty.1, hempty.2]
    rw [hrest] at hpath5
    exact hpath5
  · exact hpath5

end SovereignCore.Sched
