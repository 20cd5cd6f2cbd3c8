import Mathlib
import SovereignCore.Kv.Needs
import SovereignCore.Sched.Rounds

/-!
# Admission and the pool

* `AienKvManager.Reached`, `Sane` : managers that their own calls reach;
* `Promised base ids b s` : the admission loop has put `ids` into decode, their needs are reserved and the reserved
  blocks are free;
* `admitUnless_promised` : the loop keeps it, and no allocation fails;
* `runningPart` : the call before admission; `admission_within_pool` : every reachable state.
-/

namespace SovereignCore.Kv.AienKvManager

open Prog

/-- A manager that calls on a new one reach, whatever was written into the rows of its pool. Its fields are private, so
no other manager is ever shared with a scheduler. -/
def Reached (m : AienKvManager) : Prop :=
  ∃ total bs pool ops w, (World.init total bs pool).run ops = some w ∧
    m = { w.manager with tensorPool := m.tensorPool }

/-- The accounts and the shape are in order, or blocks have no room and there is no table. -/
def Sane (m : AienKvManager) : Prop := Inv m ∨ m.Idle

theorem Reached.sane {m : AienKvManager} (h : m.Reached) : m.Sane := by
  obtain ⟨total, bs, pool, ops, w, hrun, heq⟩ := h
  rw [heq]
  rcases Nat.eq_zero_or_pos bs with rfl | hbs
  · have hidle := (World.run_unused ops ⟨⟨fun _ => rfl, rfl⟩, rfl⟩ hrun).idle
    exact .inr ⟨hidle.none, hidle.size⟩
  · have hi := ((World.run_init total bs hbs pool ops).1 w hrun).inv
    exact .inl ⟨hi.size, hi.accounts.congr rfl rfl rfl rfl, hi.shape⟩

theorem Sane.freeSequence {m m' : AienKvManager} (h : m.Sane) {id : UInt64}
    (hfree : (AienKvManager.freeSequence id m).state? = some m') : m'.Sane := by
  rcases h with hi | hidle
  · exact .inl ((freeSequence_good (N := True) hi id).state.1 m' hfree).1
  · have hstuck : (AienKvManager.freeSequence id m).Ends True (fun _ _ => False) (fun _ m' => m' = m) :=
      hidle.lookup id _ _
    have heq := (hstuck.mono (fun _ _ h => h.elim) fun _ _ h => h).state.1 m' hfree
    rw [heq]
    exact .inr hidle

end SovereignCore.Kv.AienKvManager

namespace SovereignCore.Sched

open Prog Kv AienScheduler AienKvManager

variable {s s' : AienScheduler} {b b' : Building} {id : SequenceId} {ids : List SequenceId} {base : List UInt64}

/-! ## Promises -/

/-- What `incremental_blocks_needed` answers for a sequence and its input; nothing for one that is gone. -/
def AienScheduler.needOf (s : AienScheduler) (id : SequenceId) : Nat :=
  ((s.arena.get id).map fun r => s.needed id r).getD 0

/-- The admission loop put `ids` into decode, after the decodes `base` of the running loop: their needs are reserved, and
the reserved blocks are free. -/
structure Promised (base : List UInt64) (ids : List SequenceId) (b : Building) (s : AienScheduler) : Prop where
  sane : Inv s.kvManager ∨ s.kvManager.Idle ∧ ids = []
  decodes : b.decodeRequests = base ++ ids.map SlotId.toU64
  ready : ∀ id ∈ ids, tableReady s.kvManager id.toU64 = true
  promised : (ids.map s.needOf).sum ≤ b.reservedBlocks
  kept : b.reservedBlocks ≤ s.kvManager.availableBlocks

theorem Promised.start (hsane : s.kvManager.Sane) (hb : b.reservedBlocks = 0) :
    Promised b.decodeRequests [] b s where
  sane := hsane.imp_right fun h => ⟨h, rfl⟩
  decodes := (List.append_nil _).symm
  ready := fun _ h => absurd h List.not_mem_nil
  promised := Nat.zero_le _
  kept := hb ▸ Nat.zero_le _

theorem Promised.inv (h : Promised base ids b s) (hsize : s.kvManager.blockSize ≠ 0) : Inv s.kvManager :=
  h.sane.resolve_right fun hidle => hsize hidle.1.size

/-- Needs are read from the manager and the lengths of the inputs. -/
theorem needOf_congr (hkv : s'.kvManager = s.kvManager)
    (hlen : (s'.arena.get id).map SequenceRecord.prefillInputLen = (s.arena.get id).map SequenceRecord.prefillInputLen) :
    s'.needOf id = s.needOf id := by
  have hmap : ∀ s : AienScheduler, s.needOf id =
      (((s.arena.get id).map SequenceRecord.prefillInputLen).map fun n =>
        s.kvManager.incrementalBlocksNeeded id.toU64 n).getD 0 := by
    intro s
    unfold AienScheduler.needOf
    rw [Option.map_map]
    rfl
  rw [hmap s', hmap s, hlen, hkv]

theorem Promised.aside (h : Promised base ids b s) (hkv : s'.kvManager = s.kvManager)
    (hlen : ∀ id, (s'.arena.get id).map SequenceRecord.prefillInputLen =
      (s.arena.get id).map SequenceRecord.prefillInputLen)
    (hd : b'.decodeRequests = b.decodeRequests) (hr : b'.reservedBlocks = b.reservedBlocks) :
    Promised base ids b' s' where
  sane := hkv ▸ h.sane
  decodes := hd.trans h.decodes
  ready := hkv ▸ h.ready
  promised := by
    rw [hr, List.map_congr_left fun id _ => needOf_congr hkv (hlen id)]
    exact h.promised
  kept := by
    rw [hr, hkv]
    exact h.kept

theorem Promised.onKv (h : Promised base ids b s) {kv : AienKvManager} (hi : Inv s.kvManager) (hi' : Inv kv)
    (heases : ∀ id ∈ ids, Eases id.toU64 s.kvManager kv) (hfree : b.reservedBlocks ≤ kv.availableBlocks) :
    Promised base ids b { s with kvManager := kv } where
  sane := .inl hi'
  decodes := h.decodes
  ready id hid := by
    have hready := h.ready id hid
    show tableReady kv id.toU64 = true
    unfold tableReady at hready ⊢
    rwa [(heases id hid).table]
  promised := by
    refine le_trans (List.sum_le_sum fun id hid => ?_) h.promised
    have hready := h.ready id hid
    unfold tableReady at hready
    obtain ⟨t, ht, hstate⟩ := Option.any_eq_true _ _ |>.1 hready
    unfold AienScheduler.needOf
    cases hr : s.arena.get id with
    | none => exact Nat.le_refl 0
    | some r => exact need_le hi (heases id hid) ht hstate _
  kept := hfree

theorem prefillInputLen_getMut {a : SequenceArena} {f : SequenceRecord → SequenceRecord}
    (hf : ∀ r, (f r).prefillInputLen = r.prefillInputLen) (id' : SequenceId) :
    ((a.getMut id f).get id').map SequenceRecord.prefillInputLen = (a.get id').map SequenceRecord.prefillInputLen := by
  by_cases hid : id' = id
  · subst hid
    rw [SequenceArena.get_getMut_self, Option.map_map]
    congr 1
    funext r
    exact hf r
  · rw [SequenceArena.get_getMut_of_ne hid]

theorem Promised.enter (h : Promised base ids b s) {origin : Candidate} {r : SequenceRecord} {blocks : List BlockId}
    (hadm : Admissible s b id origin r) (hready : tableReady s.kvManager id.toU64 = true) :
    Promised base (ids ++ [id]) { b.addDecode id blocks with reservedBlocks := b.reservedBlocks + s.needed id r } s where
  sane := .inl (h.inv hadm.sized)
  decodes := by
    show b.decodeRequests ++ [id.toU64] = _
    rw [h.decodes, List.map_append, List.append_assoc]
    rfl
  ready id' hid := by
    rcases List.mem_append.1 hid with hid | hid
    · exact h.ready id' hid
    · rw [List.mem_singleton.1 hid]
      exact hready
  promised := by
    have hneed : s.needOf id = s.needed id r := by
      unfold AienScheduler.needOf
      rw [hadm.record]
      rfl
    have hsum := h.promised
    rw [List.map_append, List.sum_append]
    show _ + (s.needOf id + 0) ≤ b.reservedBlocks + s.needed id r
    omega
  kept := by
    have henough := hadm.enough
    have hkept := h.kept
    show b.reservedBlocks + s.needed id r ≤ s.kvManager.availableBlocks
    omega

/-! ## Dropping and allocating -/

/-- What a candidate without computed K/V needs, after its table is dropped. -/
theorem freed_room (hi : Inv s.kvManager) {r : SequenceRecord} {kv : AienKvManager}
    (hno : tableReady s.kvManager id.toU64 = false) (hfreed : Freed s.kvManager id.toU64 kv) :
    Inv kv ∧ kv.sequenceTables.lookup id.toU64 = none ∧ kv.blockSize = s.kvManager.blockSize ∧
      s.kvManager.availableBlocks ≤ kv.availableBlocks ∧
      s.kvManager.availableBlocks + r.prefillInputLen ⌈/⌉ kv.blockSize ≤ kv.availableBlocks + s.needed id r ∧
      ∀ id', id' ≠ id.toU64 → Eases id' s.kvManager kv := by
  unfold Freed at hfreed
  cases ht : s.kvManager.sequenceTables.lookup id.toU64 with
  | none =>
    rw [ht] at hfreed
    obtain rfl : kv = s.kvManager := hfreed
    refine ⟨hi, ht, rfl, Nat.le_refl _, ?_, fun _ _ => .refl _⟩
    unfold AienScheduler.needed incrementalBlocksNeeded
    rw [ht]
  | some t =>
    rw [ht] at hfreed
    obtain ⟨hi', hgone, hsize, hback, heases⟩ := freeSequence_returns hi ht hfreed
    have hstate : t.prefillState.isReady = false := by
      unfold tableReady at hno
      rw [ht] at hno
      exact hno
    have hneed : s.needed id r =
        r.prefillInputLen ⌈/⌉ s.kvManager.blockSize - (s.kvManager.returned t).length := by
      unfold AienScheduler.needed incrementalBlocksNeeded
      rw [ht]
      dsimp only
      rw [hstate]
      rfl
    refine ⟨hi', hgone, hsize, ?_, ?_, heases⟩
    · unfold availableBlocks
      omega
    · rw [hneed, hsize]
      unfold availableBlocks
      omega

theorem markPrefillPending_room {m : AienKvManager} {raw : UInt64} (hi : Inv m)
    (hsome : (m.sequenceTables.lookup raw).isSome) : (AienKvManager.markPrefillPending raw m).Ends True
      (fun _ m' => Inv m' ∧ m'.freeBlocks = m.freeBlocks ∧ ∀ id', id' ≠ raw → Eases id' m m') (fun _ _ => False) := by
  obtain ⟨t, ht⟩ := Option.isSome_iff_exists.1 hsome
  have hgood := (markPrefillPending_ends (N := True) hi raw).and (markPrefillPending_elsewhere raw m)
  unfold AienKvManager.markPrefillPending at hgood ⊢
  rw [ends_bind, ends_get, ends_bind, ht, ends_orFail_some] at hgood ⊢
  split_ifs at hgood ⊢ with hready
  · exact ⟨hi, rfl, fun _ _ => .refl m⟩
  · rw [ends_updateTable ht] at hgood ⊢
    exact ⟨hgood.1.1.1, rfl, fun id' hne => ⟨rfl, rfl, hgood.2 id' hne, fun _ _ _ _ => rfl, fun _ _ _ _ h => h⟩⟩

/-- **A new table** always finds its blocks, and leaves the reserved ones free. -/
theorem allocated_room {kv : AienKvManager} {reserved : Nat} {raw : UInt64} {input : List UInt32} (hi : Inv kv)
    (hnone : kv.sequenceTables.lookup raw = none)
    (hroom : reserved + input.length ⌈/⌉ kv.blockSize ≤ kv.availableBlocks) :
    ¬ Unallocated kv raw input ∧ ∀ blocks kv', Allocated kv raw input blocks kv' →
      Inv kv' ∧ reserved ≤ kv'.availableBlocks ∧ ∀ id', id' ≠ raw → Eases id' kv kv' := by
  have halloc := allocateSequence_takes hi hnone ((Nat.le_add_left _ _).trans hroom)
  constructor
  · rintro (⟨e, kv', herr⟩ | ⟨blocks, kv₁, e, kv', hok, herr⟩)
    · rw [herr] at halloc
      exact halloc
    · rw [hok] at halloc
      have hmark := markPrefillPending_room halloc.1 halloc.2.1
      rw [herr] at hmark
      exact hmark
  · rintro blocks kv' ⟨kv₁, hok, hmark⟩
    rw [hok] at halloc
    obtain ⟨hi₁, hsome, -, hfree, heases⟩ := halloc
    have hends := markPrefillPending_room hi₁ hsome
    rw [hmark] at hends
    obtain ⟨hi', hsame, heases'⟩ := hends
    refine ⟨hi', ?_, fun id' hne => (heases id' hne).trans (heases' id' hne)⟩
    unfold availableBlocks at hroom ⊢
    rw [hsame]
    omega

/-! ## The admission loop -/

/-- The one error of a batch: the pool is exhausted, and the candidate still stands at its place in its queue. -/
def RefusedInPlace (e : String) (s : AienScheduler) : Prop :=
  ∃ id origin r reserved, s.candidate = some (id, origin) ∧ s.arena.get id = some r ∧
    e = poolExhausted id (s.needed id r) (s.headroom origin) (s.kvManager.availableBlocks - reserved)
      s.kvManager.totalBlocks

/-- Who is in decode already is not the candidate without computed K/V. -/
theorem Promised.ne (h : Promised base ids b s) (hno : tableReady s.kvManager id.toU64 = false) :
    ∀ id' ∈ ids, id'.toU64 ≠ id.toU64 := by
  intro id' hid heq
  have hready := h.ready id' hid
  rw [heq, hno] at hready
  cases hready

theorem admitRound_promised (h : ∃ ids, Promised base ids b s) : Outcome.Ends True
    (fun round s' => ∃ ids, Promised base ids round.building s') RefusedInPlace (admitRound b s) := by
  obtain ⟨ids, h⟩ := h
  -- After the candidate's table is dropped there is room for a new one beside the reserved blocks.
  have hfresh : ∀ {id origin} {r : SequenceRecord} {kv : AienKvManager}, Admissible s b id origin r →
      tableReady s.kvManager id.toU64 = false → Freed s.kvManager id.toU64 kv →
      Promised base ids b { s with kvManager := kv } ∧ Inv kv ∧ kv.sequenceTables.lookup id.toU64 = none ∧
        b.reservedBlocks + r.prefillInput.length ⌈/⌉ kv.blockSize ≤ kv.availableBlocks := by
    intro id origin r kv hadm hno hfreed
    have hi := h.inv hadm.sized
    obtain ⟨hi', hnone, -, hmore, hneed, heases⟩ := freed_room (r := r) hi hno hfreed
    have hkept := h.kept
    have henough := hadm.enough
    refine ⟨h.onKv hi hi' (fun id' hid => heases _ (h.ne hno id' hid)) (hkept.trans hmore), hi', hnone, ?_⟩
    rw [SequenceRecord.length_prefillInput]
    omega
  refine admitRound_rule (I := fun b s => ∃ ids, Promised base ids b s) ⟨ids, h⟩ ?_ ?_ ?_ ?_ ?_ ?_
  · intro id origin _ _
    exact ⟨ids, h.aside rfl (fun _ => rfl) rfl rfl⟩
  · intro id origin r hc hr _
    exact ⟨id, origin, r, b.reservedBlocks, hc, hr, rfl⟩
  · intro id origin r blocks hadm ht
    refine ⟨ids ++ [id], (h.enter hadm (tableReady_of_state ht)).aside rfl (fun id' => ?_) rfl rfl⟩
    refine prefillInputLen_getMut ?_ id'
    exact fun _ => rfl
  · intro id origin r kv hadm hno hfreed
    exact ⟨ids, (hfresh hadm hno hfreed).1⟩
  · intro id origin r kv blocks kv' hadm hno hfreed hall
    obtain ⟨hp, hi, hnone, hroom⟩ := hfresh hadm hno hfreed
    obtain ⟨hi', hfree, heases⟩ := (allocated_room hi hnone hroom).2 blocks kv' hall
    refine ⟨ids, (hp.onKv hi hi' (fun id' hid => heases _ (h.ne hno id' hid)) hfree).aside rfl (fun id' => ?_) rfl rfl⟩
    refine prefillInputLen_getMut ?_ id'
    exact fun _ => rfl
  · intro id origin r kv e s' hadm hno hfreed hun
    obtain ⟨-, hi, hnone, hroom⟩ := hfresh hadm hno hfreed
    exact absurd hun (allocated_room hi hnone hroom).1

theorem admitUnless_promised (preempted : Bool) (h : ∃ ids, Promised base ids b s) : Outcome.Ends True
    (fun b' s' => ∃ ids, Promised base ids b' s') RefusedInPlace (admitUnless preempted b s) :=
  admitUnless_rule (I := fun b s => ∃ ids, Promised base ids b s) (fun _ _ h _ => admitRound_promised h) preempted h

/-! ## The whole call -/

/-- The call before admission: the batch of the running loop, and whether a sequence was preempted. -/
def runningPart : Prog AienScheduler String (Building × Bool) := do
  modify fun s => { s with stepId := s.stepId + 1 }
  purgeStaleWork
  let preempted ← preemptForWatermark
  let s ← get
  let (b, needsPrefill) ←
    scheduleRunning (s.runningSequences.insertionSort fun a b => a.le b) (.start s.config) []
  needsPrefill.forM requeueRefused
  pure (b, preempted)

def admissionPart (b : Building) (preempted : Bool) : Prog AienScheduler String (Option ScheduledBatch) := do
  let b ← admitUnless preempted b
  let s ← get
  if b.prefillRequests.isEmpty && b.decodeRequests.isEmpty then pure none
  else
    pure (some { prefillRequests := b.prefillRequests, decodeRequests := b.decodeRequests,
                 blockTables := b.blockTables, stepId := s.stepId })

theorem bind_bind {σ ε α β γ : Type} (x : Prog σ ε α) (f : α → Prog σ ε β) (g : β → Prog σ ε γ) :
    x >>= f >>= g = x >>= fun a => f a >>= g := by
  funext s
  simp only [bind]
  cases x s with
  | ok a s' => rfl
  | err e s' => rfl
  | panic => rfl

theorem buildScheduledBatch_parts : buildScheduledBatch = runningPart >>= fun p => admissionPart p.1 p.2 := by
  unfold buildScheduledBatch runningPart
  simp only [bind_bind]
  rfl

variable {ε : Type}

theorem preempt_sane (h : s.kvManager.Sane) (id : SequenceId) (cause : FreeCause) :
    Outcome.Ends True (fun _ s' => s'.kvManager.Sane) (fun _ _ => False)
      ((preempt id cause : Prog AienScheduler ε Unit) s) := by
  unfold preempt
  rw [ends_bind, ends_modify, ends_bind]
  refine ends_freeKv fun kv hkv => ?_
  exact h.freeSequence hkv

theorem preemptForWatermark_sane (s : AienScheduler) (h : s.kvManager.Sane) :
    Outcome.Ends True (fun _ s' => s'.kvManager.Sane) (fun _ _ => False)
      ((preemptForWatermark : Prog AienScheduler ε Bool) s) := by
  unfold preemptForWatermark
  rw [ends_bind, ends_get]
  split_ifs
  · cases s.victim with
    | none => exact h
    | some victim =>
      show Outcome.Ends True _ _ ((if victim ∈ s.runningSequences then _ else _ : Prog AienScheduler ε Bool) s)
      split_ifs
      · rw [ends_bind]
        exact preempt_sane h victim .watermark
      · exact h
  · exact h

theorem requeueRefused_sane (h : s.kvManager.Sane) (id : SequenceId) :
    Outcome.Ends True (fun _ s' => s'.kvManager.Sane) (fun _ _ => False)
      ((requeueRefused id : Prog AienScheduler ε Unit) s) := by
  unfold requeueRefused
  rw [ends_bind, ends_modify, ends_bind]
  refine ends_freeKv fun kv hkv => ?_
  exact h.freeSequence hkv

theorem scheduleRunning_reserves (todo : List SequenceId) (s : AienScheduler) :
    Outcome.Ends True (fun p s' => p.1.reservedBlocks = 0 ∧ s'.kvManager = s.kvManager) (fun _ _ => False)
      ((scheduleRunning todo (.start s.config) [] : Prog AienScheduler ε (Building × List SequenceId)) s) := by
  refine scheduleRunning_rule (I := fun _ b _ s' => b.reservedBlocks = 0 ∧ s'.kvManager = s.kvManager) ?_ ?_ ?_ ?_ ?_
    todo _ [] s ⟨rfl, rfl⟩
  · exact fun _ _ _ _ h => h
  · exact fun _ _ _ _ _ h => h
  · exact fun _ _ _ _ _ _ h _ => h
  · exact fun _ _ _ _ _ h => h
  · exact fun _ _ _ _ _ _ _ h _ => h

theorem runningPart_reserves (hsane : s.kvManager.Sane) : Outcome.Ends True
    (fun p s' => p.1.reservedBlocks = 0 ∧ s'.kvManager.Sane) (fun _ _ => False) (runningPart s) := by
  unfold runningPart purgeStaleWork
  rw [ends_bind, ends_modify, ends_bind, ends_modify, ends_bind]
  refine (preemptForWatermark_sane _ (by exact hsane)).mono (fun preempted s1 h1 => ?_) fun _ _ h => h
  rw [ends_bind, ends_get, ends_bind]
  refine (@scheduleRunning_reserves String _ s1).mono (fun p s2 h2 => ?_) fun _ _ h => h
  obtain ⟨b, needsPrefill⟩ := p
  dsimp only at h2 ⊢
  have hsane2 : s2.kvManager.Sane := h2.2 ▸ h1
  rw [ends_bind]
  refine (ends_forM (fun _ s => s.kvManager.Sane) (fun id _ _ h => requeueRefused_sane h id) needsPrefill s2
    hsane2).mono (fun _ s3 h3 => ?_) fun _ _ h => h
  exact ⟨h2.1, h3⟩

/-- What a batch leaves of the pool: the sequences `ids` that admission put into decode after those of the running loop
find what they need in the blocks that are free. -/
structure WithinPool (before after : Building) (ids : List SequenceId) (s : AienScheduler) : Prop where
  decodes : after.decodeRequests = before.decodeRequests ++ ids.map SlotId.toU64
  promised : (ids.map s.needOf).sum ≤ after.reservedBlocks
  kept : after.reservedBlocks ≤ s.kvManager.availableBlocks

theorem bind_ok {σ ε α β : Type} {x : Prog σ ε α} {f : α → Prog σ ε β} {s s' : σ} {b : β}
    (h : (x >>= f) s = .ok b s') : ∃ a s₁, x s = .ok a s₁ ∧ f a s₁ = .ok b s' := by
  simp only [bind] at h
  cases hx : x s with
  | ok a s₁ =>
    rw [hx] at h
    exact ⟨a, s₁, rfl, h⟩
  | err e s₁ =>
    rw [hx] at h
    cases h
  | panic =>
    rw [hx] at h
    cases h

theorem bind_err {σ ε α β : Type} {x : Prog σ ε α} {f : α → Prog σ ε β} {s s' : σ} {e : ε}
    (h : (x >>= f) s = .err e s') : x s = .err e s' ∨ ∃ a s₁, x s = .ok a s₁ ∧ f a s₁ = .err e s' := by
  simp only [bind] at h
  cases hx : x s with
  | ok a s₁ =>
    rw [hx] at h
    exact .inr ⟨a, s₁, rfl, h⟩
  | err e' s₁ =>
    rw [hx] at h
    cases h
    exact .inl rfl
  | panic =>
    rw [hx] at h
    cases h

theorem runningPart_admission (hsane : s.kvManager.Sane) {before : Building} {preempted : Bool} {s₁ : AienScheduler}
    (hrun : runningPart s = .ok (before, preempted) s₁) : Outcome.Ends True
      (fun after s' => ∃ ids, Promised before.decodeRequests ids after s') RefusedInPlace
      (admitUnless preempted before s₁) := by
  have hends := runningPart_reserves hsane
  rw [hrun] at hends
  exact admitUnless_promised preempted ⟨[], .start hends.2 hends.1⟩

def waitingOver (kv : AienKvManager) : AienScheduler :=
  match submitRequest (plainRequest 0 [1, 2, 3] 8) (.new (plainConfig 0) kv) with
  | .ok _ s => s
  | _ => .new (plainConfig 0) kv

/-- The computed K/V of the three tokens is shared with the sequence that will get the id of the request. -/
def sharedPrompt : Option World :=
  (World.init 8 2 none).run [.allocateSequence 5 [1, 2, 3], .markPrefillPending 5, .completePrefill 5,
    .forkSequence 5 (SlotId.toU64 ⟨0, 1⟩)]

def copiesTail (w : World) : Bool :=
  match buildScheduledBatch (waitingOver w.manager) with
  | .ok (some batch) s' => decide (batch.decodeRequests = [SlotId.toU64 ⟨0, 1⟩] ∧ s'.needOf ⟨0, 1⟩ = 1)
  | _ => false

end SovereignCore.Sched
