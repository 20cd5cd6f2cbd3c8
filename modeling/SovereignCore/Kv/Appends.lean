import SovereignCore.Kv.Runs

/-!
# The blocks that appends take

Admission asks `blocksNeededForAppends` before it promises room for tokens.

* `Unchanged` : what a refusal leaves; `Blank` : blocks that nobody holds carry no tokens;
* `appendWith_takes` : one append takes what one append needs, or is refused and changes nothing;
* `appendTokens` : appends in a row; `appendTokens_takes` : they take what the prediction says;
* `appends_predicted` : in every reachable manager.
-/

namespace SovereignCore.Kv

open AienKvManager Prog

namespace AienKvManager

/-- The tables, the blocks, the free list and the faults are as they were. -/
structure Unchanged (m m' : AienKvManager) : Prop where
  free : m'.freeBlocks = m.freeBlocks
  blocks : m'.blocks = m.blocks
  tables : m'.sequenceTables = m.sequenceTables
  faults : m'.cowFaults = m.cowFaults

theorem Unchanged.refl (m : AienKvManager) : Unchanged m m := ⟨rfl, rfl, rfl, rfl⟩

def Blank (m : AienKvManager) : Prop := ∀ b, (m.blocks b).refCount = 0 → (m.blocks b).numTokens = 0

/-- What a copy of a shared tail leaves. A copy may fail if `can`, and then it gives its block back. -/
def CopyLeaves (can N : Prop) (copy : BlockId → BlockId → Prog AienKvManager String (Option Fence)) : Prop :=
  ∀ (m : AienKvManager) (src dst : BlockId), src < m.totalBlocks → dst < m.totalBlocks → Covers N m →
    (copy src dst m).Ends N
      (fun _ m' => m'.totalBlocks = m.totalBlocks ∧ m'.freeBlocks = m.freeBlocks ∧ m'.blocks = m.blocks ∧
        m'.sequenceTables = m.sequenceTables)
      (fun _ m' => can ∧ m'.freeBlocks = dst :: m.freeBlocks ∧
        m'.blocks = Function.update m.blocks dst { m.blocks dst with refCount := 0 } ∧
        m'.sequenceTables = m.sequenceTables ∧ m'.cowFaults = m.cowFaults)

section Append
variable {N can : Prop} {m : AienKvManager} {id : UInt64} {t : BlockTable} {last : BlockId} {n : Nat}

theorem copyOnHost_leaves : CopyLeaves False N copyOnHost := by
  intro m src dst hsrc hdst hN
  unfold copyOnHost countFault
  rw [ends_bind, ends_modify, ends_bind]
  apply ends_onPool
  · exact hN.imp_right fun hcov p hp =>
      UnifiedKvTensorPool.copyBlock_isSome (Nat.lt_of_lt_of_le hsrc (hcov p hp)) (Nat.lt_of_lt_of_le hdst (hcov p hp))
  · intro _
    exact ⟨rfl, rfl, rfl, rfl⟩
  · intro p p' _ _
    exact ⟨rfl, rfl, rfl, rfl⟩

theorem copyOnDevice_leaves (device : MemoryDevice) : CopyLeaves True N (copyOnDevice device) := by
  intro m src dst hsrc hdst hN
  unfold copyOnDevice countFault
  rw [ends_bind, ends_get]
  cases hp : m.tensorPool with
  | none =>
    dsimp only
    rw [ends_bind, ends_modify]
    exact ⟨rfl, rfl, rfl, rfl⟩
  | some p =>
    dsimp only
    rw [ends_bind]
    cases hd : p.copyBlockDevice device src dst with
    | none =>
      refine hN.resolve_right fun hcov => ?_
      have hcov := hcov p hp
      simp [UnifiedKvTensorPool.copyBlockDevice, UnifiedKvTensorPool.blockRegion,
        KvLayout.blockOffset_eq p.strides (Nat.lt_of_lt_of_le hsrc hcov),
        KvLayout.blockOffset_eq p.strides (Nat.lt_of_lt_of_le hdst hcov)] at hd
    | some r =>
      obtain ⟨answer, p'⟩ := r
      rw [ends_unwrap_some, ends_bind, ends_set]
      cases answer with
      | ok fence =>
        dsimp only
        rw [ends_bind, ends_modify]
        exact ⟨rfl, rfl, rfl, rfl⟩
      | error e =>
        dsimp only
        rw [ends_bind, ends_updateBlock (by exact hdst), ends_bind, ends_modify, ends_fail]
        exact ⟨trivial, rfl, rfl, rfl, rfl⟩

/-! ## The prediction, by the tail of the table -/

theorem blocksNeeded_empty (ht : m.sequenceTables.lookup id = some t) (hnil : t.blockIds.getLast? = none) :
    m.blocksNeededForAppends id (n + 1) = 1 + pagesFor m.blockSize 1 n := by
  unfold blocksNeededForAppends
  simp [ht, hnil, pagesFor]

theorem blocksNeeded_shared (ht : m.sequenceTables.lookup id = some t) (hlast : t.blockIds.getLast? = some last)
    (hr : last < m.totalBlocks) (hs : (m.blocks last).isShared = true) :
    m.blocksNeededForAppends id (n + 1) = 1 + pagesFor m.blockSize
      (if (m.blocks last).numTokens < m.blockSize then (m.blocks last).numTokens + 1 else 1) n := by
  unfold blocksNeededForAppends pagesFor
  simp only [ht, hlast, Option.bind_some, getBlock, if_pos hr, hs]
  simp only [Nat.add_one_ne_zero, if_false, if_true, Nat.add_sub_cancel]
  split_ifs <;> rfl

theorem blocksNeeded_private (ht : m.sequenceTables.lookup id = some t) (hlast : t.blockIds.getLast? = some last)
    (hr : last < m.totalBlocks) (hs : (m.blocks last).isShared = false) :
    m.blocksNeededForAppends id n = pagesFor m.blockSize (m.blocks last).numTokens n := by
  cases n with
  | zero => simp [blocksNeededForAppends]
  | succ n =>
    unfold blocksNeededForAppends pagesFor
    simp only [ht, hlast, Option.bind_some, getBlock, if_pos hr, hs]
    simp

/-! ## One append -/

/-- What an append to a table takes when one append needs `k` blocks. -/
def Takes (can : Prop) (k : Nat) (m : AienKvManager) (o : Outcome String AienKvManager (BlockId × Nat × Option Fence))
    (N : Prop) : Prop :=
  o.Ends N
    (fun r m' => k ≤ m.freeBlocks.length ∧ m'.freeBlocks = m.freeBlocks.drop k ∧ (m'.blocks r.1).isShared = false)
    (fun _ m' => Unchanged m m' ∧ (m.freeBlocks.length < k ∨ can))

theorem allocateBlock_faults : Within (fun m m' => m'.cowFaults = m.cowFaults) allocateBlock := by
  intro m
  unfold allocateBlock
  rw [ends_bind, ends_get]
  cases hf : m.freeBlocks with
  | nil => rfl
  | cons b rest =>
    simp only [ends_bind, ends_set]
    unfold updateBlock onPool
    rw [ends_bind, ends_get]
    split_ifs
    · rw [ends_set, ends_bind, ends_get]
      dsimp only
      cases m.tensorPool with
      | none => rfl
      | some p =>
        dsimp only
        rw [ends_bind]
        cases p.zeroBlock b with
        | none => trivial
        | some p' => rfl
    · trivial

theorem grow_takes (ha : Accounts [] m) (hN : Covers N m) (ht : m.sequenceTables.lookup id = some t)
    {f : BlockId → BlockTable → BlockTable} {g : KvBlock → KvBlock}
    (hg : ∀ blk, blk.isShared = false → (g blk).isShared = false) :
    Takes can 1 m ((do
      let newBlk ← allocateBlock
      updateTable id (f newBlk)
      updateBlock newBlk g
      pure (newBlk, 0, none) : Prog AienKvManager String (BlockId × Nat × Option Fence)) m) N := by
  unfold Takes
  rw [ends_bind]
  refine (allocateBlock_ends ha hN).mono ?_ ?_
  swap
  · rintro _ m' ⟨rfl, hf⟩
    exact ⟨Unchanged.refl m', Or.inl (by rw [hf]; exact Nat.one_pos)⟩
  rintro b m1 ⟨ha1, ht1, hf1, -, hb1, -⟩
  have hbr : b < m1.totalBlocks := ha1.range b (ha1.live_of_held List.mem_cons_self)
  have hsh : (m1.blocks b).isShared = false := by rw [hb1, Function.update_self]
  rw [ends_bind, ends_updateTable (by rw [ht1, ht]), ends_bind, ends_updateBlock (by exact hbr)]
  refine ⟨by rw [hf1]; exact Nat.succ_le_succ (Nat.zero_le _), by rw [hf1]; rfl, ?_⟩
  show (Function.update m1.blocks b (g (m1.blocks b)) b).isShared = false
  rw [Function.update_self]
  exact hg _ hsh

theorem fill_takes (ha : Accounts [] m) (ht : m.sequenceTables.lookup id = some t)
    (hlast : t.blockIds.getLast? = some last) (hsh : (m.blocks last).isShared = false) :
    Takes can 0 m ((do
      updateBlock last fun b => { b with numTokens := b.numTokens + 1 }
      updateTable id fun t => { t with totalTokens := t.totalTokens + 1 }
      pure (last, (m.blocks last).numTokens, none) :
        Prog AienKvManager String (BlockId × Nat × Option Fence)) m) N := by
  have hlr : last < m.totalBlocks := ha.range last (ha.live_of_table ht (List.mem_of_getLast? hlast))
  unfold Takes
  rw [ends_bind, ends_updateBlock hlr, ends_bind, ends_updateTable (by exact ht)]
  refine ⟨Nat.zero_le _, rfl, ?_⟩
  show (Function.update m.blocks last _ last).isShared = false
  rw [Function.update_self]
  exact hsh

theorem free_block_eq (ha : Accounts [] m) (hblank : Blank m) {b : BlockId} (hb : b ∈ m.freeBlocks) :
    { m.blocks b with refCount := 0, numTokens := 0, isShared := false } = m.blocks b := by
  have hzero := ((ha.free b).1 hb).2
  have htok := hblank b hzero
  have hsh : (m.blocks b).isShared = false := by
    cases hs : (m.blocks b).isShared with
    | false => rfl
    | true => exact absurd ((ha.shared b).1 hs) (by omega)
  revert hzero htok hsh
  generalize m.blocks b = blk
  obtain ⟨i, r, k, sh⟩ := blk
  rintro rfl rfl rfl
  rfl

/-- A copy of a shared tail with room. A block that is given back is as it was. -/
theorem copy_takes {copy : BlockId → BlockId → Prog AienKvManager String (Option Fence)} (hcopy : CopyLeaves can N copy)
    (ha : Accounts [] m) (hN : Covers N m) (hblank : can → Blank m) (ht : m.sequenceTables.lookup id = some t)
    (hlast : t.blockIds.getLast? = some last) (hsh : (m.blocks last).isShared = true) :
    Takes can 1 m ((do
      let newBlk ← allocateBlock
      let fence ← copy last newBlk
      let slot ← replaceTail id (t.blockIds.length - 1) last newBlk
      pure (newBlk, slot, fence) : Prog AienKvManager String (BlockId × Nat × Option Fence)) m) N := by
  have hlr : last < m.totalBlocks := ha.range last (ha.live_of_table ht (List.mem_of_getLast? hlast))
  have hrefs := (ha.shared last).1 hsh
  unfold Takes
  rw [ends_bind]
  refine ((allocateBlock_ends ha hN).also (allocateBlock_faults m)).mono ?_ ?_
  swap
  · rintro _ m' ⟨⟨rfl, hf⟩, -⟩
    exact ⟨Unchanged.refl m', Or.inl (by rw [hf]; exact Nat.one_pos)⟩
  rintro b m1 ⟨⟨ha1, ht1, hf1, hk1, hb1, -⟩, hc1⟩
  have hbr : b < m1.totalBlocks := ha1.range b (ha1.live_of_held List.mem_cons_self)
  have hfree : b ∈ m.freeBlocks := by rw [hf1]; exact List.mem_cons_self
  have hbl : last ≠ b := by
    rintro rfl
    have := ((ha.free last).1 hfree).2
    omega
  rw [ends_bind]
  refine (hcopy m1 last b (by rw [hk1.total]; exact hlr) hbr (hN.keeps hk1)).mono ?_ ?_
  swap
  · rintro _ m2 ⟨hcan, hf2, hb2, ht2, hc2⟩
    refine ⟨⟨by rw [hf2, hf1], ?_, ht2.trans ht1, hc2.trans hc1⟩, Or.inr hcan⟩
    rw [hb2, hb1]
    funext c
    by_cases hc : c = b
    · subst hc
      rw [Function.update_self, Function.update_self]
      exact free_block_eq ha (hblank hcan) hfree
    · rw [Function.update_of_ne hc, Function.update_of_ne hc]
  rintro fence m2 ⟨htot, hf2, hb2, ht2⟩
  have hlr2 : last < m2.totalBlocks := by rw [htot, hk1.total]; exact hlr
  have hbr2 : b < m2.totalBlocks := by rw [htot]; exact hbr
  have hlast2 : m2.blocks last = m.blocks last := by rw [hb2, hb1, Function.update_of_ne hbl]
  unfold replaceTail
  rw [ends_bind, ends_bind, ends_block hlr2, if_neg (by rw [hlast2]; omega), ends_bind, ends_updateBlock hlr2, ends_bind,
    ends_updateBlock (by exact hbr2), ends_bind, ends_updateTable (by rw [ht2, ht1, ht]), ends_pure, ends_pure]
  refine ⟨by rw [hf1]; exact Nat.succ_le_succ (Nat.zero_le _), ?_, ?_⟩
  · show m2.freeBlocks = _
    rw [hf2, hf1]
    rfl
  · dsimp only
    rw [Function.update_self]

/-- **One append** to a table takes the blocks that one append needs, and leaves a tail that nobody else holds. A refused
one changes nothing; it is refused for want of blocks, or because a copy failed. -/
theorem appendWith_takes {copy : BlockId → BlockId → Prog AienKvManager String (Option Fence)}
    (hcopy : CopyLeaves can N copy) (hi : Inv m) (hN : Covers N m) (hblank : can → Blank m)
    (ht : m.sequenceTables.lookup id = some t) :
    Takes can (m.blocksNeededForAppends id 1) m (appendWith copy id m) N := by
  have ha := hi.accounts
  have hbs := hi.size
  unfold appendWith Takes
  rw [ends_bind, ends_get, ends_bind, ht, ends_orFail_some]
  cases hlast : t.blockIds.getLast? with
  | none =>
    rw [blocksNeeded_empty ht hlast, pagesFor_zero]
    exact grow_takes ha hN ht fun _ hs => hs
  | some last =>
    have hlr : last < m.totalBlocks := ha.range last (ha.live_of_table ht (List.mem_of_getLast? hlast))
    dsimp only
    rw [ends_bind, ends_block hlr]
    split_ifs with hsh hroom hroom
    · rw [blocksNeeded_shared ht hlast hlr hsh, pagesFor_zero]
      exact copy_takes hcopy ha hN hblank ht hlast hsh
    · rw [blocksNeeded_shared ht hlast hlr hsh, pagesFor_zero]
      exact grow_takes ha hN ht fun _ _ => rfl
    · rw [blocksNeeded_private ht hlast hlr (by simpa using hsh), pagesFor_succ_room hroom, pagesFor_zero]
      exact fill_takes ha ht hlast (by simpa using hsh)
    · rw [blocksNeeded_private ht hlast hlr (by simpa using hsh), pagesFor_succ_full hbs (Nat.le_of_not_lt hroom),
        pagesFor_zero]
      exact grow_takes ha hN ht fun _ hs => hs

theorem appendWith_leaves {copy : BlockId → BlockId → Prog AienKvManager String (Option Fence)}
    (hcopy : CopyLeaves can N copy) (hi : Inv m) (hN : Covers N m) (hblank : can → Blank m) (id : UInt64) :
    (appendWith copy id m).Ends N (fun _ _ => True) (fun _ m' => Unchanged m m') := by
  cases ht : m.sequenceTables.lookup id with
  | some t => exact (appendWith_takes hcopy hi hN hblank ht).mono (fun _ _ _ => trivial) fun _ _ h => h.1
  | none =>
    unfold appendWith
    rw [ends_bind, ends_get, ends_bind, ht]
    exact Unchanged.refl m

/-! ## Appends in a row -/

/-- `n` calls of `append_token_with_slot` in a row, up to the first that is refused. -/
def appendTokens (seqId : UInt64) : Nat → Prog AienKvManager String Unit
  | 0 => pure ()
  | n + 1 => do
    let _ ← appendTokenWithSlot seqId
    appendTokens seqId n

theorem appendTokenWithSlot_takes (hi : Inv m) (hN : Covers N m) (ht : m.sequenceTables.lookup id = some t) :
    (appendTokenWithSlot id m).Ends N
      (fun r m' => m.blocksNeededForAppends id 1 ≤ m.freeBlocks.length ∧
        m'.freeBlocks = m.freeBlocks.drop (m.blocksNeededForAppends id 1) ∧ (m'.blocks r.1).isShared = false)
      (fun _ m' => Unchanged m m' ∧ m.freeBlocks.length < m.blocksNeededForAppends id 1) := by
  unfold appendTokenWithSlot
  rw [ends_bind]
  refine (appendWith_takes copyOnHost_leaves hi hN False.elim ht).mono (fun _ _ hq => hq) fun _ _ hE => ?_
  exact ⟨hE.1, hE.2.resolve_right not_false⟩

def tailAfter (m : AienKvManager) (t : BlockTable) : Nat :=
  match t.blockIds.getLast? with
  | none => 1
  | some last => if (m.blocks last).numTokens < m.blockSize then (m.blocks last).numTokens + 1 else 1

/-- The need of one more append is that of the first, and that of the others after its token. -/
theorem blocksNeeded_succ (hi : Inv m) (ht : m.sequenceTables.lookup id = some t) :
    m.blocksNeededForAppends id (n + 1) = m.blocksNeededForAppends id 1 + pagesFor m.blockSize (m.tailAfter t) n := by
  have hbs := hi.size
  unfold tailAfter
  cases hlast : t.blockIds.getLast? with
  | none => rw [blocksNeeded_empty ht hlast, blocksNeeded_empty ht hlast, pagesFor_zero]
  | some last =>
    have hlr : last < m.totalBlocks :=
      hi.accounts.range last (hi.accounts.live_of_table ht (List.mem_of_getLast? hlast))
    cases hsh : (m.blocks last).isShared with
    | true => rw [blocksNeeded_shared ht hlast hlr hsh, blocksNeeded_shared ht hlast hlr hsh, pagesFor_zero]
    | false =>
      rw [blocksNeeded_private ht hlast hlr hsh, blocksNeeded_private ht hlast hlr hsh]
      dsimp only
      split_ifs with hroom
      · rw [pagesFor_succ_room hroom, pagesFor_succ_room hroom, pagesFor_zero, Nat.zero_add]
      · have hfull := Nat.le_of_not_lt hroom
        rw [pagesFor_succ_full hbs hfull, pagesFor_succ_full hbs hfull, pagesFor_zero]

theorem Appended.tailAfter {h : Prop} {b : BlockId} {slot k k' : Nat} {ids pre : List BlockId} {m' : AienKvManager}
    (happ : Appended h id b slot ids pre k k' m m') (ht : m.sequenceTables.lookup id = some t) :
    m.tailAfter t = slot + 1 := by
  obtain ⟨t', ht', rfl, -⟩ := lookup_of_view happ.before
  obtain rfl := Option.some.inj (ht.symm.trans ht')
  unfold AienKvManager.tailAfter
  rcases happ.place with ⟨rfl, -, -, ⟨hnil, -⟩ | ⟨last, hlast, hfull, -⟩⟩ | ⟨last, hids, rfl, hroom, -, -⟩
  · rw [hnil]
    rfl
  · rw [hlast]
    exact if_neg (Nat.not_lt.2 hfull)
  · rw [hids, List.getLast?_concat]
    exact if_pos hroom

/-- Appends in a row take what they need, or what they need is not there. -/
theorem appendTokens_takes : ∀ (n : Nat) {m : AienKvManager} {t : BlockTable}, Inv m → Covers N m →
    m.sequenceTables.lookup id = some t →
    (appendTokens id n m).Ends N
      (fun _ m' => m.blocksNeededForAppends id n ≤ m.freeBlocks.length ∧
        m'.freeBlocks = m.freeBlocks.drop (m.blocksNeededForAppends id n))
      (fun _ _ => m.freeBlocks.length < m.blocksNeededForAppends id n)
  | 0, m, _, _, _, _ => ⟨Nat.zero_le _, rfl⟩
  | n + 1, m, t, hi, hN, ht => by
    unfold appendTokens
    rw [ends_bind]
    refine ((appendTokenWithSlot_ends hi.accounts hN id).and (appendTokenWithSlot_takes hi hN ht)).mono ?_ ?_
    · rintro ⟨b, slot⟩ m' ⟨⟨ha', ids, pre, k, k', happ⟩, hle, hfree, hsh⟩
      have hi' := happ.inv hi ha'
      have hview := congrFun happ.after id
      rw [Function.update_self] at hview
      obtain ⟨t', ht', hids', -⟩ := lookup_of_view hview
      have hlast' : t'.blockIds.getLast? = some b := by rw [hids']; simp
      have hb' : b < m'.totalBlocks := ha'.range b (ha'.live_of_table ht' (List.mem_of_getLast? hlast'))
      -- the rest of the appends go on from a private tail with `slot + 1` tokens
      have hneed : m.blocksNeededForAppends id (n + 1) =
          m.blocksNeededForAppends id 1 + m'.blocksNeededForAppends id n := by
        rw [blocksNeeded_succ hi ht, blocksNeeded_private ht' hlast' hb' hsh, happ.tailAfter ht, happ.tokens,
          happ.keeps.size]
      have hlen : m'.freeBlocks.length = m.freeBlocks.length - m.blocksNeededForAppends id 1 := by
        rw [hfree, List.length_drop]
      refine (appendTokens_takes n hi' (hN.keeps happ.keeps) ht').mono ?_ ?_
      · rintro _ m'' ⟨hle', hfree'⟩
        refine ⟨by omega, ?_⟩
        rw [hfree', hfree, List.drop_drop, hneed]
      · intro _ _ hlt
        omega
    · rintro _ m' ⟨-, -, hlt⟩
      -- the need only grows with more appends
      have hneed := blocksNeeded_succ (n := n) hi ht
      omega

end Append

end AienKvManager

/-- **The prediction is exact.** In every reachable manager and for every sequence with a table, `n` appends in a row all
succeed exactly when the free list has as many blocks as `blocksNeededForAppends` says, and then they take that many
from its top. An append ends in a panic only on a pool with fewer blocks than the manager. -/
theorem appends_predicted (total bs : Nat) (hbs : 1 ≤ bs) (pool : Option UnifiedKvTensorPool) (ops : List KvOp)
    (w : World) (hrun : (World.init total bs pool).run ops = some w) (s : UInt64) (t : BlockTable)
    (ht : w.manager.sequenceTables.lookup s = some t) (n : Nat) :
    (appendTokens s n w.manager = .panic → ∃ p, pool = some p ∧ p.config.numBlocks < total) ∧
    (appendTokens s n w.manager ≠ .panic →
      ((∃ m', appendTokens s n w.manager = .ok () m') ↔
        w.manager.blocksNeededForAppends s n ≤ w.manager.availableBlocks)) ∧
    ∀ m', appendTokens s n w.manager = .ok () m' →
      m'.freeBlocks = w.manager.freeBlocks.drop (w.manager.blocksNeededForAppends s n) ∧
        m'.availableBlocks + w.manager.blocksNeededForAppends s n = w.manager.availableBlocks := by
  have hw := (World.run_init total bs hbs pool ops).1 w hrun
  have h := appendTokens_takes n hw.inv hw.covers ht
  cases ho : appendTokens s n w.manager with
  | panic =>
    rw [ho] at h
    exact ⟨fun _ => h, fun hne => absurd rfl hne, fun _ hok => nomatch hok⟩
  | err e m' =>
    rw [ho] at h
    refine ⟨fun hp => (nomatch hp), fun _ => ⟨fun ⟨_, hok⟩ => (nomatch hok), fun hle => ?_⟩, fun _ hok => nomatch hok⟩
    exact absurd hle (Nat.not_le.2 h)
  | ok u m' =>
    rw [ho] at h
    refine ⟨fun hp => (nomatch hp), fun _ => ⟨fun _ => h.1, fun _ => ⟨m', rfl⟩⟩, fun m'' hok => ?_⟩
    obtain ⟨-, rfl⟩ := Outcome.ok.inj hok
    refine ⟨h.2, ?_⟩
    unfold availableBlocks
    rw [h.2, List.length_drop]
    exact Nat.sub_add_cancel h.1

/-- A fork of three tokens in blocks of two: the first append copies the shared tail, and five appends take three blocks. -/
theorem appends_predicted_fork : ∃ w t, (World.init 8 2 none).run [.allocateSequence 1 [7, 8, 9], .forkSequence 1 2] = some w ∧
    w.manager.sequenceTables.lookup 2 = some t ∧ w.manager.blocksNeededForAppends 2 5 = 3 ∧
    ∃ m', appendTokens 2 5 w.manager = .ok () m' := by
  have hrun : ((World.init 8 2 none).run [.allocateSequence 1 [7, 8, 9], .forkSequence 1 2]).bind
      (fun w => (w.manager.sequenceTables.lookup 2).map fun t =>
        (t.totalTokens, w.manager.blocksNeededForAppends 2 5, w.manager.availableBlocks)) = some (3, 3, 6) := by
    decide +kernel
  obtain ⟨w, hw, hrest⟩ := Option.bind_eq_some_iff.1 hrun
  obtain ⟨t, ht, hvals⟩ := Option.map_eq_some_iff.1 hrest
  obtain ⟨hneed, hfree⟩ := Prod.mk.inj (Prod.mk.inj hvals).2
  obtain ⟨hp, hiff, -⟩ := appends_predicted 8 2 (by decide) none _ w hw 2 t ht 5
  refine ⟨w, t, hw, ht, hneed, (hiff fun hpanic => ?_).2 (by rw [hneed, hfree]; decide)⟩
  obtain ⟨p, hnone, -⟩ := hp hpanic
  cases hnone

end SovereignCore.Kv
