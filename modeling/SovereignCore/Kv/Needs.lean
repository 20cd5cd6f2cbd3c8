import SovereignCore.Kv.Refusals

/-!
# What other tables do to a need

Admission reads the blocks a sequence needs, and before the sequence takes them other tables are dropped and made.

* `Accounts.free_le` : the free lists of two managers, by the blocks whose counts differ;
* `Eases id m m'` : the table of `id` stays, its blocks keep their tokens and none becomes shared;
* `need_le` : then `id` needs no more than before;
* `freeSequence_returns`, `allocateSequence_takes` : a dropped table gives back the blocks that only it lists, a new one
  takes the blocks it needs.
-/

namespace SovereignCore.Kv.AienKvManager

open Prog

variable {N : Prop} {m m' m'' : AienKvManager} {id id' : UInt64} {t : BlockTable} {n : Nat}

/-! ## Free blocks -/

/-- Blocks that are free, or were taken by `taken`, make up the old free list. -/
theorem Accounts.free_le (ha : Accounts [] m) (ha' : Accounts [] m') (htotal : m'.totalBlocks = m.totalBlocks)
    {taken : List BlockId} (h : ∀ b, (m.blocks b).refCount = 0 → (m'.blocks b).refCount = 0 ∨ b ∈ taken) :
    m.freeBlocks.length ≤ m'.freeBlocks.length + taken.length := by
  have hsub : m.freeBlocks ⊆ m'.freeBlocks ++ taken := by
    intro b hb
    obtain ⟨hlt, hzero⟩ := (ha.free b).1 hb
    rcases h b hzero with hzero | hmem
    · exact List.mem_append_left _ ((ha'.free b).2 ⟨htotal ▸ hlt, hzero⟩)
    · exact List.mem_append_right _ hmem
  have hle := (ha.freeNodup.subperm hsub).length_le
  rwa [List.length_append] at hle

/-- Blocks that were free, and `given` ones, are in the new free list. -/
theorem Accounts.free_ge (ha : Accounts [] m) (ha' : Accounts [] m') (htotal : m'.totalBlocks = m.totalBlocks)
    {given : List BlockId} (hnodup : given.Nodup) (hlive : ∀ b ∈ given, m.Live b)
    (hgiven : ∀ b ∈ given, (m'.blocks b).refCount = 0)
    (h : ∀ b, (m.blocks b).refCount = 0 → (m'.blocks b).refCount = 0) :
    m.freeBlocks.length + given.length ≤ m'.freeBlocks.length := by
  have hdisj : (m.freeBlocks ++ given).Nodup := by
    refine List.nodup_append.2 ⟨ha.freeNodup, hnodup, fun b hb b' hb' heq => ?_⟩
    exact ha.not_live_of_free hb (heq ▸ hlive b' hb')
  have hsub : m.freeBlocks ++ given ⊆ m'.freeBlocks := by
    intro b hb
    rcases List.mem_append.1 hb with hb | hb
    · obtain ⟨hlt, hzero⟩ := (ha.free b).1 hb
      exact (ha'.free b).2 ⟨htotal ▸ hlt, h b hzero⟩
    · exact (ha'.free b).2 ⟨htotal ▸ ha.range b (hlive b hb), hgiven b hb⟩
  have hle := (hdisj.subperm hsub).length_le
  rwa [List.length_append] at hle

/-! ## Needs -/

/-- What the need of `id` is read from: its table stays, the blocks keep their tokens and none becomes shared. -/
structure Eases (id : UInt64) (m m' : AienKvManager) : Prop where
  total : m'.totalBlocks = m.totalBlocks
  size : m'.blockSize = m.blockSize
  table : m'.sequenceTables.lookup id = m.sequenceTables.lookup id
  tokens : ∀ t, m.sequenceTables.lookup id = some t → ∀ b ∈ t.blockIds, (m'.blocks b).numTokens = (m.blocks b).numTokens
  shared : ∀ t, m.sequenceTables.lookup id = some t → ∀ b ∈ t.blockIds,
    (m'.blocks b).isShared = true → (m.blocks b).isShared = true

theorem Eases.refl (m : AienKvManager) : Eases id m m := ⟨rfl, rfl, rfl, fun _ _ _ _ => rfl, fun _ _ _ _ h => h⟩

theorem Eases.trans (h : Eases id m m') (h' : Eases id m' m'') : Eases id m m'' where
  total := h'.total.trans h.total
  size := h'.size.trans h.size
  table := h'.table.trans h.table
  tokens t ht b hb := (h'.tokens t (h.table.trans ht) b hb).trans (h.tokens t ht b hb)
  shared t ht b hb hs := h.shared t ht b hb (h'.shared t (h.table.trans ht) b hb hs)

theorem private_le_shared {size used : Nat} (hs : 0 < size) (n : Nat) :
    pagesFor size used (n + 1) ≤ 1 + pagesFor size (if used < size then used + 1 else 1) n := by
  split_ifs with hroom
  · rw [pagesFor_succ_room hroom]
    exact Nat.le_add_left _ _
  · rw [pagesFor_succ_full hs (Nat.le_of_not_lt hroom)]

theorem blocksNeeded_le (hi : Inv m) (h : Eases id m m') (ht : m.sequenceTables.lookup id = some t) (n : Nat) :
    m'.blocksNeededForAppends id (n + 1) ≤ m.blocksNeededForAppends id (n + 1) := by
  have ht' : m'.sequenceTables.lookup id = some t := h.table.trans ht
  cases hlast : t.blockIds.getLast? with
  | none => rw [blocksNeeded_empty ht hlast, blocksNeeded_empty ht' hlast, h.size]
  | some last =>
    have hmem : last ∈ t.blockIds := List.mem_of_getLast? hlast
    have hr : last < m.totalBlocks := hi.accounts.range last (hi.accounts.live_of_table ht hmem)
    have hr' : last < m'.totalBlocks := h.total ▸ hr
    have htok := h.tokens t ht last hmem
    cases hs' : (m'.blocks last).isShared with
    | true =>
      have hs := h.shared t ht last hmem hs'
      rw [blocksNeeded_shared ht hlast hr hs, blocksNeeded_shared ht' hlast hr' hs', htok, h.size]
    | false =>
      rw [blocksNeeded_private ht' hlast hr' hs', htok, h.size]
      cases hs : (m.blocks last).isShared with
      | true =>
        rw [blocksNeeded_shared ht hlast hr hs]
        exact private_le_shared hi.size n
      | false => rw [blocksNeeded_private ht hlast hr hs]

/-- **A need only falls** while the table stays and its blocks keep their tokens. -/
theorem need_le (hi : Inv m) (h : Eases id m m') (ht : m.sequenceTables.lookup id = some t)
    (hready : t.prefillState.isReady = true) (n : Nat) :
    m'.incrementalBlocksNeeded id n ≤ m.incrementalBlocksNeeded id n := by
  unfold incrementalBlocksNeeded
  rw [h.table, ht]
  dsimp only
  rw [hready]
  exact blocksNeeded_le hi h ht _

/-! ## Dropping a table -/

/-- The blocks that only the table of `t` lists. -/
def returned (m : AienKvManager) (t : BlockTable) : List BlockId :=
  t.blockIds.filter fun b => (m.getBlock b).any fun blk => blk.refCount == 1

theorem mem_returned {b : BlockId} : b ∈ m.returned t ↔ b ∈ t.blockIds ∧ b < m.totalBlocks ∧ (m.blocks b).refCount = 1 := by
  unfold returned getBlock
  rw [List.mem_filter]
  by_cases hb : b < m.totalBlocks
  · simp [hb]
  · simp [hb]

theorem refCount_erase {m' : AienKvManager} (ha : Accounts [] m) (ha' : Accounts [] m')
    (ht : m.sequenceTables.lookup id = some t) (htab : m'.sequenceTables = m.sequenceTables.erase id) (b : BlockId) :
    (m.blocks b).refCount = t.blockIds.count b + (m'.blocks b).refCount := by
  rw [ha.refs, ha'.refs]
  unfold tableRefs
  rw [listed_erase ht, htab]
  rfl

/-- **A dropped table** gives back the blocks that only it lists, and eases every other need. -/
theorem freeSequence_returns (hi : Inv m) (ht : m.sequenceTables.lookup id = some t)
    (hfree : (freeSequence id m).state? = some m') :
    Inv m' ∧ m'.sequenceTables.lookup id = none ∧ m'.blockSize = m.blockSize ∧
      m.freeBlocks.length + (m.returned t).length ≤ m'.freeBlocks.length ∧ ∀ id', id' ≠ id → Eases id' m m' := by
  have hgood := (freeSequence_good (N := True) hi id).state.1 m' hfree
  have hends : (freeSequence id m).Ends True
      (fun _ m' => Accounts [] m' ∧ m'.sequenceTables = m.sequenceTables.erase id ∧ Keeps True m'.Live m m')
      (fun _ m' => Accounts [] m' ∧ m'.sequenceTables = m.sequenceTables.erase id ∧ Keeps True m'.Live m m') := by
    refine (freeSequence_ends hi.accounts id).mono (fun _ _ h => ⟨h.1, h.2.1, h.2.2.2⟩) fun _ _ h => ?_
    rw [view_of_lookup ht] at h
    cases h.2
  obtain ⟨ha', htab, hk⟩ := hends.state.1 m' hfree
  have hrefs := refCount_erase hi.accounts ha' ht htab
  have hnodup := hi.accounts.nodup id t ht
  refine ⟨hgood.1, by rw [htab, AList.lookup_erase], hk.size, ?_, fun id' hne => ?_⟩
  · refine hi.accounts.free_ge ha' hk.total (hnodup.filter _) (fun b hb => ?_) (fun b hb => ?_) fun b hzero => ?_
    · exact hi.accounts.live_of_table ht (mem_returned.1 hb).1
    · obtain ⟨hmem, -, hone⟩ := mem_returned.1 hb
      have hcount := List.count_pos_iff.2 hmem
      have hb := hrefs b
      omega
    · have hb := hrefs b
      omega
  · have hsame : m'.sequenceTables.lookup id' = m.sequenceTables.lookup id' := by rw [htab, AList.lookup_erase_ne hne]
    refine ⟨hk.total, hk.size, hsame, fun t' ht' b hb => ?_, fun t' ht' b hb hs => ?_⟩
    · exact hk.tokens b (ha'.live_of_table (hsame.trans ht') hb)
    · rw [ha'.shared] at hs
      rw [hi.accounts.shared]
      have hb := hrefs b
      omega

/-! ## Making a table -/

theorem tableRefs_outside (helse : Elsewhere id m m') (hnone : m.sequenceTables.lookup id = none) {ids : List BlockId}
    {n : Nat} (hv : m'.view id = some (ids, n)) {b : BlockId} (hb : b ∉ ids) : m'.tableRefs b = m.tableRefs b := by
  obtain ⟨t, ht, rfl, -⟩ := lookup_of_view hv
  have hrest : ∀ k, (m'.sequenceTables.erase id).lookup k = m.sequenceTables.lookup k := by
    intro k
    by_cases hk : k = id
    · rw [hk, AList.lookup_erase, hnone]
    · rw [AList.lookup_erase_ne hk, helse k hk]
  unfold tableRefs
  rw [listed_erase ht, List.count_eq_zero_of_not_mem hb, Nat.zero_add, listed_congr hrest]

/-- **A new table** takes the blocks it needs and no other, and leaves every other need. -/
theorem allocateSequence_takes (hi : Inv m) (hnone : m.sequenceTables.lookup id = none) {prompt : List UInt32}
    (hroom : prompt.length ⌈/⌉ m.blockSize ≤ m.freeBlocks.length) :
    (allocateSequence id prompt m).Ends True
      (fun _ m' => Inv m' ∧ (m'.sequenceTables.lookup id).isSome ∧ m'.blockSize = m.blockSize ∧
        m.freeBlocks.length ≤ m'.freeBlocks.length + prompt.length ⌈/⌉ m.blockSize ∧ ∀ id', id' ≠ id → Eases id' m m')
      (fun _ _ => False) := by
  have hview : m.view id = none := by
    unfold view
    rw [hnone]
    rfl
  have hboth := ((allocateSequence_ends (N := True) hi.accounts (.inl trivial) hi.size id prompt).and
    (allocateSequence_good (N := True) hi (.inl trivial) id prompt)).and
    (allocateSequence_elsewhere id prompt m)
  refine hboth.mono ?_ ?_
  · rintro ids m' ⟨⟨h, hgood⟩, helse⟩
    rcases h with ⟨-, k, hv⟩ | ⟨-, ha', hk, hlen, hfresh, -, hv⟩
    · rw [hview] at hv
      cases hv
    have hlookup : (m'.sequenceTables.lookup id).isSome := by
      rw [← Option.isSome_map, show (m'.sequenceTables.lookup id).map _ = m'.view id from rfl, hv, Function.update_self]
      rfl
    have hrefs : ∀ b, b ∉ ids → (m'.blocks b).refCount = (m.blocks b).refCount := by
      intro b hb
      rw [ha'.refs, hi.accounts.refs]
      exact congrArg (· + 0) (tableRefs_outside helse hnone (hv ▸ Function.update_self _ _ _) hb)
    refine ⟨hgood.1, hlookup, hk.size, ?_, fun id' hne => ?_⟩
    · have htaken : ∀ b, (m.blocks b).refCount = 0 → (m'.blocks b).refCount = 0 ∨ b ∈ ids := by
        intro b hzero
        by_cases hmem : b ∈ ids
        · exact .inr hmem
        · exact .inl ((hrefs b hmem).trans hzero)
      have hle := hi.accounts.free_le ha' hk.total htaken
      rwa [hlen] at hle
    · have hout : ∀ t', m.sequenceTables.lookup id' = some t' → ∀ b ∈ t'.blockIds, b ∉ ids :=
        fun t' ht' b hb hmem => (hfresh b hmem).1 (hi.accounts.live_of_table ht' hb)
      refine ⟨hk.total, hk.size, helse id' hne, fun t' ht' b hb => hk.tokens b (hout t' ht' b hb),
        fun t' ht' b hb hs => ?_⟩
      rw [ha'.shared, hrefs b (hout t' ht' b hb)] at hs
      rwa [hi.accounts.shared]
  · rintro _ m' ⟨⟨⟨-, hfew, -⟩, -⟩, -⟩
    omega

end SovereignCore.Kv.AienKvManager
