import SovereignCore.Kv.Manager

/-!
# Block accounting

A block's count is the number of tables that list it, and in the middle of a call also the number of references the
call holds but has not put into a table yet. `Accounts held m` states the accounts with such a credit `held`: taking a
reference or a new block moves into the credit, inserting a table spends it, and removing a table gives it back.

* `Accounts held m` : the invariant, `Accounts [] m` between calls;
* `Keeps h B m m'` : blocks in `B` keep their token count and, if `h`, their contents;
* `view m id` : the blocks and the length of a table;
* `allocateBlock_ends`, `assignBlocks_ends`, `forM_addRef_ends`, `forM_releaseRef_ends` : the moves of the credit;
* `…_ends` for each table operation : the view after it, the blocks it keeps and the accounts, with no panic.
-/

namespace SovereignCore.Kv.AienKvManager

open Prog

/-- The number of times the tables list `b`. -/
def tableRefs (m : AienKvManager) (b : BlockId) : Nat := listed BlockTable.blockIds m.sequenceTables b

/-- The accounts of the blocks, with the references `held` by a call in progress. -/
structure Accounts (held : List BlockId) (m : AienKvManager) : Prop where
  refs : ∀ b, (m.blocks b).refCount = m.tableRefs b + held.count b
  range : ∀ b, 0 < (m.blocks b).refCount → b < m.totalBlocks
  shared : ∀ b, (m.blocks b).isShared = true ↔ 1 < (m.blocks b).refCount
  nodup : ∀ id t, m.sequenceTables.lookup id = some t → t.blockIds.Nodup
  freeNodup : m.freeBlocks.Nodup
  free : ∀ b, b ∈ m.freeBlocks ↔ b < m.totalBlocks ∧ (m.blocks b).refCount = 0

def Live (m : AienKvManager) (b : BlockId) : Prop := 0 < (m.blocks b).refCount

/-- The K and V row at token `t` of layer `l` of a block, if there is a pool with such a row. -/
def cell (m : AienKvManager) (b l t : Nat) : Option (List F32 × List F32) :=
  m.tensorPool.bind fun p => if l < p.config.numLayers ∧ t < p.config.blockSize then some (p.row b l t) else none

/-- Sizes and the pool's configuration stay, and so do the token counts of the blocks in `B` and, if `h`, their rows. -/
structure Keeps (h : Prop) (B : BlockId → Prop) (m m' : AienKvManager) : Prop where
  total : m'.totalBlocks = m.totalBlocks
  size : m'.blockSize = m.blockSize
  config : m'.tensorPool.map (·.config) = m.tensorPool.map (·.config)
  tokens : ∀ b, B b → (m'.blocks b).numTokens = (m.blocks b).numTokens
  cells : h → ∀ b, B b → m'.cell b = m.cell b

def view (m : AienKvManager) (id : UInt64) : Option (List BlockId × Nat) :=
  (m.sequenceTables.lookup id).map fun t => (t.blockIds, t.totalTokens)

/-- A pool, where there is one, has a place for every block; `N` is what a call may blame its panic on. -/
def Covers (N : Prop) (m : AienKvManager) : Prop :=
  N ∨ ∀ p, m.tensorPool = some p → m.totalBlocks ≤ p.config.numBlocks

section Keeps
variable {h : Prop} {B C : BlockId → Prop} {m m' m'' : AienKvManager}

theorem Keeps.refl : Keeps h B m m := ⟨rfl, rfl, rfl, fun _ _ => rfl, fun _ _ _ => rfl⟩

theorem Keeps.trans (h1 : Keeps h B m m') (h2 : Keeps h B m' m'') : Keeps h B m m'' where
  total := h2.total.trans h1.total
  size := h2.size.trans h1.size
  config := h2.config.trans h1.config
  tokens b hb := (h2.tokens b hb).trans (h1.tokens b hb)
  cells hh b hb := (h2.cells hh b hb).trans (h1.cells hh b hb)

theorem Keeps.mono (h1 : Keeps h B m m') (hB : ∀ b, C b → B b) : Keeps h C m m' where
  total := h1.total
  size := h1.size
  config := h1.config
  tokens b hb := h1.tokens b (hB b hb)
  cells hh b hb := h1.cells hh b (hB b hb)

theorem Covers.keeps {N : Prop} (hN : Covers N m) (hk : Keeps h B m m') : Covers N m' := by
  refine hN.imp_right fun hc p' hp' => ?_
  have hcfg := hk.config
  rw [hp'] at hcfg
  cases hp : m.tensorPool with
  | none => rw [hp] at hcfg; cases hcfg
  | some p =>
    rw [hp] at hcfg
    rw [hk.total, show p'.config = p.config from Option.some.inj hcfg]
    exact hc p hp

end Keeps

section Accounts
variable {held held' : List BlockId} {m m' : AienKvManager} {b : BlockId} {id : UInt64} {t : BlockTable}

theorem Accounts.perm (ha : Accounts held m) (hp : held.Perm held') : Accounts held' m :=
  { ha with refs := fun b => by rw [ha.refs, hp.count_eq] }

theorem Accounts.live_of_table (ha : Accounts held m) (ht : m.sequenceTables.lookup id = some t) (hb : b ∈ t.blockIds) :
    m.Live b := by
  unfold Live
  have : 0 < listed BlockTable.blockIds m.sequenceTables b := listed_pos ht hb
  rw [ha.refs]
  unfold tableRefs
  omega

theorem Accounts.live_of_held (ha : Accounts held m) (hb : b ∈ held) : m.Live b := by
  unfold Live
  have := List.count_pos_iff.2 hb
  rw [ha.refs]
  omega

theorem Accounts.not_live_of_free (ha : Accounts held m) (hb : b ∈ m.freeBlocks) : ¬ m.Live b := by
  have := ((ha.free b).1 hb).2
  unfold Live
  omega

theorem Accounts.unique_of_not_shared (ha : Accounts held m) (hs : (m.blocks b).isShared = false) {id' : UInt64}
    {t' : BlockTable} (ht : m.sequenceTables.lookup id = some t) (hb : b ∈ t.blockIds)
    (ht' : m.sequenceTables.lookup id' = some t') (hb' : b ∈ t'.blockIds) : id = id' := by
  have hle : ¬ 1 < (m.blocks b).refCount := by rw [← ha.shared]; simp [hs]
  have hone : listed BlockTable.blockIds m.sequenceTables b ≤ 1 := by
    have := ha.refs b
    unfold tableRefs at this
    omega
  exact listed_le_one_unique hone ht hb ht' hb'

theorem Accounts.insert (ha : Accounts (t.blockIds ++ held) m) (hnew : m.sequenceTables.lookup id = none)
    (hnd : t.blockIds.Nodup) : Accounts held { m with sequenceTables := m.sequenceTables.insert id t } where
  refs b := by
    have := ha.refs b
    rw [List.count_append] at this
    unfold tableRefs at this ⊢
    dsimp only
    rw [listed_insert_new hnew]
    omega
  range := ha.range
  shared := ha.shared
  nodup id' t' ht' := by
    by_cases hid : id' = id
    · subst hid
      rw [AList.lookup_insert] at ht'
      cases ht'
      exact hnd
    · rw [AList.lookup_insert_ne hid] at ht'
      exact ha.nodup id' t' ht'
  freeNodup := ha.freeNodup
  free := ha.free

theorem Accounts.erase (ha : Accounts held m) (ht : m.sequenceTables.lookup id = some t) :
    Accounts (t.blockIds ++ held) { m with sequenceTables := m.sequenceTables.erase id } where
  refs b := by
    have := ha.refs b
    unfold tableRefs at this ⊢
    rw [listed_erase ht] at this
    rw [List.count_append]
    dsimp only
    omega
  range := ha.range
  shared := ha.shared
  nodup id' t' ht' := by
    by_cases hid : id' = id
    · subst hid
      rw [AList.lookup_erase] at ht'
      cases ht'
    · rw [AList.lookup_erase_ne hid] at ht'
      exact ha.nodup id' t' ht'
  freeNodup := ha.freeNodup
  free := ha.free

/-- Changing a table trades the references of the old one for those of the new one. -/
theorem Accounts.replace (ha : Accounts held m) (t' : BlockTable) (held' : List BlockId) (ht : m.sequenceTables.lookup id = some t)
    (hp : (t.blockIds ++ held).Perm (t'.blockIds ++ held')) (hnd : t'.blockIds.Nodup) :
    Accounts held' { m with sequenceTables := m.sequenceTables.insert id t' } where
  refs b := by
    have hcount := hp.count_eq b
    rw [List.count_append, List.count_append] at hcount
    have hold := ha.refs b
    have hnew : listed BlockTable.blockIds (m.sequenceTables.insert id t') b + _ = _ := listed_insert_old ht
    unfold tableRefs at hold ⊢
    dsimp only
    omega
  range := ha.range
  shared := ha.shared
  nodup id' t'' ht'' := by
    by_cases hid : id' = id
    · subst hid
      rw [AList.lookup_insert] at ht''
      cases ht''
      exact hnd
    · rw [AList.lookup_insert_ne hid] at ht''
      exact ha.nodup id' t'' ht''
  freeNodup := ha.freeNodup
  free := ha.free

theorem Accounts.update (ha : Accounts held m) (held' : List BlockId) (blk : KvBlock) (free : List BlockId)
    (hrefs : blk.refCount = m.tableRefs b + held'.count b) (hshared : blk.isShared = true ↔ 1 < blk.refCount)
    (hothers : ∀ c, c ≠ b → held'.count c = held.count c) (hb : b < m.totalBlocks)
    (hnd : free.Nodup)
    (hfree : ∀ c, c ∈ free ↔ if c = b then blk.refCount = 0 else c ∈ m.freeBlocks) :
    Accounts held' { m with blocks := Function.update m.blocks b blk, freeBlocks := free } where
  refs c := by
    by_cases hc : c = b
    · subst hc
      change (Function.update m.blocks c blk c).refCount = m.tableRefs c + held'.count c
      rw [Function.update_self]
      exact hrefs
    · change (Function.update m.blocks b blk c).refCount = m.tableRefs c + held'.count c
      rw [Function.update_of_ne hc, hothers c hc]
      exact ha.refs c
  range c := by
    by_cases hc : c = b
    · subst hc
      exact fun _ => hb
    · simpa [Function.update_of_ne hc] using ha.range c
  shared c := by
    by_cases hc : c = b
    · subst hc
      simpa using hshared
    · simpa [Function.update_of_ne hc] using ha.shared c
  nodup := ha.nodup
  freeNodup := hnd
  free c := by
    change c ∈ free ↔ c < m.totalBlocks ∧ (Function.update m.blocks b blk c).refCount = 0
    rw [hfree]
    by_cases hc : c = b
    · subst hc
      simp [hb]
    · rw [if_neg hc, Function.update_of_ne hc]
      exact ha.free c

theorem Accounts.updateTokens (ha : Accounts held m) (hb : b < m.totalBlocks) (blk : KvBlock)
    (hrefs : blk.refCount = (m.blocks b).refCount) (hshared : blk.isShared = (m.blocks b).isShared) :
    Accounts held { m with blocks := Function.update m.blocks b blk } := by
  refine ha.update held blk m.freeBlocks (hrefs.trans (ha.refs b)) ?_ (fun _ _ => rfl) hb ha.freeNodup fun c => ?_
  · rw [hrefs, hshared]
    exact ha.shared b
  · by_cases hc : c = b
    · subst hc
      rw [if_pos rfl, hrefs, ha.free c]
      simp [hb]
    · rw [if_neg hc]

/-- The accounts do not mention the pool, the prefix cache or the fault counter. -/
theorem Accounts.congr (ha : Accounts held m) (ht : m'.totalBlocks = m.totalBlocks) (hb : m'.blocks = m.blocks)
    (hs : m'.sequenceTables = m.sequenceTables) (hf : m'.freeBlocks = m.freeBlocks) : Accounts held m' where
  refs b := by
    unfold tableRefs
    rw [hb, hs]
    exact ha.refs b
  range := by rw [hb, ht]; exact ha.range
  shared := by rw [hb]; exact ha.shared
  nodup := by rw [hs]; exact ha.nodup
  freeNodup := by rw [hf]; exact ha.freeNodup
  free := by rw [hf, ht, hb]; exact ha.free

end Accounts

end SovereignCore.Kv.AienKvManager
