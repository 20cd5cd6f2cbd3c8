import SovereignCore.Kv.Accounts

/-!
# What each call does

One lemma per method: from sound accounts it ends without a panic (unless the pool is smaller than the manager), and
its effect is the view of at most two tables, the accounts, and the blocks it leaves as they were.

* `allocateBlock_ends`, `assignBlocks_ends`, `forM_addRef_ends`, `forM_releaseRef_ends` : the moves of the credit;
* `freeSequence_ends`, `forkSequence_ends`, `forkRange_ends`, `assembleTable_ends`, `adoptTable_ends`,
  `allocateSequence_ends`, `appendWith_ends`, `truncateSequence_ends` : the table operations.
-/

namespace SovereignCore.Kv.AienKvManager

open Prog

section Primitives
variable {ε α : Type} {N : Prop} {E : ε → AienKvManager → Prop} {m : AienKvManager} {b : BlockId} {id : UInt64}

theorem ends_block {Q : KvBlock → AienKvManager → Prop} (hb : b < m.totalBlocks) :
    Outcome.Ends N Q E ((block b : Prog AienKvManager ε KvBlock) m) ↔ Q (m.blocks b) m := by
  unfold block
  simp only [ends_bind, ends_get, if_pos hb, ends_pure]

theorem ends_updateBlock {Q : Unit → AienKvManager → Prop} (hb : b < m.totalBlocks) (f : KvBlock → KvBlock) :
    Outcome.Ends N Q E ((updateBlock b f : Prog AienKvManager ε Unit) m) ↔
      Q () { m with blocks := Function.update m.blocks b (f (m.blocks b)) } := by
  unfold updateBlock
  simp only [ends_bind, ends_get, if_pos hb, ends_set]

theorem ends_updateTable {Q : Unit → AienKvManager → Prop} {t : BlockTable} (ht : m.sequenceTables.lookup id = some t)
    (f : BlockTable → BlockTable) :
    Outcome.Ends N Q E ((updateTable id f : Prog AienKvManager ε Unit) m) ↔
      Q () { m with sequenceTables := m.sequenceTables.insert id (f t) } := by
  unfold updateTable
  simp only [ends_bind, ends_get, ht, ends_unwrap_some, ends_set]

/-- A call into the pool: nothing to do without one, and no panic where the pool accepts the call. -/
theorem ends_onPool {Q : Unit → AienKvManager → Prop} {f : UnifiedKvTensorPool → Option UnifiedKvTensorPool}
    (hf : N ∨ ∀ p, m.tensorPool = some p → ∃ p', f p = some p') (hnone : m.tensorPool = none → Q () m)
    (hsome : ∀ p p', m.tensorPool = some p → f p = some p' → Q () { m with tensorPool := some p' }) :
    Outcome.Ends N Q E ((onPool f : Prog AienKvManager ε Unit) m) := by
  unfold onPool
  rw [ends_bind, ends_get]
  cases hp : m.tensorPool with
  | none => exact hnone hp
  | some p =>
    rw [ends_bind]
    cases hfp : f p with
    | none =>
      rcases hf with hN | hf
      · exact hN
      · obtain ⟨p', hp'⟩ := hf p hp
        rw [hfp] at hp'
        cases hp'
    | some p' => exact hsome p p' hp hfp

theorem ends_divCeil {Q : Nat → AienKvManager → Prop} {x y : Nat} (hy : 0 < y) :
    Outcome.Ends N Q E ((divCeil x y : Prog AienKvManager ε Nat) m) ↔ Q (x ⌈/⌉ y) m := by
  unfold divCeil
  rw [if_neg (by omega), ends_pure]

end Primitives

def zeroRow (c : KvPoolConfig) : List F32 × List F32 := (List.replicate c.kvDim 0, List.replicate c.kvDim 0)

/-- The block's rows are zero, where the host can store the pool's element type. -/
def Zeroed (m : AienKvManager) (b : BlockId) : Prop :=
  ∀ p, m.tensorPool = some p → p.HostDtype → ∀ l < p.config.numLayers, ∀ t < p.config.blockSize,
    m.cell b l t = some (zeroRow p.config)

section Frames
variable {h : Prop} {B : BlockId → Prop} {m m' : AienKvManager} {b : BlockId}

theorem HostDtype_congr {p p' : UnifiedKvTensorPool} (hc : p'.config = p.config) (hd : p'.HostDtype) : p.HostDtype := by
  unfold UnifiedKvTensorPool.HostDtype at hd ⊢
  rwa [← hc]

/-- The pool of `m` behind a pool of `m'` with the same configuration. -/
theorem Keeps.pool (hk : Keeps h B m m') {p' : UnifiedKvTensorPool} (hp' : m'.tensorPool = some p') :
    ∃ p, m.tensorPool = some p ∧ p'.config = p.config := by
  have hcfg := hk.config
  rw [hp'] at hcfg
  cases hp : m.tensorPool with
  | none => rw [hp] at hcfg; cases hcfg
  | some p =>
    rw [hp] at hcfg
    exact ⟨p, rfl, Option.some.inj hcfg⟩

theorem Zeroed.keeps (hz : m.Zeroed b) (hk : Keeps True B m m') (hb : B b) : m'.Zeroed b := by
  intro p' hp' hd l hl t ht
  obtain ⟨p, hp, hc⟩ := hk.pool hp'
  rw [hc] at hl ht ⊢
  rw [hk.cells trivial b hb]
  exact hz p hp (HostDtype_congr hc hd) l hl t ht

theorem Keeps.updateBlock {blk : KvBlock} (ht : B b → blk.numTokens = (m.blocks b).numTokens) (free : List BlockId) :
    Keeps h B m { m with blocks := Function.update m.blocks b blk, freeBlocks := free } where
  total := rfl
  size := rfl
  config := rfl
  tokens c hc := by
    by_cases hcb : c = b
    · subst hcb
      simpa using ht hc
    · simp [Function.update_of_ne hcb]
  cells _ _ _ := rfl

theorem Keeps.tables (tables : Tables) : Keeps h B m { m with sequenceTables := tables } :=
  ⟨rfl, rfl, rfl, fun _ _ => rfl, fun _ _ _ => rfl⟩

end Frames

section View
variable {m : AienKvManager} {id : UInt64} {t : BlockTable}

theorem view_insert : view { m with sequenceTables := m.sequenceTables.insert id t } =
    Function.update m.view id (some (t.blockIds, t.totalTokens)) := by
  funext id'
  unfold view
  by_cases hid : id' = id
  · subst hid
    simp
  · simp [Function.update_of_ne hid, AList.lookup_insert_ne hid]

theorem view_erase : view { m with sequenceTables := m.sequenceTables.erase id } = Function.update m.view id none := by
  funext id'
  unfold view
  by_cases hid : id' = id
  · subst hid
    simp
  · simp [Function.update_of_ne hid, AList.lookup_erase_ne hid]

theorem view_eq_of_tables {m' : AienKvManager} (h : m'.sequenceTables = m.sequenceTables) : m'.view = m.view := by
  unfold view
  rw [h]

theorem view_of_lookup (h : m.sequenceTables.lookup id = some t) : m.view id = some (t.blockIds, t.totalTokens) := by
  unfold view
  rw [h]
  rfl

theorem lookup_of_view {ids : List BlockId} {n : Nat} (h : m.view id = some (ids, n)) :
    ∃ t, m.sequenceTables.lookup id = some t ∧ t.blockIds = ids ∧ t.totalTokens = n := by
  unfold view at h
  obtain ⟨t, ht, he⟩ := Option.map_eq_some_iff.1 h
  cases he
  exact ⟨t, ht, rfl, rfl⟩

end View

/-! ## Moves of the credit -/

section Moves
variable {N : Prop} {held : List BlockId} {m : AienKvManager} {b : BlockId}

theorem zeroBlock_keeps {p p' : UnifiedKvTensorPool} (hp : m.tensorPool = some p) (hz : p.zeroBlock b = some p') :
    Keeps True (· ≠ b) m { m with tensorPool := some p' } ∧ Zeroed { m with tensorPool := some p' } b := by
  have hc := UnifiedKvTensorPool.config_zeroBlock hz
  refine ⟨⟨rfl, rfl, by simp [hp, hc], fun _ _ => rfl, fun _ c hne => ?_⟩, ?_⟩
  · funext l t
    unfold cell
    simp only [hp, Option.bind_some, hc]
    split
    · rename_i hlt
      rw [UnifiedKvTensorPool.row_zeroBlock_other hz hlt.1 hlt.2 hne]
    · rfl
  · intro q hq hd l hl t ht
    obtain rfl := Option.some.inj hq
    unfold cell zeroRow
    simp only [Option.bind_some, if_pos (And.intro hl ht)]
    rw [hc] at hl ht ⊢
    rw [UnifiedKvTensorPool.row_zeroBlock_self (HostDtype_congr hc hd) hz hl ht]

/-- A new block: nobody held it, the call holds it now, it is empty and zeroed, and every other block is as it was. -/
theorem allocateBlock_ends (ha : Accounts held m) (hN : Covers N m) :
    (allocateBlock m).Ends N
      (fun b m' => Accounts (b :: held) m' ∧ m'.sequenceTables = m.sequenceTables ∧ m.freeBlocks = b :: m'.freeBlocks ∧
        Keeps True (· ≠ b) m m' ∧ m'.blocks = Function.update m.blocks b
          { m.blocks b with refCount := 1, numTokens := 0, isShared := false } ∧ m'.Zeroed b)
      (fun _ m' => m' = m ∧ m.freeBlocks = []) := by
  unfold allocateBlock
  rw [ends_bind, ends_get]
  cases hf : m.freeBlocks with
  | nil => exact ⟨rfl, rfl⟩
  | cons b rest =>
    obtain ⟨hb, hzero⟩ := (ha.free b).1 (by rw [hf]; exact List.mem_cons_self)
    have hrefs := ha.refs b
    have hnd := ha.freeNodup
    rw [hf] at hnd
    obtain ⟨hnotin, hrest⟩ := List.nodup_cons.1 hnd
    -- the record of the block, before the pool is touched
    have hacc : Accounts (b :: held) { m with
        blocks := Function.update m.blocks b { m.blocks b with refCount := 1, numTokens := 0, isShared := false }
        freeBlocks := rest } := by
      refine ha.update _ _ _ ?_ (by simp) (fun c hc => List.count_cons_of_ne (Ne.symm hc)) hb hrest fun c => ?_
      · rw [List.count_cons_self]
        change 1 = _
        omega
      · by_cases hc : c = b
        · subst hc
          simpa using hnotin
        · rw [if_neg hc, hf]
          simp [hc]
    simp only [ends_bind, ends_set]
    rw [ends_updateBlock (by exact hb)]
    apply ends_onPool
    · exact hN.imp_right fun hcov p hp => UnifiedKvTensorPool.zeroBlock_isSome (Nat.lt_of_lt_of_le hb (hcov p hp))
    · intro hp
      refine ⟨hacc, rfl, rfl, Keeps.updateBlock (fun h => absurd rfl h) rest, rfl, ?_⟩
      intro p' hp'
      rw [hp] at hp'
      cases hp'
    · intro p p' hp hz
      obtain ⟨hk, hzd⟩ := zeroBlock_keeps (b := b) hp hz
      exact ⟨hacc.congr rfl rfl rfl rfl, rfl, rfl,
        (Keeps.updateBlock (fun h => absurd rfl h) rest).trans hk, rfl, hzd⟩

/-- The blocks of a prompt: new ones, filled in order, with every other block as it was. -/
theorem assignBlocks_ends : ∀ (n tokens : Nat) (held : List BlockId) (m : AienKvManager), Accounts held m → Covers N m →
    n ≤ m.freeBlocks.length → (assignBlocks n tokens m).Ends N
      (fun ids m' => Accounts (ids ++ held) m' ∧ m'.sequenceTables = m.sequenceTables ∧ ids.length = n ∧ ids.Nodup ∧
        (∀ b ∈ ids, ¬ m.Live b ∧ m'.Zeroed b) ∧ Keeps True (· ∉ ids) m m' ∧
        ∀ i b, ids[i]? = some b → (m'.blocks b).numTokens = min m.blockSize (tokens - i * m.blockSize))
      (fun _ _ => False)
  | 0, _, _, m, ha, _, _ => ⟨ha, rfl, rfl, List.nodup_nil, by simp, Keeps.refl, by simp⟩
  | n + 1, tokens, held, m, ha, hN, hn => by
    unfold assignBlocks
    rw [ends_bind]
    refine (allocateBlock_ends ha hN).mono ?_ ?_
    swap
    · rintro _ m' ⟨-, hf⟩
      rw [hf] at hn
      simp at hn
    rintro b m1 ⟨ha1, ht1, hf1, hk1, hb1, hz1⟩
    have hlive : m1.Live b := ha1.live_of_held List.mem_cons_self
    rw [ends_bind, ends_get, ends_bind, ends_updateBlock (ha1.range b hlive)]
    set m2 : AienKvManager := { m1 with
      blocks := Function.update m1.blocks b { m1.blocks b with numTokens := min tokens m1.blockSize } } with hm2
    have ha2 : Accounts (b :: held) m2 := ha1.updateTokens (ha1.range b hlive) _ rfl rfl
    have hk2 : Keeps True (· ≠ b) m1 m2 := Keeps.updateBlock (fun h => absurd rfl h) _
    have hz2 : m2.Zeroed b := hz1
    have hlive2 : ∀ c, m.Live c → m2.Live c := by
      intro c hc
      by_cases hcb : c = b
      · subst hcb
        exact ha2.live_of_held List.mem_cons_self
      · unfold Live at hc ⊢
        rw [hm2, hb1]
        simpa [Function.update_of_ne hcb] using hc
    have hfree : n ≤ m2.freeBlocks.length := by
      rw [hf1, List.length_cons] at hn
      exact Nat.le_of_succ_le_succ hn
    rw [ends_bind]
    refine (assignBlocks_ends n _ _ m2 ha2 ((hN.keeps hk1).keeps hk2) hfree).mono ?_ (fun _ _ h => h)
    rintro ids m3 ⟨ha3, ht3, hlen, hnd, hfresh, hk3, htok⟩
    have hbids : b ∉ ids := fun hmem => (hfresh b hmem).1 (ha2.live_of_held List.mem_cons_self)
    have hb : ¬ m.Live b := ha.not_live_of_free (by rw [hf1]; exact List.mem_cons_self)
    refine ⟨ha3.perm List.perm_middle, ht3.trans ht1, by rw [List.length_cons, hlen], List.nodup_cons.2 ⟨hbids, hnd⟩,
      ?_, ?_, ?_⟩
    · intro c hc
      rcases List.mem_cons.1 hc with rfl | hc
      · exact ⟨hb, hz2.keeps hk3 hbids⟩
      · exact ⟨fun hl => (hfresh c hc).1 (hlive2 c hl), (hfresh c hc).2⟩
    · have hne : ∀ c, c ∉ b :: ids → c ≠ b := fun c hc he => hc (by rw [he]; exact List.mem_cons_self)
      have hni : ∀ c, c ∉ b :: ids → c ∉ ids := fun c hc h => hc (List.mem_cons_of_mem b h)
      exact ((hk1.mono hne).trans (hk2.mono hne)).trans (hk3.mono hni)
    · intro i c hi
      have hsize : m2.blockSize = m.blockSize := hk2.size.trans hk1.size
      cases i with
      | zero =>
        cases hi
        rw [hk3.tokens b hbids]
        simp only [hm2, Function.update_self, hk1.size, Nat.zero_mul, Nat.sub_zero]
        exact Nat.min_comm _ _
      | succ i =>
        rw [htok i c hi, hsize]
        congr 1
        rw [Nat.succ_mul]
        omega

variable {ε : Type}

theorem addRef_ends (ha : Accounts held m) (hb : m.Live b) :
    ((addRef b : Prog AienKvManager ε Unit) m).Ends N
      (fun _ m' => Accounts (b :: held) m' ∧ m'.sequenceTables = m.sequenceTables ∧
        Keeps True (fun _ => True) m m' ∧ ∀ c, m.Live c → m'.Live c)
      (fun _ _ => False) := by
  have hrange := ha.range b hb
  have hrefs := ha.refs b
  unfold Live at hb
  unfold addRef
  rw [ends_updateBlock hrange]
  refine ⟨ha.update _ _ _ ?_ ?_ (fun c hc => List.count_cons_of_ne (Ne.symm hc)) hrange ha.freeNodup fun c => ?_, rfl,
    Keeps.updateBlock (fun _ => by rfl) _, fun c hc => ?_⟩
  · rw [List.count_cons_self]
    dsimp only
    omega
  · simpa using hb
  · by_cases hc : c = b
    · subst hc
      have hnot : c ∉ m.freeBlocks := fun hm => ha.not_live_of_free hm hb
      simp [hnot]
    · rw [if_neg hc]
  · unfold Live at hc ⊢
    by_cases hcb : c = b
    · subst hcb
      simp
    · simpa [Function.update_of_ne hcb] using hc

theorem forM_addRef_ends {ids : List BlockId} (ha : Accounts held m) (hl : ∀ b ∈ ids, m.Live b) :
    ((ids.forM addRef : Prog AienKvManager ε Unit) m).Ends N
      (fun _ m' => Accounts (ids ++ held) m' ∧ m'.sequenceTables = m.sequenceTables ∧ Keeps True (fun _ => True) m m')
      (fun _ _ => False) := by
  let I : List BlockId → AienKvManager → Prop := fun rest m' => (∀ c, m.Live c → m'.Live c) ∧
    (∃ taken, taken ++ rest = ids ∧ Accounts (taken ++ held) m') ∧ m'.sequenceTables = m.sequenceTables ∧
      Keeps True (fun _ => True) m m'
  refine (ends_forM I ?_ ids m ⟨fun _ h => h, ⟨[], rfl, ha⟩, rfl, Keeps.refl⟩).mono ?_ (fun _ _ h => h)
  · rintro b rest m1 ⟨hlive, ⟨taken, hids, ha1⟩, ht1, hk1⟩
    have hb : m1.Live b := hlive b (hl b (by rw [← hids]; simp))
    refine (addRef_ends ha1 hb).mono ?_ (fun _ _ h => h)
    rintro _ m2 ⟨ha2, ht2, hk2, hl2⟩
    refine ⟨fun c hc => hl2 c (hlive c hc), ⟨taken ++ [b], by simpa using hids, ha2.perm ?_⟩, ht2.trans ht1,
      hk1.trans hk2⟩
    have hmid : (taken ++ b :: held).Perm (b :: (taken ++ held)) := List.perm_middle
    simpa using hmid.symm
  · rintro _ m' ⟨-, ⟨taken, hids, ha'⟩, ht', hk'⟩
    rw [List.append_nil] at hids
    rw [← hids]
    exact ⟨ha', ht', hk'⟩

theorem releaseRef_ends (ha : Accounts (b :: held) m) :
    ((releaseRef b : Prog AienKvManager ε Unit) m).Ends N
      (fun _ m' => Accounts held m' ∧ m'.sequenceTables = m.sequenceTables ∧ Keeps True m'.Live m m' ∧
        ∀ c, m'.Live c → m.Live c)
      (fun _ _ => False) := by
  have hlive : m.Live b := ha.live_of_held List.mem_cons_self
  have hrange := ha.range b hlive
  have hrefs := ha.refs b
  have hshared := ha.shared b
  have hnot : b ∉ m.freeBlocks := fun hm => ha.not_live_of_free hm hlive
  rw [List.count_cons_self] at hrefs
  have hcount : ∀ c, c ≠ b → held.count c = (b :: held).count c :=
    fun c hc => (List.count_cons_of_ne (Ne.symm hc)).symm
  -- a live block of the new state was live, whatever the record of `b` becomes
  have hmono : ∀ (blk : KvBlock) (free : List BlockId) (c : BlockId),
      Live { m with blocks := Function.update m.blocks b blk, freeBlocks := free } c → m.Live c := by
    intro blk free c hc
    by_cases hcb : c = b
    · rw [hcb]
      exact hlive
    · unfold Live at hc ⊢
      simpa [Function.update_of_ne hcb] using hc
  unfold Live at hlive
  unfold releaseRef
  rw [ends_bind, ends_block hrange, if_neg (by omega)]
  split_ifs with h0 h1
  · rw [ends_bind, ends_updateBlock hrange, ends_modify]
    refine ⟨ha.update _ _ _ ?_ ?_ hcount hrange (List.nodup_cons.2 ⟨hnot, ha.freeNodup⟩) fun c => ?_, rfl,
      Keeps.updateBlock ?_ _, hmono _ _⟩
    · dsimp only
      omega
    · simp [h0]
    · by_cases hc : c = b
      · subst hc
        simp [h0]
      · simp [hc]
    · intro hb
      unfold Live at hb
      simp [h0] at hb
  · rw [ends_updateBlock hrange]
    refine ⟨ha.update _ _ _ ?_ ?_ hcount hrange ha.freeNodup fun c => ?_, rfl, Keeps.updateBlock (fun _ => by rfl) _, hmono _ _⟩
    · dsimp only
      omega
    · simp [h1]
    · by_cases hc : c = b
      · subst hc
        simp [h0, hnot]
      · rw [if_neg hc]
  · rw [ends_updateBlock hrange]
    refine ⟨ha.update _ _ _ ?_ ?_ hcount hrange ha.freeNodup fun c => ?_, rfl, Keeps.updateBlock (fun _ => by rfl) _, hmono _ _⟩
    · dsimp only
      omega
    · rw [hshared]
      dsimp only
      omega
    · by_cases hc : c = b
      · subst hc
        simp [h0, hnot]
      · rw [if_neg hc]

theorem forM_releaseRef_ends {ids : List BlockId} (ha : Accounts (ids ++ held) m) :
    ((ids.forM releaseRef : Prog AienKvManager ε Unit) m).Ends N
      (fun _ m' => Accounts held m' ∧ m'.sequenceTables = m.sequenceTables ∧ Keeps True m'.Live m m')
      (fun _ _ => False) := by
  let I : List BlockId → AienKvManager → Prop := fun rest m' => Accounts (rest ++ held) m' ∧
    m'.sequenceTables = m.sequenceTables ∧ Keeps True m'.Live m m'
  refine (ends_forM I ?_ ids m ⟨ha, rfl, Keeps.refl⟩).mono (fun _ _ h => h) (fun _ _ h => h)
  rintro b rest m1 ⟨ha1, ht1, hk1⟩
  refine (releaseRef_ends ha1).mono ?_ (fun _ _ h => h)
  rintro _ m2 ⟨ha2, ht2, hk2, hl2⟩
  exact ⟨ha2, ht2.trans ht1, (hk1.mono hl2).trans hk2⟩

end Moves

/-! ## Table operations -/

section Tables
variable {N : Prop} {held : List BlockId} {m : AienKvManager}

theorem freeSequence_ends (ha : Accounts held m) (id : UInt64) :
    (freeSequence id m).Ends N
      (fun _ m' => Accounts held m' ∧ m'.sequenceTables = m.sequenceTables.erase id ∧ (m.view id).isSome ∧
        Keeps True m'.Live m m')
      (fun _ m' => m' = m ∧ m.view id = none) := by
  unfold freeSequence view
  rw [ends_bind, ends_get, ends_bind]
  cases ht : m.sequenceTables.lookup id with
  | none => exact ⟨rfl, rfl⟩
  | some t =>
    rw [ends_orFail_some, ends_bind, ends_set]
    refine (forM_releaseRef_ends (ha.erase ht)).mono ?_ (fun _ _ h => h.elim)
    rintro _ m' ⟨ha', ht', hk'⟩
    exact ⟨ha', ht', rfl, (Keeps.tables _).trans hk'⟩

theorem freeIfLive_ends (ha : Accounts held m) (id : UInt64) :
    (freeIfLive id m).Ends N
      (fun _ m' => Accounts held m' ∧ m'.sequenceTables.lookup id = none ∧
        (∀ id', id' ≠ id → m'.sequenceTables.lookup id' = m.sequenceTables.lookup id') ∧ Keeps True m'.Live m m')
      (fun _ _ => False) := by
  unfold freeIfLive
  rw [ends_bind, ends_get]
  split_ifs with h
  · refine (freeSequence_ends ha id).mono ?_ ?_
    · rintro _ m' ⟨ha', ht', -, hk'⟩
      rw [ht']
      exact ⟨ha', AList.lookup_erase _ _, fun id' hne => AList.lookup_erase_ne hne, hk'⟩
    · rintro _ m' ⟨-, hnone⟩
      unfold view at hnone
      rw [Option.map_eq_none_iff] at hnone
      rw [hnone] at h
      cases h
  · rw [Option.not_isSome_iff_eq_none] at h
    exact ⟨ha, h, fun _ _ => rfl, Keeps.refl⟩

theorem freezeParent_ends {ε : Type} (ha : Accounts held m) (id : UInt64) (state : PrefillState) :
    ((freezeParent id state : Prog AienKvManager ε Unit) m).Ends N
      (fun _ m' => Accounts held m' ∧ m'.view = m.view ∧ m'.Live = m.Live ∧ Keeps True (fun _ => True) m m')
      (fun _ _ => False) := by
  unfold freezeParent
  rw [ends_bind, ends_get]
  split_ifs with h
  · obtain ⟨t, ht⟩ := Option.isSome_iff_exists.1 h.2
    rw [ends_updateTable ht]
    refine ⟨ha.replace _ _ ht (List.Perm.refl _) (ha.nodup id t ht), ?_, rfl, Keeps.tables _⟩
    rw [view_insert]
    exact Function.update_eq_self_iff.2 (view_of_lookup ht).symm
  · exact ⟨ha, rfl, rfl, Keeps.refl⟩

theorem forkSequence_ends (ha : Accounts [] m) (parent child : UInt64) :
    (forkSequence parent child m).Ends N
      (fun ids m' => Accounts [] m' ∧ parent ≠ child ∧ Keeps True m'.Live m m' ∧
        ∃ n, m.view parent = some (ids, n) ∧ m'.view = Function.update m.view child (some (ids, n)))
      (fun _ m' => m' = m ∧ (m.view parent = none ∨ parent = child)) := by
  unfold forkSequence
  rw [ends_bind, ends_get, ends_bind]
  cases hp : m.sequenceTables.lookup parent with
  | none => exact ⟨rfl, Or.inl (by unfold view; rw [hp]; rfl)⟩
  | some t =>
    rw [ends_orFail_some]
    split_ifs with hne
    · exact ⟨rfl, Or.inr hne⟩
    rw [ends_bind]
    refine (forM_addRef_ends ha fun b hb => ha.live_of_table hp hb).mono ?_ (fun _ _ h => h.elim)
    rintro _ m1 ⟨ha1, ht1, hk1⟩
    rw [ends_bind]
    refine (freeIfLive_ends ha1 child).mono ?_ (fun _ _ h => h.elim)
    rintro _ m2 ⟨ha2, hnone2, hothers2, hk2⟩
    rw [ends_bind]
    refine (freezeParent_ends ha2 parent t.prefillState).mono ?_ (fun _ _ h => h.elim)
    rintro _ m3 ⟨ha3, hv3, hl3, hk3⟩
    have hview : m2.view = Function.update m.view child none := by
      funext id'
      unfold view
      by_cases hid : id' = child
      · subst hid
        simp [hnone2]
      · rw [Function.update_of_ne hid, hothers2 id' hid, ht1]
    have hnone3 : m3.sequenceTables.lookup child = none := by
      have := congrFun hv3 child
      rw [hview, Function.update_self] at this
      exact Option.map_eq_none_iff.1 this
    unfold insertTable
    rw [ends_bind, ends_modify]
    refine ⟨Accounts.insert ha3 hnone3 (ha.nodup parent t hp), hne, ?_, t.totalTokens, view_of_lookup hp, ?_⟩
    · have hlive : ∀ b, m3.Live b → m2.Live b := fun b hb => by rwa [hl3] at hb
      exact (((hk1.mono fun _ _ => trivial).trans (hk2.mono hlive)).trans (hk3.mono fun _ _ => trivial)).trans
        (Keeps.tables _)
    · rw [view_insert, hv3, hview]
      exact Function.update_idem _ _ _

theorem forkRange_ends (ha : Accounts [] m) (parent : UInt64) (first n : Nat) (child : UInt64) :
    (forkRange parent first n child m).Ends N
      (fun ids m' => Accounts [] m' ∧ parent ≠ child ∧ Keeps True (fun _ => True) m m' ∧
        ∃ pids total, m.view parent = some (pids, total) ∧ 0 < n ∧ first + n ≤ pids.length ∧
          ids = (pids.drop first).take n ∧ m.view child = none ∧ m'.view = Function.update m.view child
            (some (ids, min ((first + n) * m.blockSize) total - first * m.blockSize)))
      (fun _ m' => m' = m) := by
  unfold forkRange
  rw [ends_bind, ends_get]
  split_ifs with hover hne hlive
  · rfl
  · rfl
  · rfl
  rw [Bool.not_eq_true, Option.isSome_eq_false_iff, Option.isNone_iff_eq_none] at hlive
  rw [ends_bind]
  cases hp : m.sequenceTables.lookup parent with
  | none => rfl
  | some t =>
    rw [ends_orFail_some]
    dsimp only
    split_ifs with hrange
    · rfl
    have hsub : ((t.blockIds.drop first).take n).Sublist t.blockIds :=
      (List.take_sublist _ _).trans (List.drop_sublist _ _)
    rw [ends_bind]
    refine (forM_addRef_ends ha fun b hb => ha.live_of_table hp (hsub.subset hb)).mono ?_ (fun _ _ h => h.elim)
    rintro _ m1 ⟨ha1, ht1, hk1⟩
    have hnone : m1.sequenceTables.lookup child = none := by rw [ht1, hlive]
    unfold insertTable
    rw [ends_bind, ends_modify]
    refine ⟨Accounts.insert ha1 hnone ((ha.nodup parent t hp).sublist hsub), hne, hk1.trans (Keeps.tables _),
      t.blockIds, t.totalTokens, view_of_lookup hp, by omega, by omega, rfl, ?_, ?_⟩
    · unfold view
      rw [hlive]
      rfl
    · rw [view_insert, view_eq_of_tables ht1]

theorem forkRange_inserts (ha : Accounts [] m) (parent : UInt64) (first n : Nat)
    (child : UInt64) : (forkRange parent first n child m).Ends N
      (fun ids m' => ids.length = n ∧ m.sequenceTables.lookup child = none ∧
        ∃ t, m'.sequenceTables = m.sequenceTables.insert child t) (fun _ _ => True) := by
  unfold forkRange
  rw [ends_bind, ends_get]
  split_ifs with hover hne hlive
  · trivial
  · trivial
  · trivial
  rw [Bool.not_eq_true, Option.isSome_eq_false_iff, Option.isNone_iff_eq_none] at hlive
  rw [ends_bind]
  cases hp : m.sequenceTables.lookup parent with
  | none => trivial
  | some t =>
    rw [ends_orFail_some]
    dsimp only
    split_ifs with hrange
    · trivial
    have hsub : ((t.blockIds.drop first).take n).Sublist t.blockIds :=
      (List.take_sublist _ _).trans (List.drop_sublist _ _)
    rw [ends_bind]
    refine (forM_addRef_ends ha fun b hb => ha.live_of_table hp (hsub.subset hb)).mono ?_ (fun _ _ h => h.elim)
    rintro _ m1 ⟨-, ht1, -⟩
    unfold insertTable
    rw [ends_bind, ends_modify]
    refine ⟨?_, hlive, _, congrArg (AList.insert child _) ht1⟩
    rw [List.length_take, List.length_drop]
    omega

theorem firstRepeat_none : ∀ {seen ids : List BlockId}, firstRepeat seen ids = none →
    ids.Nodup ∧ ∀ b ∈ ids, b ∉ seen
  | _, [], _ => ⟨List.nodup_nil, by simp⟩
  | seen, b :: rest, h => by
    unfold firstRepeat at h
    split_ifs at h with hb
    obtain ⟨hnd, hseen⟩ := firstRepeat_none h
    refine ⟨List.nodup_cons.2 ⟨fun hm => hseen b hm List.mem_cons_self, hnd⟩, fun c hc => ?_⟩
    rcases List.mem_cons.1 hc with rfl | hc
    · exact hb
    · exact fun hm => hseen c hc (List.mem_cons_of_mem b hm)

/-- What the checks of `assembleTable` let through: live holders with blocks of their own, all but the last full. -/
theorem collectHolders_ok {policy : SuffixPolicy} : ∀ {holders : List UInt64} {ids ids' : List BlockId}
    {total total' : Nat}, m.collectHolders policy holders ids total = .ok (ids', total') → ids.Nodup →
    ∃ vs : List (List BlockId × Nat), holders.map m.view = vs.map some ∧ ids' = ids ++ vs.flatMap Prod.fst ∧
      total' = total + (vs.map Prod.snd).sum ∧ ids'.Nodup ∧ (∀ v ∈ vs, v.1 ≠ []) ∧
      ∀ v ∈ vs.dropLast, v.2 = v.1.length * m.blockSize
  | [], ids, ids', total, total', h, hnd => by
    cases h
    exact ⟨[], rfl, by simp, by simp, hnd, by simp, by simp⟩
  | hd :: rest, ids, ids', total, total', h, hnd => by
    unfold collectHolders at h
    split_ifs at h
    cases ht : m.sequenceTables.lookup hd with
    | none => rw [ht] at h; cases h
    | some t =>
      rw [ht] at h
      dsimp only at h
      split_ifs at h with hready hfull
      cases hrep : firstRepeat ids t.blockIds with
      | some b => rw [hrep] at h; cases h
      | none =>
        rw [hrep] at h
        obtain ⟨hndt, hseen⟩ := firstRepeat_none hrep
        have hnd' : (ids ++ t.blockIds).Nodup :=
          List.nodup_append.2 ⟨hnd, hndt, fun a ha b hb he => hseen b hb (he ▸ ha)⟩
        obtain ⟨vs, hvs, hids, htot, hnd'', hne, hvfull⟩ := collectHolders_ok h hnd'
        refine ⟨(t.blockIds, t.totalTokens) :: vs, ?_, ?_, ?_, hnd'', ?_, ?_⟩
        · rw [List.map_cons, List.map_cons, hvs, view_of_lookup ht]
        · rw [hids, List.flatMap_cons, List.append_assoc]
        · rw [htot, List.map_cons, List.sum_cons, Nat.add_assoc]
        · intro v hv
          rcases List.mem_cons.1 hv with rfl | hv
          · simp only [Bool.or_eq_true, not_or] at hready
            simpa using hready.2
          · exact hne v hv
        · intro v hv
          cases vs with
          | nil => cases hv
          | cons w ws =>
            rw [List.dropLast_cons_of_ne_nil (by simp)] at hv
            rcases List.mem_cons.1 hv with rfl | hv
            · -- a holder before the last one has to be full
              have hrest : rest.isEmpty = false := by
                cases rest with
                | nil => cases hvs
                | cons => rfl
              simpa [hrest] using hfull
            · exact hvfull v hv

theorem assembleTable_ends (ha : Accounts [] m) (seq : UInt64) (holders : List UInt64) (policy : SuffixPolicy) :
    (assembleTable seq holders policy m).Ends N
      (fun ids m' => Accounts [] m' ∧ Keeps True (fun _ => True) m m' ∧ m.view seq = none ∧
        ∃ vs : List (List BlockId × Nat), vs ≠ [] ∧ holders.map m.view = vs.map some ∧ ids = vs.flatMap Prod.fst ∧ (∀ v ∈ vs, v.1 ≠ []) ∧
          (∀ v ∈ vs.dropLast, v.2 = v.1.length * m.blockSize) ∧
          m'.view = Function.update m.view seq (some (ids, (vs.map Prod.snd).sum)))
      (fun _ m' => m' = m) := by
  unfold assembleTable
  rw [ends_bind, ends_get]
  split_ifs with hholder hlive hempty
  · rfl
  · rfl
  · rfl
  rw [Bool.not_eq_true, Option.isSome_eq_false_iff, Option.isNone_iff_eq_none] at hlive
  cases hc : m.collectHolders policy holders [] 0 with
  | error e => rfl
  | ok r =>
    obtain ⟨ids, total⟩ := r
    obtain ⟨vs, hvs, hids, htot, hnd, hne, hfull⟩ := collectHolders_ok hc List.nodup_nil
    rw [List.nil_append] at hids
    rw [Nat.zero_add] at htot
    have hlives : ∀ b ∈ ids, m.Live b := by
      intro b hb
      rw [hids] at hb
      obtain ⟨v, hv, hbv⟩ := List.mem_flatMap.1 hb
      have hmem : some v ∈ holders.map m.view := by
        rw [hvs]
        exact List.mem_map_of_mem hv
      obtain ⟨hd, -, hview⟩ := List.mem_map.1 hmem
      obtain ⟨t, ht, hti, -⟩ := lookup_of_view hview
      exact ha.live_of_table ht (by rw [hti]; exact hbv)
    dsimp only
    rw [ends_bind]
    refine (forM_addRef_ends ha hlives).mono ?_ (fun _ _ h => h.elim)
    rintro _ m1 ⟨ha1, ht1, hk1⟩
    unfold insertTable
    rw [ends_bind, ends_modify]
    refine ⟨Accounts.insert ha1 (by rw [ht1, hlive]) hnd, hk1.trans (Keeps.tables _), ?_, vs, ?_, hvs, hids, hne,
      hfull, ?_⟩
    · unfold view
      rw [hlive]
      rfl
    · rintro rfl
      rw [List.map_nil, List.map_eq_nil_iff] at hvs
      rw [hvs] at hempty
      exact hempty rfl
    · rw [view_insert, view_eq_of_tables ht1, ← htot]

theorem adoptTable_ends (ha : Accounts [] m) (holder seq : UInt64) :
    (adoptTable holder seq m).Ends N
      (fun _ m' => Accounts [] m' ∧ Keeps True (fun _ => True) m m' ∧ seq ≠ holder ∧
        m.view seq = none ∧ (m.view holder).isSome ∧
        m'.view = Function.update (Function.update m.view holder none) seq (m.view holder))
      (fun _ m' => m' = m) := by
  unfold adoptTable
  rw [ends_bind, ends_get]
  split_ifs with hholder hseq hlive
  · rfl
  · rfl
  · rfl
  rw [Bool.not_eq_true, Option.isSome_eq_false_iff, Option.isNone_iff_eq_none] at hlive
  rw [ends_bind]
  cases ht : m.sequenceTables.lookup holder with
  | none => rfl
  | some t =>
    rw [ends_orFail_some, ends_bind, ends_set]
    have hne : seq ≠ holder := by
      simp only [Bool.or_eq_true, beq_iff_eq, not_or] at hseq
      exact hseq.2
    have hcredit := ha.erase ht
    unfold insertTable
    rw [ends_modify]
    refine ⟨Accounts.insert hcredit ?_ (ha.nodup holder t ht), Keeps.tables _, hne, ?_, ?_, ?_⟩
    · rw [AList.lookup_erase_ne hne, hlive]
    · unfold view
      rw [hlive]
      rfl
    · rw [view_of_lookup ht]
      rfl
    · rw [view_of_lookup ht]
      exact view_insert.trans (congrArg (Function.update · seq _) view_erase)

theorem allocateSequence_ends (ha : Accounts [] m) (hN : Covers N m) (hbs : 0 < m.blockSize) (id : UInt64)
    (prompt : List UInt32) :
    (allocateSequence id prompt m).Ends N
      (fun ids m' => (m' = m ∧ ∃ n, m.view id = some (ids, n)) ∨
        (m.view id = none ∧ Accounts [] m' ∧ Keeps True (· ∉ ids) m m' ∧
          ids.length = prompt.length ⌈/⌉ m.blockSize ∧ (∀ b ∈ ids, ¬ m.Live b ∧ m'.Zeroed b) ∧
          (∀ i b, ids[i]? = some b →
            (m'.blocks b).numTokens = min m.blockSize (prompt.length - i * m.blockSize)) ∧
          m'.view = Function.update m.view id (some (ids, prompt.length))))
      (fun _ m' => m' = m ∧ m.freeBlocks.length < prompt.length ⌈/⌉ m.blockSize ∧ m.view id = none) := by
  unfold allocateSequence
  rw [ends_bind, ends_get]
  cases ht : m.sequenceTables.lookup id with
  | some t => exact Or.inl ⟨rfl, t.totalTokens, view_of_lookup ht⟩
  | none =>
    have hnone : m.view id = none := by
      unfold view
      rw [ht]
      rfl
    dsimp only
    rw [ends_bind, ends_divCeil hbs]
    split_ifs with hfew
    · exact ⟨rfl, hfew, hnone⟩
    rw [ends_bind]
    refine (assignBlocks_ends _ _ [] m ha hN (Nat.le_of_not_lt hfew)).mono ?_ (fun _ _ h => h.elim)
    rintro ids m1 ⟨ha1, ht1, hlen, hnd, hfresh, hk1, htok⟩
    unfold insertTable
    rw [ends_bind, ends_modify]
    refine Or.inr ⟨hnone, Accounts.insert ha1 (by rw [ht1, ht]) hnd, hk1.trans (Keeps.tables _), hlen, hfresh, htok, ?_⟩
    rw [view_insert, view_eq_of_tables ht1]

end Tables

/-! ## Appending -/

section Append
variable {N h : Prop} {m : AienKvManager} {id : UInt64}

/-- Where an append to a table with blocks `ids` put its token: slot `slot` of block `b`, which ends the new block list
`pre ++ [b]` and is in no other table. The block is a new one after a full list, or it is the old tail or its copy. -/
structure Appended (h : Prop) (id : UInt64) (b : BlockId) (slot : Nat) (ids pre : List BlockId) (n n' : Nat)
    (m m' : AienKvManager) : Prop where
  before : m.view id = some (ids, n)
  after : m'.view = Function.update m.view id (some (pre ++ [b], n'))
  tokens : (m'.blocks b).numTokens = slot + 1
  fresh : b ∉ pre
  exclusive : ∀ id' ids' k, id' ≠ id → m.view id' = some (ids', k) → b ∉ ids'
  keeps : Keeps h (fun c => m.Live c ∧ c ≠ b) m m'
  place : (slot = 0 ∧ pre = ids ∧ m'.Zeroed b ∧
      ((ids = [] ∧ n' = 1) ∨ ∃ last, last ∈ ids.getLast? ∧ m.blockSize ≤ (m.blocks last).numTokens ∧ n' = n + 1)) ∨
    ∃ last, ids = pre ++ [last] ∧ (m.blocks last).numTokens = slot ∧ slot < m.blockSize ∧ n' = n + 1 ∧
      (h → m'.cell b = m.cell last)

/-- A copy of a shared tail into a new block: it changes that block's contents only, or it gives the block back. -/
def CopyEnds (h N : Prop) (copy : BlockId → BlockId → Prog AienKvManager String (Option Fence)) : Prop :=
  ∀ (held : List BlockId) (m : AienKvManager) (src dst : BlockId), Accounts (dst :: held) m → Covers N m →
    src < m.totalBlocks → (m.blocks dst).refCount = 1 → (m.blocks dst).isShared = false →
    (copy src dst m).Ends N
      (fun _ m' => Accounts (dst :: held) m' ∧ m'.sequenceTables = m.sequenceTables ∧ m'.blocks = m.blocks ∧
        Keeps h (· ≠ dst) m m' ∧ (h → m'.cell dst = m.cell src))
      (fun _ m' => Accounts held m' ∧ m'.sequenceTables = m.sequenceTables ∧ Keeps h (· ≠ dst) m m')

theorem grow_ends (ha : Accounts [] m) (hN : Covers N m) {t : BlockTable} (ht : m.sequenceTables.lookup id = some t)
    {f : BlockId → BlockTable → BlockTable} {g : KvBlock → KvBlock} {n' : Nat}
    (hf : ∀ b, (f b t).blockIds = t.blockIds ++ [b] ∧ (f b t).totalTokens = n')
    (hg : ∀ blk, (g blk).refCount = blk.refCount ∧ (g blk).numTokens = 1 ∧
      (blk.isShared = false → (g blk).isShared = false))
    (hplace : (t.blockIds = [] ∧ n' = 1) ∨ ∃ last, last ∈ t.blockIds.getLast? ∧
      m.blockSize ≤ (m.blocks last).numTokens ∧ n' = t.totalTokens + 1) :
    Outcome.Ends N
      (fun r m' => Accounts [] m' ∧
        ∃ ids pre n n', Appended h id r.1 r.2.1 ids pre n n' m m')
      (fun _ m' => Accounts [] m' ∧ m'.view = m.view ∧ Keeps h m.Live m m')
      ((do
        let newBlk ← allocateBlock
        updateTable id (f newBlk)
        updateBlock newBlk g
        pure (newBlk, 0, none) : Prog AienKvManager String (BlockId × Nat × Option Fence)) m) := by
  rw [ends_bind]
  refine (allocateBlock_ends ha hN).mono ?_ ?_
  swap
  · rintro _ m' ⟨rfl, -⟩
    exact ⟨ha, rfl, Keeps.refl⟩
  rintro b m1 ⟨ha1, ht1, hf1, hk1, hb1, hz1⟩
  have hdead : ¬ m.Live b := ha.not_live_of_free (by rw [hf1]; exact List.mem_cons_self)
  have hbr : b < m1.totalBlocks := ha1.range b (ha1.live_of_held List.mem_cons_self)
  have hnot : b ∉ t.blockIds := fun hm => hdead (ha.live_of_table ht hm)
  have hnd : (f b t).blockIds.Nodup := by
    rw [(hf b).1]
    exact List.nodup_append.2 ⟨ha.nodup id t ht, by simp, by
      rintro x hx y hy rfl
      rw [List.mem_singleton.1 hy] at hx
      exact hnot hx⟩
  have ht1' : m1.sequenceTables.lookup id = some t := by rw [ht1, ht]
  have hsh : (m1.blocks b).isShared = false := by rw [hb1]; simp
  have ha2 := ha1.replace (f b t) [] ht1' (by rw [(hf b).1, List.append_nil]) hnd
  rw [ends_bind, ends_updateTable ht1', ends_bind, ends_updateBlock (by exact hbr)]
  refine ⟨Accounts.updateTokens ha2 hbr _ (hg _).1 (by rw [hsh]; exact (hg _).2.2 hsh), t.blockIds, t.blockIds,
    t.totalTokens, n', ?_⟩
  refine ⟨view_of_lookup ht, ?_, ?_, hnot, ?_, ?_, Or.inl ⟨rfl, rfl, ?_, hplace⟩⟩
  · refine (view_insert (m := m1)).trans ?_
    rw [view_eq_of_tables ht1, (hf b).1, (hf b).2]
  · simpa using (hg (m1.blocks b)).2.1
  · intro id' ids' k _ hv hmem
    obtain ⟨t', ht', rfl, -⟩ := lookup_of_view hv
    exact hdead (ha.live_of_table ht' hmem)
  · have hk2 : Keeps True (· ≠ b) m { m1 with
        blocks := Function.update m1.blocks b (g (m1.blocks b))
        sequenceTables := m1.sequenceTables.insert id (f b t) } :=
      (hk1.trans (Keeps.updateBlock (fun hne => absurd rfl hne) m1.freeBlocks)).trans (Keeps.tables _)
    exact ⟨hk2.total, hk2.size, hk2.config, fun c hc => hk2.tokens c hc.2, fun _ c hc => hk2.cells trivial c hc.2⟩
  · exact hz1

theorem fill_ends (ha : Accounts [] m) {t : BlockTable} (ht : m.sequenceTables.lookup id = some t)
    {pre : List BlockId} {last : BlockId} (hids : t.blockIds = pre ++ [last])
    (hsh : (m.blocks last).isShared = false) (hroom : (m.blocks last).numTokens < m.blockSize) :
    Outcome.Ends N
      (fun r m' => Accounts [] m' ∧ ∃ ids pre n n', Appended h id r.1 r.2.1 ids pre n n' m m')
      (fun _ _ => False)
      ((do
        updateBlock last fun b => { b with numTokens := b.numTokens + 1 }
        updateTable id fun t => { t with totalTokens := t.totalTokens + 1 }
        pure (last, (m.blocks last).numTokens, none) :
          Prog AienKvManager String (BlockId × Nat × Option Fence)) m) := by
  have hmem : last ∈ t.blockIds := by rw [hids]; simp
  have hlr : last < m.totalBlocks := ha.range last (ha.live_of_table ht hmem)
  have hnd := ha.nodup id t ht
  have ha1 := ha.updateTokens hlr { m.blocks last with numTokens := (m.blocks last).numTokens + 1 } rfl rfl
  rw [ends_bind, ends_updateBlock hlr, ends_bind, ends_updateTable (by exact ht)]
  refine ⟨ha1.replace _ _ ht (List.Perm.refl _) hnd, t.blockIds, pre, t.totalTokens, t.totalTokens + 1, ?_⟩
  refine ⟨view_of_lookup ht, ?_, ?_, ?_, ?_, ?_, Or.inr ⟨last, hids, rfl, hroom, rfl, fun _ => rfl⟩⟩
  · refine (view_insert (m := { m with blocks := _ })).trans ?_
    rw [← hids]
    rfl
  · simp
  · rw [hids] at hnd
    exact fun hm => (List.nodup_append.1 hnd).2.2 last hm last (by simp) rfl
  · intro id' ids' k hne hv hm
    obtain ⟨t', ht', rfl, -⟩ := lookup_of_view hv
    exact hne (ha.unique_of_not_shared hsh ht' hm ht hmem)
  · exact (Keeps.updateBlock (fun hl => absurd rfl hl.2) _).trans (Keeps.tables _)

/-- The append of a token to a shared tail with room: the copy takes the tail's place. -/
theorem copy_ends {copy : BlockId → BlockId → Prog AienKvManager String (Option Fence)} (hcopy : CopyEnds h N copy)
    (ha : Accounts [] m) (hN : Covers N m) {t : BlockTable} (ht : m.sequenceTables.lookup id = some t)
    {pre : List BlockId} {last : BlockId} (hids : t.blockIds = pre ++ [last])
    (hsh : (m.blocks last).isShared = true) (hroom : (m.blocks last).numTokens < m.blockSize) :
    Outcome.Ends N
      (fun r m' => Accounts [] m' ∧ ∃ ids pre n n', Appended h id r.1 r.2.1 ids pre n n' m m')
      (fun _ m' => Accounts [] m' ∧ m'.view = m.view ∧ Keeps h m.Live m m')
      ((do
        let newBlk ← allocateBlock
        let fence ← copy last newBlk
        let slot ← replaceTail id (t.blockIds.length - 1) last newBlk
        pure (newBlk, slot, fence) : Prog AienKvManager String (BlockId × Nat × Option Fence)) m) := by
  have hmem : last ∈ t.blockIds := by rw [hids]; simp
  have hlr : last < m.totalBlocks := ha.range last (ha.live_of_table ht hmem)
  have hnd := ha.nodup id t ht
  have hrefs2 := (ha.shared last).1 hsh
  rw [ends_bind]
  refine (allocateBlock_ends ha hN).mono ?_ ?_
  swap
  · rintro _ m' ⟨rfl, -⟩
    exact ⟨ha, rfl, Keeps.refl⟩
  rintro b m1 ⟨ha1, ht1, hf1, hk1, hb1, hz1⟩
  have hdead : ¬ m.Live b := ha.not_live_of_free (by rw [hf1]; exact List.mem_cons_self)
  have hbl : b ≠ last := by
    rintro rfl
    exact hdead (ha.live_of_table ht hmem)
  have hk1' : Keeps h (fun c => m.Live c ∧ c ≠ b) m m1 :=
    ⟨hk1.total, hk1.size, hk1.config, fun c hc => hk1.tokens c hc.2, fun _ c hc => hk1.cells trivial c hc.2⟩
  rw [ends_bind]
  refine (hcopy [] m1 last b ha1 (hN.keeps hk1) (by rw [hk1.total]; exact hlr) (by rw [hb1]; simp)
    (by rw [hb1]; simp)).mono ?_ ?_
  swap
  · rintro _ m2 ⟨ha2, ht2, hk2⟩
    refine ⟨ha2, view_eq_of_tables (ht2.trans ht1), ?_⟩
    have hne : ∀ c, m.Live c → c ≠ b := fun c hc he => hdead (he ▸ hc)
    exact (hk1'.mono fun c hc => ⟨hc, hne c hc⟩).trans (hk2.mono hne)
  rintro fence m2 ⟨ha2, ht2, hb2, hk2, hcell⟩
  have hlr2 : last < m2.totalBlocks := by rw [hk2.total, hk1.total]; exact hlr
  have hbr2 : b < m2.totalBlocks := ha2.range b (ha2.live_of_held List.mem_cons_self)
  have ht2' : m2.sequenceTables.lookup id = some t := by rw [ht2, ht1, ht]
  have hlast2 : m2.blocks last = m.blocks last := by rw [hb2, hb1, Function.update_of_ne hbl.symm]
  have hbb2 : m2.blocks b = { m.blocks b with refCount := 1, numTokens := 0, isShared := false } := by
    rw [hb2, hb1, Function.update_self]
  have hset : t.blockIds.set (t.blockIds.length - 1) b = pre ++ [b] := by
    rw [hids, List.length_append, List.length_singleton, Nat.add_sub_cancel, List.set_append_right _ _ (Nat.le_refl _),
      Nat.sub_self, List.set_cons_zero]
  have hpre : b ∉ pre := fun hm => hdead (ha.live_of_table ht (by rw [hids]; exact List.mem_append_left _ hm))
  have hndset : (t.blockIds.set (t.blockIds.length - 1) b).Nodup := by
    rw [hset]
    rw [hids] at hnd
    refine List.nodup_append.2 ⟨(List.nodup_append.1 hnd).1, by simp, ?_⟩
    rintro x hx y hy rfl
    rw [List.mem_singleton.1 hy] at hx
    exact hpre hx
  unfold replaceTail
  rw [ends_bind, ends_bind, ends_block hlr2, if_neg (by rw [hlast2]; omega), ends_bind, ends_updateBlock hlr2, ends_bind,
    ends_updateBlock (by exact hbr2), ends_bind, ends_updateTable (by exact ht2'), ends_pure, ends_pure]
  -- the table first: the accounts then release the old tail from the credit
  have ha3 := ha2.replace
    { t with blockIds := t.blockIds.set (t.blockIds.length - 1) b, totalTokens := t.totalTokens + 1 } [last] ht2'
    (by
      rw [hset, hids, List.append_assoc, List.append_assoc]
      exact (List.Perm.swap _ _ _).append_left pre)
    hndset
  have ha4 := ha3.update (b := last) []
    { m2.blocks last with
      refCount := (m2.blocks last).refCount - 1,
      isShared := if (m2.blocks last).refCount - 1 = 1 then false else (m2.blocks last).isShared }
    m2.freeBlocks
    (by
      have := ha3.refs last
      rw [List.count_singleton_self] at this
      rw [List.count_nil]
      dsimp only at this ⊢
      omega)
    (by
      rw [hlast2, hsh]
      dsimp only
      split_ifs <;> simp <;> omega)
    (fun c hc => by simp [Ne.symm hc]) hlr2 ha3.freeNodup
    (by
      intro c
      by_cases hc : c = last
      · subst hc
        have hnf := fun hf => ha3.not_live_of_free (b := c) hf (ha3.live_of_held List.mem_cons_self)
        have h2 : ¬ (m2.blocks c).refCount - 1 = 0 := by rw [hlast2]; omega
        simpa [h2] using hnf
      · rw [if_neg hc])
  refine ⟨ha4.updateTokens hbr2 _ rfl ?_, t.blockIds, pre, t.totalTokens, t.totalTokens + 1, ?_⟩
  · change false = (Function.update m2.blocks last _ b).isShared
    rw [Function.update_of_ne hbl, hbb2]
  refine ⟨view_of_lookup ht, ?_, ?_, hpre, ?_, ?_,
    Or.inr ⟨last, hids, by rw [hlast2], by rw [hlast2]; exact hroom, rfl, fun hh => ?_⟩⟩
  · refine (view_insert (m := { m2 with blocks := _ })).trans ?_
    rw [← hset, ← view_eq_of_tables (ht2.trans ht1)]
    rfl
  · simp
  · intro id' ids' k _ hv hm
    obtain ⟨t', ht', rfl, -⟩ := lookup_of_view hv
    exact hdead (ha.live_of_table ht' hm)
  · refine (hk1'.trans (hk2.mono fun c hc => hc.2)).trans (Keeps.trans ?_ (Keeps.tables _))
    exact (Keeps.updateBlock (m := m2) (b := last) (fun _ => by rfl) m2.freeBlocks).trans
      (Keeps.updateBlock (fun hc => absurd rfl hc.2) m2.freeBlocks)
  · exact (hcell hh).trans (hk1.cells trivial last hbl.symm)

theorem appendWith_ends {copy : BlockId → BlockId → Prog AienKvManager String (Option Fence)}
    (hcopy : CopyEnds h N copy) (ha : Accounts [] m) (hN : Covers N m) (id : UInt64) :
    (appendWith copy id m).Ends N
      (fun r m' => Accounts [] m' ∧ ∃ ids pre n n', Appended h id r.1 r.2.1 ids pre n n' m m')
      (fun _ m' => Accounts [] m' ∧ m'.view = m.view ∧ Keeps h m.Live m m') := by
  unfold appendWith
  rw [ends_bind, ends_get, ends_bind]
  cases ht : m.sequenceTables.lookup id with
  | none => exact ⟨ha, rfl, Keeps.refl⟩
  | some t =>
    rw [ends_orFail_some]
    cases hlast : t.blockIds.getLast? with
    | none =>
      have hnil : t.blockIds = [] := List.getLast?_eq_none_iff.1 hlast
      exact grow_ends ha hN ht (fun _ => ⟨rfl, rfl⟩) (fun _ => ⟨rfl, rfl, fun hs => hs⟩) (Or.inl ⟨hnil, rfl⟩)
    | some last =>
      obtain ⟨pre, hids⟩ := List.getLast?_eq_some_iff.1 hlast
      have hlr : last < m.totalBlocks := ha.range last (ha.live_of_table ht (by rw [hids]; simp))
      dsimp only
      rw [ends_bind, ends_block hlr]
      split_ifs with hsh hroom hroom
      · exact copy_ends hcopy ha hN ht hids hsh hroom
      · exact grow_ends ha hN ht (fun _ => ⟨rfl, rfl⟩) (fun _ => ⟨rfl, rfl, fun _ => rfl⟩)
          (Or.inr ⟨last, hlast, Nat.le_of_not_lt hroom, rfl⟩)
      · exact (fill_ends ha ht hids (by simpa using hsh) hroom).mono (fun _ _ hq => hq) (fun _ _ hf => hf.elim)
      · exact grow_ends ha hN ht (fun _ => ⟨rfl, rfl⟩) (fun _ => ⟨rfl, rfl, fun hs => hs⟩)
          (Or.inr ⟨last, hlast, Nat.le_of_not_lt hroom, rfl⟩)

theorem copyOnHost_ends : CopyEnds True N copyOnHost := by
  intro held m src dst ha hN hsrc _ _
  have hdst : dst < m.totalBlocks := ha.range dst (ha.live_of_held List.mem_cons_self)
  unfold copyOnHost countFault
  rw [ends_bind, ends_modify, ends_bind]
  apply ends_onPool
  · exact hN.imp_right fun hcov p hp =>
      UnifiedKvTensorPool.copyBlock_isSome (Nat.lt_of_lt_of_le hsrc (hcov p hp)) (Nat.lt_of_lt_of_le hdst (hcov p hp))
  · intro hp
    refine ⟨ha.congr rfl rfl rfl rfl, rfl, rfl, ⟨rfl, rfl, rfl, fun _ _ => rfl, fun _ _ _ => rfl⟩, fun _ => ?_⟩
    funext l t
    unfold cell
    dsimp only at hp ⊢
    rw [hp]
    rfl
  · intro p p' hp hz
    have hc := UnifiedKvTensorPool.config_copyBlock hz
    have hp : m.tensorPool = some p := hp
    -- each row of the new pool, block by block
    have hrow : ∀ b c, (∀ l t, l < p.config.numLayers → t < p.config.blockSize → p'.row b l t = p.row c l t) →
        cell { m with cowFaults := m.cowFaults + 1, tensorPool := some p' } b = m.cell c := by
      intro b c hbc
      funext l t
      unfold cell
      simp only [hp, Option.bind_some, hc]
      split
      · rename_i hlt
        rw [hbc l t hlt.1 hlt.2]
      · rfl
    refine ⟨ha.congr rfl rfl rfl rfl, rfl, rfl, ⟨rfl, rfl, by simp [hp, hc], fun _ _ => rfl, fun _ b hb => ?_⟩,
      fun _ => ?_⟩
    · exact hrow b b fun l t hl ht => (UnifiedKvTensorPool.row_copyBlock hz hl ht).2 b hb
    · exact hrow dst src fun l t hl ht => (UnifiedKvTensorPool.row_copyBlock hz hl ht).1

theorem copyOnDevice_ends (device : MemoryDevice) : CopyEnds False N (copyOnDevice device) := by
  intro held m src dst ha hN hsrc hone hsh
  have hdst : dst < m.totalBlocks := ha.range dst (ha.live_of_held List.mem_cons_self)
  unfold copyOnDevice countFault
  rw [ends_bind, ends_get]
  cases hp : m.tensorPool with
  | none =>
    dsimp only
    rw [ends_bind, ends_modify]
    exact ⟨ha.congr rfl rfl rfl rfl, rfl, rfl, ⟨rfl, rfl, rfl, fun _ _ => rfl, fun hf => hf.elim⟩, fun hf => hf.elim⟩
  | some p =>
    dsimp only
    rw [ends_bind]
    cases hd : p.copyBlockDevice device src dst with
    | none =>
      refine hN.resolve_right fun hcov => ?_
      have hcov := hcov p hp
      simp [UnifiedKvTensorPool.copyBlockDevice, UnifiedKvTensorPool.blockRegion,
        KvLayout.blockOffset_eq p.strides (Nat.lt_of_lt_of_le hsrc hcov),
        KvLayout.blockOffset_eq p.strides (Nat.lt_of_lt_of_le hdst hcov)] at hd
    | some r =>
      obtain ⟨answer, p'⟩ := r
      have hc : p'.config = p.config := by
        simp only [UnifiedKvTensorPool.copyBlockDevice, Option.bind_eq_bind, Option.bind_eq_some_iff, Option.pure_def,
          Option.some.injEq, Prod.mk.injEq] at hd
        obtain ⟨_, _, _, _, _, rfl⟩ := hd
        rfl
      have hk : ∀ faults, Keeps False (· ≠ dst) m { m with tensorPool := some p', cowFaults := faults } :=
        fun _ => ⟨rfl, rfl, by simp [hp, hc], fun _ _ => rfl, fun hf => hf.elim⟩
      rw [ends_unwrap_some, ends_bind, ends_set]
      cases answer with
      | ok fence =>
        dsimp only
        rw [ends_bind, ends_modify]
        exact ⟨ha.congr rfl rfl rfl rfl, rfl, rfl, hk _, fun hf => hf.elim⟩
      | error e =>
        dsimp only
        rw [ends_bind, ends_updateBlock (by exact hdst), ends_bind, ends_modify, ends_fail]
        have hlive := ha.live_of_held (b := dst) List.mem_cons_self
        have hacc := ha.update (b := dst) held { m.blocks dst with refCount := 0 } (dst :: m.freeBlocks)
          (by
            have := ha.refs dst
            rw [List.count_cons_self, hone] at this
            dsimp only
            omega)
          (by simp [hsh]) (fun c hne => (List.count_cons_of_ne (Ne.symm hne)).symm) hdst
          (List.nodup_cons.2 ⟨fun hm => ha.not_live_of_free hm hlive, ha.freeNodup⟩)
          (by
            intro c
            by_cases hcd : c = dst
            · subst hcd
              simp
            · simp [hcd])
        exact ⟨hacc.congr rfl rfl rfl rfl, rfl,
          (hk m.cowFaults).trans (Keeps.updateBlock (fun hne => absurd rfl hne) (dst :: m.freeBlocks))⟩

theorem appendTokenWithSlot_ends (ha : Accounts [] m) (hN : Covers N m) (id : UInt64) :
    (appendTokenWithSlot id m).Ends N
      (fun r m' => Accounts [] m' ∧ ∃ ids pre n n', Appended True id r.1 r.2 ids pre n n' m m')
      (fun _ m' => Accounts [] m' ∧ m'.view = m.view ∧ Keeps True m.Live m m') := by
  unfold appendTokenWithSlot
  rw [ends_bind]
  exact (appendWith_ends copyOnHost_ends ha hN id).mono (fun _ _ hq => hq) (fun _ _ hq => hq)

theorem appendTokenWithSlotDevice_ends (device : MemoryDevice) (ha : Accounts [] m) (hN : Covers N m) (id : UInt64) :
    (appendTokenWithSlotDevice device id m).Ends N
      (fun r m' => Accounts [] m' ∧ ∃ ids pre n n', Appended False id r.1 r.2.1 ids pre n n' m m')
      (fun _ m' => Accounts [] m' ∧ m'.view = m.view ∧ Keeps False m.Live m m') :=
  appendWith_ends (copyOnDevice_ends device) ha hN id

end Append

/-! ## Truncation -/

section Truncate
variable {N : Prop} {held : List BlockId} {m : AienKvManager} {b : BlockId} {id : UInt64}

theorem forM_checkPrivate_ends {touched : List BlockId} (hrange : ∀ b ∈ touched, b < m.totalBlocks) :
    (touched.forM (checkPrivate id) m).Ends N
      (fun _ m' => m' = m ∧ ∀ b ∈ touched, (m.blocks b).isShared = false ∧ (m.blocks b).refCount ≤ 1)
      (fun _ m' => m' = m) := by
  let I : List BlockId → AienKvManager → Prop := fun rest m' => m' = m ∧ (∀ b ∈ rest, b ∈ touched) ∧
    ∀ b ∈ touched, b ∈ rest ∨ ((m.blocks b).isShared = false ∧ (m.blocks b).refCount ≤ 1)
  refine (ends_forM I ?_ touched m ⟨rfl, fun _ h => h, fun _ h => Or.inl h⟩).mono ?_ (fun _ _ h => h)
  · rintro b rest m1 ⟨rfl, hsub, hdone⟩
    unfold checkPrivate
    rw [ends_bind, ends_block (hrange b (hsub b List.mem_cons_self))]
    split_ifs with hsh
    · rfl
    simp only [Bool.or_eq_true, decide_eq_true_eq, not_or, Bool.not_eq_true, Nat.not_lt] at hsh
    refine ⟨rfl, fun c hc => hsub c (List.mem_cons_of_mem b hc), fun c hc => ?_⟩
    rcases hdone c hc with hc | hc
    · rcases List.mem_cons.1 hc with rfl | hc
      · exact Or.inr hsh
      · exact Or.inl hc
    · exact Or.inr hc
  · rintro _ m' ⟨rfl, -, hdone⟩
    exact ⟨rfl, fun b hb => (hdone b hb).resolve_left (by simp)⟩

theorem dropBlock_ends {ε : Type} (ha : Accounts (b :: held) m) (hone : (m.blocks b).refCount ≤ 1) :
    ((dropBlock b : Prog AienKvManager ε Unit) m).Ends N
      (fun _ m' => Accounts held m' ∧ m'.sequenceTables = m.sequenceTables ∧ Keeps True m'.Live m m' ∧
        ∀ c, (m'.blocks c).refCount ≤ (m.blocks c).refCount)
      (fun _ _ => False) := by
  have hlive := ha.live_of_held (b := b) List.mem_cons_self
  have hrange := ha.range b hlive
  have hnot : b ∉ m.freeBlocks := fun hm => ha.not_live_of_free hm hlive
  have hrefs := ha.refs b
  rw [List.count_cons_self] at hrefs
  unfold dropBlock
  rw [ends_bind, ends_updateBlock hrange, ends_modify]
  refine ⟨ha.update _ _ _ ?_ (by simp) (fun c hc => (List.count_cons_of_ne (Ne.symm hc)).symm) hrange
    (List.nodup_cons.2 ⟨hnot, ha.freeNodup⟩) fun c => ?_, rfl, Keeps.updateBlock ?_ _, fun c => ?_⟩
  · dsimp only
    omega
  · by_cases hc : c = b
    · subst hc
      simp
    · simp [hc]
  · intro hb
    unfold Live at hb
    simp at hb
  · by_cases hc : c = b
    · subst hc
      simp
    · simp [Function.update_of_ne hc]

theorem forM_dropBlock_ends {ε : Type} {ids : List BlockId} (ha : Accounts ids m)
    (hone : ∀ b ∈ ids, (m.blocks b).refCount ≤ 1) :
    ((ids.forM dropBlock : Prog AienKvManager ε Unit) m).Ends N
      (fun _ m' => Accounts [] m' ∧ m'.sequenceTables = m.sequenceTables ∧ Keeps True m'.Live m m' ∧
        ∀ c, (m'.blocks c).refCount ≤ (m.blocks c).refCount)
      (fun _ _ => False) := by
  let I : List BlockId → AienKvManager → Prop := fun rest m' => Accounts rest m' ∧
    m'.sequenceTables = m.sequenceTables ∧ Keeps True m'.Live m m' ∧
    (∀ c, (m'.blocks c).refCount ≤ (m.blocks c).refCount) ∧ ∀ b ∈ rest, b ∈ ids
  refine (ends_forM I ?_ ids m ⟨ha, rfl, Keeps.refl, fun _ => Nat.le_refl _, fun _ h => h⟩).mono ?_ (fun _ _ h => h)
  · rintro b rest m1 ⟨ha1, ht1, hk1, hle1, hsub⟩
    have hb : (m1.blocks b).refCount ≤ 1 := (hle1 b).trans (hone b (hsub b List.mem_cons_self))
    refine (dropBlock_ends ha1 hb).mono ?_ (fun _ _ h => h)
    rintro _ m2 ⟨ha2, ht2, hk2, hle2⟩
    have hl2 : ∀ c, m2.Live c → m1.Live c := fun c hc => Nat.lt_of_lt_of_le hc (hle2 c)
    exact ⟨ha2, ht2.trans ht1, (hk1.mono hl2).trans hk2, fun c => (hle2 c).trans (hle1 c),
      fun c hc => hsub c (List.mem_cons_of_mem b hc)⟩
  · rintro _ m' ⟨ha', ht', hk', hle', -⟩
    exact ⟨ha', ht', hk', hle'⟩

/-- A cut of a table: the blocks past it are gone, and the last kept block, which no other table lists unless the cut
is at its end, holds what is left. -/
structure Truncated (id : UInt64) (ids : List BlockId) (n newTotal : Nat) (m m' : AienKvManager) : Prop where
  before : m.view id = some (ids, n)
  shorter : newTotal < n
  after : m'.view = Function.update m.view id (some (ids.take (newTotal ⌈/⌉ m.blockSize), newTotal))
  tail : ∀ b, 0 < newTotal ⌈/⌉ m.blockSize → ids[newTotal ⌈/⌉ m.blockSize - 1]? = some b →
    (m'.blocks b).numTokens = newTotal - (newTotal ⌈/⌉ m.blockSize - 1) * m.blockSize ∧
      (newTotal % m.blockSize = 0 ∨ ∀ id' ids' k, id' ≠ id → m.view id' = some (ids', k) → b ∉ ids')
  keeps : Keeps True (fun c => m'.Live c ∧ ∀ b, 0 < newTotal ⌈/⌉ m.blockSize →
    ids[newTotal ⌈/⌉ m.blockSize - 1]? = some b → c ≠ b) m m'
  cells : ∀ c, m'.Live c → m'.cell c = m.cell c

theorem shrinkTail_ends {ε : Type} (ha : Accounts [] m) {kept : List BlockId} {keep n : Nat}
    (hin : 0 < keep → ∃ b, kept[keep - 1]? = some b ∧ b < m.totalBlocks) :
    ((shrinkTail kept keep n : Prog AienKvManager ε Unit) m).Ends N
      (fun _ m' => Accounts [] m' ∧ m'.sequenceTables = m.sequenceTables ∧
        (∀ c, (m'.blocks c).refCount = (m.blocks c).refCount) ∧ m'.cell = m.cell ∧
        (∀ b, 0 < keep → kept[keep - 1]? = some b → (m'.blocks b).numTokens = n) ∧
        Keeps True (fun c => ∀ b, 0 < keep → kept[keep - 1]? = some b → c ≠ b) m m')
      (fun _ _ => False) := by
  unfold shrinkTail
  split_ifs with hk
  · obtain ⟨b, hb, hbr⟩ := hin hk
    rw [ends_bind, hb, ends_unwrap_some, ends_updateBlock hbr]
    refine ⟨ha.updateTokens hbr _ rfl rfl, rfl, fun c => ?_, rfl, fun c _ hc => ?_, Keeps.updateBlock ?_ m.freeBlocks⟩
    · by_cases hc : c = b
      · subst hc
        simp
      · simp [Function.update_of_ne hc]
    · cases hc
      simp
    · exact fun hne => absurd rfl (hne b hk rfl)
  · exact ⟨ha, rfl, fun _ => rfl, rfl, fun b hpos => absurd hpos hk, Keeps.refl⟩

theorem truncateSequence_ends (ha : Accounts [] m) (hbs : 0 < m.blockSize)
    (hlen : ∀ ids n, m.view id = some (ids, n) → n ⌈/⌉ m.blockSize ≤ ids.length) (newTotal : Nat) :
    (truncateSequence id newTotal m).Ends N
      (fun _ m' => Accounts [] m' ∧ ((m' = m ∧ ∃ ids, m.view id = some (ids, newTotal)) ∨
        ∃ ids n, Truncated id ids n newTotal m m'))
      (fun _ m' => m' = m) := by
  unfold truncateSequence
  rw [ends_bind, ends_get, ends_bind]
  cases ht : m.sequenceTables.lookup id with
  | none => rfl
  | some t =>
    rw [ends_orFail_some]
    split_ifs with hpast heq
    · rfl
    · exact ⟨ha, Or.inl ⟨rfl, t.blockIds, by rw [view_of_lookup ht, heq]⟩⟩
    dsimp only
    rw [ends_bind, ends_divCeil hbs]
    have hshort : newTotal < t.totalTokens := by omega
    have hkeep : newTotal ⌈/⌉ m.blockSize ≤ t.blockIds.length :=
      ((gc_smul_ceilDiv hbs).monotone_l (Nat.le_of_lt hshort)).trans (hlen _ _ (view_of_lookup ht))
    set keep := newTotal ⌈/⌉ m.blockSize with hkeepdef
    set first := if newTotal % m.blockSize = 0 then keep else keep - 1 with hfirst
    have hfk : first ≤ keep := by
      rw [hfirst]
      split_ifs <;> omega
    rw [Nat.min_eq_left hkeep, Nat.min_eq_left (hfk.trans hkeep)]
    have hlive : ∀ b ∈ t.blockIds, b < m.totalBlocks := fun b hb => ha.range b (ha.live_of_table ht hb)
    rw [ends_bind]
    refine (forM_checkPrivate_ends fun b hb => hlive b (List.mem_of_mem_drop hb)).mono ?_ (fun _ _ h => h)
    rintro _ m0 ⟨hm0, hpriv⟩
    rw [hm0]
    have htake : ∀ b, 0 < keep → ((t.blockIds.take keep)[keep - 1]? = some b ↔ t.blockIds[keep - 1]? = some b) := by
      intro b hpos
      rw [List.getElem?_take_of_lt (by omega)]
    rw [ends_bind]
    refine (shrinkTail_ends ha ?_).mono ?_ (fun _ _ h => h.elim)
    · intro hpos
      have hlt : keep - 1 < t.blockIds.length := by omega
      exact ⟨t.blockIds[keep - 1], (htake _ hpos).2 (List.getElem?_eq_getElem hlt), hlive _ (List.getElem_mem hlt)⟩
    rintro _ m1 ⟨ha1, ht1, hrefs1, hcell1, htail1, hk1⟩
    have ht1' : m1.sequenceTables.lookup id = some t := by rw [ht1, ht]
    have ha2 := ha1.replace { t with blockIds := t.blockIds.take keep, totalTokens := newTotal }
      (t.blockIds.drop keep) ht1'
      (by rw [List.append_nil, List.take_append_drop]) ((ha.nodup id t ht).sublist (List.take_sublist _ _))
    rw [ends_bind, ends_updateTable ht1', ends_bind]
    have hdrop : ∀ b ∈ t.blockIds.drop keep, b ∈ t.blockIds.drop first := by
      intro b hb
      rw [← Nat.add_sub_cancel' hfk, ← List.drop_drop] at hb
      exact List.mem_of_mem_drop hb
    refine (forM_dropBlock_ends ha2 fun b hb => ?_).mono ?_ (fun _ _ h => h.elim)
    · dsimp only
      rw [hrefs1]
      exact (hpriv b (hdrop b hb)).2
    rintro _ m3 ⟨ha3, ht3, hk3, hle3⟩
    have hview : m3.view = Function.update m.view id (some (t.blockIds.take keep, newTotal)) := by
      rw [view_eq_of_tables ht3, view_insert, view_eq_of_tables ht1]
    have htail : ∀ b, 0 < keep → t.blockIds[keep - 1]? = some b → m3.Live b := by
      intro b hpos hb
      have hv := congrFun hview id
      rw [Function.update_self] at hv
      obtain ⟨t', ht', hids', -⟩ := lookup_of_view hv
      refine ha3.live_of_table ht' ?_
      rw [hids']
      exact List.mem_of_getElem? ((htake b hpos).2 hb)
    -- the cached prefixes of freed blocks are dropped last
    have hcut : Truncated id t.blockIds t.totalTokens newTotal m m3 := by
      refine ⟨view_of_lookup ht, hshort, hview, ?_, ?_, ?_⟩
      · intro b hpos hb
        refine ⟨?_, ?_⟩
        · rw [hk3.tokens b (htail b hpos hb)]
          exact htail1 b hpos ((htake b hpos).2 hb)
        · by_cases hmod : newTotal % m.blockSize = 0
          · exact Or.inl hmod
          · right
            intro id' ids' k hne hv hm
            have hmem : b ∈ t.blockIds.drop first := by
              rw [hfirst, if_neg hmod]
              have hlt : keep - 1 < t.blockIds.length := by omega
              rw [List.getElem?_eq_getElem hlt] at hb
              cases hb
              exact List.mem_drop_iff_getElem.2 ⟨0, by omega, by simp⟩
            obtain ⟨t', ht', rfl, -⟩ := lookup_of_view hv
            exact hne (ha.unique_of_not_shared (hpriv b hmem).1 ht' hm ht (List.mem_of_mem_drop hmem))
      · have hk12 := (hk1.trans (Keeps.tables (m1.sequenceTables.insert id
          { t with blockIds := t.blockIds.take keep, totalTokens := newTotal }))).mono (C := fun c => m3.Live c ∧
            ∀ b, 0 < keep → t.blockIds[keep - 1]? = some b → c ≠ b)
              fun c hc b hpos hb => hc.2 b hpos ((htake b hpos).1 hb)
        exact hk12.trans (hk3.mono fun c hc => hc.1)
      · exact fun c hc => (hk3.cells trivial c hc).trans (congrFun hcell1 c)
    unfold dropCached
    split_ifs
    · exact ⟨ha3, Or.inr ⟨_, _, hcut⟩⟩
    · rw [ends_modify]
      exact ⟨ha3.congr rfl rfl rfl rfl, Or.inr ⟨_, _, hcut.before, hcut.shorter, hcut.after, hcut.tail,
        hcut.keeps.trans ⟨rfl, rfl, rfl, fun _ _ => rfl, fun _ _ _ => rfl⟩, hcut.cells⟩⟩

end Truncate

end SovereignCore.Kv.AienKvManager
