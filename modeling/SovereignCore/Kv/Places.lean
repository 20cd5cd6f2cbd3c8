import SovereignCore.Kv.Appends
import SovereignCore.Kv.Refine

/-!
# Where the tokens of a sequence are

* `place m s p`, `rowAt m s p` : the block and the slot of token `p` of sequence `s`, and the rows found there;
* `Used blocks b t` : slot `t` of block `b` holds a token of some table;
* `StaysLive` : a call that frees no block; `appendTokenWithSlot_live` : an append does not;
* `Appended.in_place`, `Appended.shared_tail` : an append lands on the sequence's own tail, or leaves it to other tables;
* `Appended.rowAt_eq` : it moves no row.
-/

namespace SovereignCore.Kv

open AienKvManager Prog

/-- What a reader finds in a place, layer by layer. -/
abbrev Row : Type := Nat → Option (List F32 × List F32)

namespace AienKvManager
variable {m m' : AienKvManager} {id s : UInt64} {b : BlockId} {slot n n' p t : Nat} {ids pre : List BlockId}

def tokens (m : AienKvManager) (s : UInt64) : Option Nat := (m.view s).map Prod.snd

/-- Where token `p` of a sequence is. -/
def place (m : AienKvManager) (s : UInt64) (p : Nat) : Option (BlockId × Nat) :=
  (m.view s).bind fun v => v.1[p / m.blockSize]?.map fun b => (b, p % m.blockSize)

/-- What a sequence reads at token `p`. -/
def rowAt (m : AienKvManager) (s : UInt64) (p : Nat) : Option Row :=
  (m.place s p).map fun q => contents m q.1 q.2

def Used (blocks : BlockId → KvBlock) (b : BlockId) (t : Nat) : Prop :=
  0 < (blocks b).refCount ∧ t < (blocks b).numTokens

theorem Inv.place_some (hi : Inv m) (hn : m.tokens s = some n) (hp : p < n) :
    ∃ ids b, m.view s = some (ids, n) ∧ ids[p / m.blockSize]? = some b ∧ m.place s p = some (b, p % m.blockSize) ∧
      Used m.blocks b (p % m.blockSize) := by
  obtain ⟨⟨ids, _⟩, hv, rfl⟩ := Option.map_eq_some_iff.1 hn
  have hf := hi.shape s ids _ hv
  have hlt : p / m.blockSize < ids.length := by
    rw [hf.length]
    apply Nat.div_lt_of_lt_mul
    rw [Nat.mul_comm]
    exact Nat.lt_of_lt_of_le hp (le_ceilDiv_mul hi.size _)
  have hb := List.getElem?_eq_getElem hlt
  refine ⟨ids, ids[p / m.blockSize], hv, hb, ?_, hi.accounts.live_of_view hv (List.getElem_mem hlt), ?_⟩
  · unfold place
    rw [hv, Option.bind_some, hb]
    rfl
  · have hcount := hf.count _ _ hb
    unfold numTokens at hcount
    rw [hcount]
    have hmod := Nat.mod_lt p hi.size
    have hdiv := Nat.div_add_mod p m.blockSize
    rw [Nat.mul_comm] at hdiv
    dsimp only at hp ⊢
    omega

theorem Accounts.in_table (ha : Accounts [] m) (hb : m.Live b) : ∃ s ids n, m.view s = some (ids, n) ∧ b ∈ ids := by
  unfold Live at hb
  have hrefs := ha.refs b
  rw [List.count_nil, Nat.add_zero] at hrefs
  rw [hrefs] at hb
  obtain ⟨s, tab, ht, hmem⟩ := exists_of_listed_pos hb
  exact ⟨s, tab.blockIds, tab.totalTokens, view_of_lookup ht, hmem⟩

/-! ## An append among tables -/

def StaysLive (m m' : AienKvManager) : Prop := ∀ c, m.Live c → m'.Live c

instance : Steady StaysLive where
  refl _ := fun _ h => h
  trans h h' := fun c hc => h' c (h c hc)

section Live
variable {ε : Type}

theorem updateBlock_live (b : BlockId) {f : KvBlock → KvBlock} (hf : ∀ blk, 0 < blk.refCount → 0 < (f blk).refCount) :
    Within StaysLive (updateBlock b f : Prog AienKvManager ε Unit) := by
  unfold updateBlock
  refine within_get fun m => ?_
  split_ifs
  · intro c hc
    show 0 < (Function.update m.blocks b _ c).refCount
    by_cases hcb : c = b
    · subst hcb
      rw [Function.update_self]
      exact hf _ hc
    · rw [Function.update_of_ne hcb]
      exact hc
  · exact trivial

theorem updateTable_live (id : UInt64) (f : BlockTable → BlockTable) :
    Within StaysLive (updateTable id f : Prog AienKvManager ε Unit) := by
  unfold updateTable
  refine within_get fun m => ?_
  cases m.sequenceTables.lookup id with
  | none => exact trivial
  | some t => exact fun _ h => h

theorem allocateBlock_live (ha : Accounts [] m) :
    (allocateBlock m).Ends True (fun b m' => StaysLive m m' ∧ ¬ m.Live b ∧ b < m.totalBlocks ∧ m'.blocks = Function.update
      m.blocks b { m.blocks b with refCount := 1, numTokens := 0, isShared := false } ∧ m'.totalBlocks = m.totalBlocks)
      (fun _ _ => True) := by
  refine (allocateBlock_ends ha (Or.inl trivial)).mono ?_ fun _ _ _ => trivial
  rintro b m1 ⟨-, -, hf, hk, hb, -⟩
  have hfree : b ∈ m.freeBlocks := by rw [hf]; exact List.mem_cons_self
  refine ⟨fun c hc => ?_, ha.not_live_of_free hfree, ((ha.free b).1 hfree).1, hb, hk.total⟩
  unfold Live
  rw [hb]
  by_cases hcb : c = b
  · rw [hcb, Function.update_self]
    exact Nat.one_pos
  · rw [Function.update_of_ne hcb]
    exact hc

theorem grow_live (ha : Accounts [] m) {f : BlockId → BlockTable → BlockTable} {g : KvBlock → KvBlock}
    (hg : ∀ blk, 0 < blk.refCount → 0 < (g blk).refCount) :
    Outcome.Ends True (fun _ m' => StaysLive m m') (fun _ _ => True) ((do
      let newBlk ← allocateBlock
      updateTable id (f newBlk)
      updateBlock newBlk g
      pure (newBlk, 0, none) : Prog AienKvManager String (BlockId × Nat × Option Fence)) m) := by
  rw [ends_bind]
  refine (allocateBlock_live ha).mono ?_ fun _ _ _ => trivial
  rintro b m1 ⟨hl, -⟩
  have hrest : Within StaysLive (do
      updateTable id (f b)
      updateBlock b g
      pure (b, 0, none) : Prog AienKvManager String (BlockId × Nat × Option Fence)) :=
    within_bind (updateTable_live id _) fun _ => within_bind (updateBlock_live b hg) fun _ => within_pure _
  exact (hrest m1).mono (fun _ _ h => Steady.trans hl h) fun _ _ _ => trivial

theorem replaceTail_live {i : Nat} {last b : BlockId} (hlr : last < m.totalBlocks)
    (hlast : 1 < (m.blocks last).refCount) :
    (replaceTail id i last b m).Ends True (fun _ m' => StaysLive m m') (fun _ _ => True) := by
  unfold replaceTail
  rw [ends_bind, ends_block hlr, if_neg (by omega), ends_bind, ends_updateBlock hlr]
  have hfirst : StaysLive m { m with blocks := Function.update m.blocks last { m.blocks last with
      refCount := (m.blocks last).refCount - 1
      isShared := if (m.blocks last).refCount - 1 = 1 then false else (m.blocks last).isShared } } := by
    intro c hc
    show 0 < (Function.update m.blocks last _ c).refCount
    by_cases hcl : c = last
    · rw [hcl, Function.update_self]
      exact Nat.sub_pos_of_lt hlast
    · rw [Function.update_of_ne hcl]
      exact hc
  have hrest : Within StaysLive (do
      updateBlock b fun blk => { blk with numTokens := (m.blocks last).numTokens + 1, isShared := false }
      updateTable id fun t => { t with blockIds := t.blockIds.set i b, totalTokens := t.totalTokens + 1 }
      pure (m.blocks last).numTokens : Prog AienKvManager String Nat) :=
    within_bind (updateBlock_live b fun _ h => h) fun _ => within_bind (updateTable_live id _) fun _ => within_pure _
  exact (hrest _).mono (fun _ _ h => Steady.trans hfirst h) fun _ _ _ => trivial

/-- An append frees no block: a tail it copies away from is shared. -/
theorem appendTokenWithSlot_live (ha : Accounts [] m) (id : UInt64) :
    (appendTokenWithSlot id m).Ends True (fun _ m' => StaysLive m m') (fun _ _ => True) := by
  unfold appendTokenWithSlot appendWith
  rw [ends_bind, ends_bind, ends_get, ends_bind]
  cases ht : m.sequenceTables.lookup id with
  | none => exact trivial
  | some t =>
    rw [ends_orFail_some]
    refine Outcome.Ends.mono (?_ : Outcome.Ends True (fun _ m' => StaysLive m m') (fun _ _ => True) _) (fun _ _ hl => hl)
      fun _ _ _ => trivial
    cases hlast : t.blockIds.getLast? with
    | none => exact grow_live ha fun _ h => h
    | some last =>
      have hlive : m.Live last := ha.live_of_table ht (List.mem_of_getLast? hlast)
      dsimp only
      rw [ends_bind, ends_block (ha.range last hlive)]
      split_ifs with hsh hroom hroom
      · have hrefs := (ha.shared last).1 hsh
        rw [ends_bind]
        refine (allocateBlock_live ha).mono ?_ fun _ _ _ => trivial
        rintro b m1 ⟨hl1, hnew, hbm, hb1, htot⟩
        have hbl : last ≠ b := fun he => hnew (he ▸ hlive)
        have hlast1 : (m1.blocks last).refCount = (m.blocks last).refCount := by rw [hb1, Function.update_of_ne hbl]
        have hlr : last < m1.totalBlocks := by rw [htot]; exact ha.range last hlive
        have hbr : b < m1.totalBlocks := by rw [htot]; exact hbm
        rw [ends_bind]
        refine (copyOnHost_leaves m1 last b hlr hbr (Or.inl trivial)).mono ?_ fun _ _ _ => trivial
        rintro _ m2 ⟨htot2, -, hb2, -⟩
        have hl2 : StaysLive m m2 := fun c hc => by
          unfold Live
          rw [hb2]
          exact hl1 c hc
        rw [ends_bind]
        refine (replaceTail_live (by rw [htot2]; exact hlr) (by rw [hb2, hlast1]; exact hrefs)).mono ?_ fun _ _ _ => trivial
        exact fun _ _ hl3 => Steady.trans hl2 hl3
      · exact grow_live ha fun _ h => h
      · have hrest : Within StaysLive (do
            updateBlock last fun b => { b with numTokens := b.numTokens + 1 }
            updateTable id fun t => { t with totalTokens := t.totalTokens + 1 }
            pure (last, (m.blocks last).numTokens, none) :
              Prog AienKvManager String (BlockId × Nat × Option Fence)) :=
          within_bind (updateBlock_live last fun _ h => h) fun _ => within_bind (updateTable_live id _) fun _ =>
            within_pure _
        exact (hrest m).mono (fun _ _ h => h) fun _ _ _ => trivial
      · exact grow_live ha fun _ h => h

end Live

section Append

/-- An append that lands on a block in use lands on the tail, after its tokens. -/
theorem Appended.in_place (ha : Accounts [] m) (h : Appended True id b slot ids pre n n' m m') (hb : m.Live b) :
    ids = pre ++ [b] ∧ (m.blocks b).numTokens = slot ∧ m'.cell b = m.cell b := by
  obtain ⟨s, ids', k, hv, hmem⟩ := ha.in_table hb
  have hs : s = id := by
    by_contra hne
    exact h.exclusive s ids' k hne hv hmem
  subst hs
  rw [h.before] at hv
  cases hv
  rcases h.place with ⟨-, rfl, -⟩ | ⟨last, rfl, hslot, -, -, hcell⟩
  · exact absurd hmem h.fresh
  · rcases List.mem_append.1 hmem with hmem | hmem
    · exact absurd hmem h.fresh
    · obtain rfl := List.mem_singleton.1 hmem
      exact ⟨rfl, hslot, hcell trivial⟩

theorem Appended.cell_eq (ha : Accounts [] m) (h : Appended True id b slot ids pre n n' m m') {c : BlockId}
    (hc : m.Live c) : m'.cell c = m.cell c := by
  by_cases hcb : c = b
  · subst hcb
    exact (h.in_place ha hc).2.2
  · exact h.keeps.cells trivial c ⟨hc, hcb⟩

theorem Appended.contents_eq (ha : Accounts [] m) (h : Appended True id b slot ids pre n n' m m') {c : BlockId}
    (hc : m.Live c) : contents m' c = contents m c := by
  funext t l
  unfold contents
  rw [h.cell_eq ha hc]

theorem Appended.used (ha : Accounts [] m) (h : Appended True id b slot ids pre n n' m m') (hl : StaysLive m m')
    {c : BlockId} (hc : Used m.blocks c t) : Used m'.blocks c t := by
  refine ⟨hl c hc.1, ?_⟩
  by_cases hcb : c = b
  · subst hcb
    have hslot := (h.in_place ha hc.1).2.1
    rw [h.tokens]
    have := hc.2
    omega
  · rw [h.keeps.tokens c ⟨hc.1, hcb⟩]
    exact hc.2

theorem Appended.not_used (ha : Accounts [] m) (h : Appended True id b slot ids pre n n' m m') :
    ¬ Used m.blocks b slot := by
  intro hu
  have hslot := (h.in_place ha hu.1).2.1
  have := hu.2
  omega

theorem Appended.shared_tail (ha : Accounts [] m) (ha' : Accounts [] m') (h : Appended True id b slot ids pre n n' m m')
    (hl : StaysLive m m') {last : BlockId} (hids : ids = pre ++ [last]) (hne : last ≠ b) :
    ∃ s ids' k, s ≠ id ∧ m.view s = some (ids', k) ∧ last ∈ ids' := by
  have hlast : last ∈ ids := by rw [hids]; simp
  obtain ⟨s, ids', k, hv, hmem⟩ := ha'.in_table (hl last (ha.live_of_view h.before hlast))
  rw [h.after] at hv
  by_cases hs : s = id
  · rw [hs, Function.update_self] at hv
    cases hv
    rcases List.mem_append.1 hmem with hmem | hmem
    · -- a block stands once in its table
      obtain ⟨tab, ht, hb, -⟩ := lookup_of_view h.before
      have hnd := ha.nodup id tab ht
      rw [hb, hids] at hnd
      exact absurd hmem fun hm => (List.disjoint_of_nodup_append hnd) hm (List.mem_singleton_self last)
    · exact absurd (List.mem_singleton.1 hmem) hne
  · rw [Function.update_of_ne hs] at hv
    exact ⟨s, ids', k, hs, hv, hmem⟩

theorem Appended.tokens_eq (hi : Inv m) (h : Appended True id b slot ids pre n n' m m') (s : UInt64) :
    m'.tokens s = if s = id then some (n + 1) else m.tokens s := by
  obtain ⟨-, -, hn', -⟩ := h.position hi
  unfold AienKvManager.tokens
  rw [h.after]
  split_ifs with hs
  · rw [hs, Function.update_self, hn']
    rfl
  · rw [Function.update_of_ne hs]

theorem Appended.place_other (h : Appended True id b slot ids pre n n' m m') (hs : s ≠ id) :
    m'.place s p = m.place s p := by
  unfold AienKvManager.place
  rw [h.after, Function.update_of_ne hs, h.keeps.size]

/-- A token of the sequence stays in its block, or goes with the tail into the copy. -/
theorem Appended.place_own (hi : Inv m) (h : Appended True id b slot ids pre n n' m m') (hp : p < n) :
    m'.place id p = m.place id p ∨ ∃ last, ids = pre ++ [last] ∧ m.place id p = some (last, p % m.blockSize) ∧
      m'.place id p = some (b, p % m.blockSize) := by
  obtain ⟨hn, hslot, -, hpre⟩ := h.position hi
  unfold AienKvManager.place
  rw [h.after, Function.update_self, h.before, Option.bind_some, Option.bind_some, h.keeps.size]
  dsimp only
  by_cases hlt : p / m.blockSize < pre.length
  · left
    rw [List.getElem?_append_left hlt]
    nth_rewrite 1 [hpre]
    rw [List.getElem?_take_of_lt hlt]
  · right
    have hdiv : p / m.blockSize = pre.length := by
      apply Nat.le_antisymm _ (Nat.le_of_not_lt hlt)
      apply Nat.le_of_lt_succ
      apply Nat.div_lt_of_lt_mul
      rw [Nat.mul_succ, Nat.mul_comm]
      omega
    rcases h.place with ⟨hz, -⟩ | ⟨last, rfl, -⟩
    · exfalso
      have := Nat.div_mul_le_self p m.blockSize
      rw [hdiv] at this
      omega
    · refine ⟨last, rfl, ?_, ?_⟩
      · rw [hdiv]
        simp
      · rw [hdiv]
        simp

theorem Appended.rowAt_eq (hi : Inv m) (h : Appended True id b slot ids pre n n' m m') {k : Nat}
    (hk : m.tokens s = some k) (hp : p < k) : m'.rowAt s p = m.rowAt s p := by
  have ha := hi.accounts
  obtain ⟨ids', c, hv, hc, hpl, hu⟩ := hi.place_some hk hp
  unfold AienKvManager.rowAt
  by_cases hs : s = id
  · subst hs
    have hkn : k = n := by
      rw [h.before] at hv
      cases hv
      rfl
    subst hkn
    rcases h.place_own hi hp with heq | ⟨last, hids, hold, hnew⟩
    · rw [heq, hpl]
      exact congrArg some (congrFun (h.contents_eq ha hu.1) _)
    · rw [hold, hnew]
      have hlast : last ∈ ids := by rw [hids]; simp
      refine congrArg some ?_
      rcases h.place with ⟨-, hpre, -⟩ | ⟨last', hids', -, -, -, hcell⟩
      · exact absurd (congrArg List.length (hpre.trans hids)) (by simp)
      · obtain ⟨-, hll⟩ := List.append_inj' (hids.symm.trans hids') rfl
        obtain rfl : last = last' := by simpa using hll
        funext l
        show m'.cell b l _ = m.cell last l _
        rw [hcell trivial]
  · rw [h.place_other hs, hpl]
    exact congrArg some (congrFun (h.contents_eq ha hu.1) _)

end Append

end AienKvManager

end SovereignCore.Kv
