import SovereignCore.Kv.Calls
import SovereignCore.Lib.Paging

/-!
# The shape of the tables

A table of `n` tokens has the blocks it needs, filled in order. The token counts stand on the blocks, which tables
share, so every operation has to keep the shape of the tables it does not name.

* `Shape m` : every table fills its blocks; `Inv m` : the accounts and the shape;
* `Shape.update` : how the shape passes through an operation, given the blocks it keeps;
* `Appended.position` : an append takes the slot after the table's last token;
* `inv_…` : each operation keeps `Inv`.
-/

namespace SovereignCore.Kv.AienKvManager

open Prog

def numTokens (m : AienKvManager) (b : BlockId) : Nat := (m.blocks b).numTokens

def Shape (m : AienKvManager) : Prop :=
  ∀ id ids n, m.view id = some (ids, n) → Fills m.blockSize m.numTokens ids n

/-- What holds between calls. -/
structure Inv (m : AienKvManager) : Prop where
  size : 0 < m.blockSize
  accounts : Accounts [] m
  shape : Shape m

section Lemmas
variable {h N : Prop} {B : BlockId → Prop} {held : List BlockId} {m m' : AienKvManager} {id : UInt64}

theorem Accounts.live_of_view (ha : Accounts held m) {ids : List BlockId} {n : Nat} (hv : m.view id = some (ids, n))
    {b : BlockId} (hb : b ∈ ids) : m.Live b := by
  obtain ⟨t, ht, rfl, -⟩ := lookup_of_view hv
  exact ha.live_of_table ht hb

theorem fills_keeps {ids : List BlockId} {n : Nat} (hf : Fills m.blockSize m.numTokens ids n) (hk : Keeps h B m m')
    (hB : ∀ b ∈ ids, B b) : Fills m'.blockSize m'.numTokens ids n := by
  rw [hk.size]
  exact hf.congr fun b hb => hk.tokens b (hB b hb)

/-- An operation on one table: the others keep their shape if it keeps their blocks. -/
theorem Shape.update (hs : Shape m) {v : Option (List BlockId × Nat)} (hv : m'.view = Function.update m.view id v)
    (hk : Keeps h B m m') (hothers : ∀ id' ids n, id' ≠ id → m.view id' = some (ids, n) → ∀ b ∈ ids, B b)
    (hown : ∀ ids n, v = some (ids, n) → Fills m'.blockSize m'.numTokens ids n) : Shape m' := by
  intro id' ids n hview
  rw [hv] at hview
  by_cases hid : id' = id
  · subst hid
    rw [Function.update_self] at hview
    exact hown ids n hview
  · rw [Function.update_of_ne hid] at hview
    exact fills_keeps (hs id' ids n hview) hk (hothers id' ids n hid hview)

theorem Inv.congr (hi : Inv m) (ha : Accounts [] m') (hv : m'.view = m.view) (hk : Keeps h m.Live m m') : Inv m' where
  size := by rw [hk.size]; exact hi.size
  accounts := ha
  shape := by
    intro id ids n hview
    rw [hv] at hview
    exact fills_keeps (hi.shape id ids n hview) hk fun b hb => hi.accounts.live_of_view hview hb

/-- An operation that puts at most one table in place and keeps the blocks that are still held. -/
theorem Inv.put (hi : Inv m) (ha : Accounts [] m') {v : Option (List BlockId × Nat)}
    (hv : m'.view = Function.update m.view id v) (hk : Keeps h m'.Live m m')
    (hown : ∀ ids n, v = some (ids, n) → Fills m.blockSize m.numTokens ids n) : Inv m' where
  size := by rw [hk.size]; exact hi.size
  accounts := ha
  shape := by
    have hlive : ∀ id' ids n, m'.view id' = some (ids, n) → ∀ b ∈ ids, m'.Live b :=
      fun _ _ _ hview _ hb => ha.live_of_view hview hb
    refine hi.shape.update hv hk (fun id' ids n hne hview => ?_) fun ids n hsome => ?_
    · exact hlive id' ids n (by rw [hv, Function.update_of_ne hne, hview])
    · exact fills_keeps (hown ids n hsome) hk (hlive id ids n (by rw [hv, Function.update_self, hsome]))

end Lemmas

/-! ## Appending -/

section Append
variable {h : Prop} {id : UInt64} {b : BlockId} {slot n n' : Nat} {ids pre : List BlockId} {m m' : AienKvManager}

/-- The new token comes after the `n` tokens of the table. -/
theorem Appended.position (hi : Inv m) (ha : Appended h id b slot ids pre n n' m m') :
    n = pre.length * m.blockSize + slot ∧ slot < m.blockSize ∧ n' = n + 1 ∧ pre = ids.take pre.length := by
  have hbs := hi.size
  have hf := hi.shape id ids n ha.before
  have hle := hf.le hbs
  rcases ha.place with ⟨rfl, rfl, -, ⟨rfl, rfl⟩ | ⟨last, hlast, hfull, rfl⟩⟩ | ⟨last, rfl, hslot, hroom, rfl, -⟩
  · simp only [List.length_nil, Nat.zero_mul] at hle ⊢
    exact ⟨hle.antisymm (Nat.zero_le _), hbs, by omega, rfl⟩
  · obtain ⟨front, hids⟩ := List.getLast?_eq_some_iff.1 hlast
    have hcount := hf.count front.length last (by rw [hids]; simp)
    change (m.blocks last).numTokens = _ at hcount
    have hlen : pre.length * m.blockSize = front.length * m.blockSize + m.blockSize := by
      rw [hids, List.length_append, List.length_singleton, Nat.succ_mul]
    exact ⟨by omega, hbs, rfl, (List.take_length).symm⟩
  · have hcount := hf.count pre.length last (by simp)
    change (m.blocks last).numTokens = _ at hcount
    have hlt := hf.lt hbs (k := pre.length) (by simp)
    exact ⟨by omega, hroom, rfl, by simp⟩

theorem Appended.inv (hi : Inv m) (hacc : Accounts [] m') (ha : Appended h id b slot ids pre n n' m m') : Inv m' := by
  have hbs := hi.size
  obtain ⟨hn, hslot, rfl, hpre⟩ := ha.position hi
  have hf := hi.shape id ids n ha.before
  have hmem : ∀ c ∈ pre, c ∈ ids := fun c hc => by
    rw [hpre] at hc
    exact List.mem_of_mem_take hc
  refine ⟨by rw [ha.keeps.size]; exact hbs, hacc, hi.shape.update ha.after ha.keeps ?_ ?_⟩
  · intro id' ids' k hne hview c hc
    refine ⟨hi.accounts.live_of_view hview hc, ?_⟩
    rintro rfl
    exact ha.exclusive id' ids' k hne hview hc
  · intro _ _ hsome
    cases hsome
    rw [ha.keeps.size, hn]
    refine Fills.snoc hbs hslot (fun c hc => ?_) ha.tokens
    have hkept : m'.numTokens c = m.numTokens c := by
      refine ha.keeps.tokens c ⟨hi.accounts.live_of_view ha.before (hmem c hc), ?_⟩
      rintro rfl
      exact ha.fresh hc
    obtain ⟨i, hilt, hic⟩ := List.getElem_of_mem hc
    have hget : ids[i]? = some c := by
      have : (ids.take pre.length)[i]? = some c := by
        rw [← hpre, List.getElem?_eq_getElem hilt, hic]
      rw [List.getElem?_take, if_pos hilt] at this
      exact this
    rw [hkept, hf.count i c hget]
    have := succ_mul_le_mul m.blockSize hilt
    omega

end Append

/-! ## Truncation -/

section Truncate
variable {id : UInt64} {n newTotal : Nat} {ids : List BlockId} {m m' : AienKvManager}

/-- A cut at a block's end leaves that block's count, so every table of the rest keeps its blocks. -/
theorem Truncated.keeps_live (hi : Inv m) (ht : Truncated id ids n newTotal m m') {id' : UInt64}
    {ids' : List BlockId} {k : Nat} (hne : id' ≠ id) (hview : m.view id' = some (ids', k)) {b : BlockId}
    (hb : b ∈ ids') (hlive : m'.Live b) : m'.numTokens b = m.numTokens b := by
  have hbs := hi.size
  by_cases htail : 0 < newTotal ⌈/⌉ m.blockSize ∧ ids[newTotal ⌈/⌉ m.blockSize - 1]? = some b
  · obtain ⟨hcount, hmod | hexcl⟩ := ht.tail b htail.1 htail.2
    · have hold := (hi.shape id ids n ht.before).count _ b htail.2
      have hle := le_ceilDiv_mul hbs newTotal
      have hlt := mul_lt_of_lt_ceilDiv hbs (n := newTotal) (k := newTotal ⌈/⌉ m.blockSize - 1) (by omega)
      obtain ⟨q, hq⟩ := Nat.dvd_of_mod_eq_zero hmod
      have hkeep : newTotal ⌈/⌉ m.blockSize = q := by
        rw [hq]
        exact smul_ceilDiv hbs q
      have hshort := ht.shorter
      have hq0 : 0 < q := hkeep ▸ htail.1
      rw [hkeep] at hold hcount
      have hsplit : m.blockSize * q = (q - 1) * m.blockSize + m.blockSize := by
        rw [← Nat.succ_mul, Nat.mul_comm]
        congr 1
        omega
      change (m'.blocks b).numTokens = m.numTokens b
      omega
    · exact absurd hb (hexcl id' ids' k hne hview)
  · refine ht.keeps.tokens b ⟨hlive, ?_⟩
    rintro c hpos hc rfl
    exact htail ⟨hpos, hc⟩

theorem Truncated.inv (hi : Inv m) (hacc : Accounts [] m') (ht : Truncated id ids n newTotal m m') : Inv m' := by
  have hbs := hi.size
  have hf := hi.shape id ids n ht.before
  refine ⟨by rw [ht.keeps.size]; exact hbs, hacc, ?_⟩
  intro id' ids' k hview
  have hlive := fun b (hb : b ∈ ids') => hacc.live_of_view hview hb
  rw [ht.after] at hview
  rw [ht.keeps.size]
  by_cases hid : id' = id
  · subst hid
    rw [Function.update_self] at hview
    cases hview
    refine hf.take hbs (Nat.le_of_lt ht.shorter) (fun b hpos hb => (ht.tail b hpos hb).1) fun i b hlt hb => ?_
    have hmem : b ∈ ids.take (newTotal ⌈/⌉ m.blockSize) :=
      List.mem_of_getElem? (i := i) (by rw [List.getElem?_take, if_pos (by omega)]; exact hb)
    refine ht.keeps.tokens b ⟨hlive b hmem, fun c hpos hc => ?_⟩
    rintro rfl
    -- a block stands once in its table
    obtain ⟨t, htab, rfl, -⟩ := lookup_of_view ht.before
    obtain ⟨h1, -⟩ := List.getElem?_eq_some_iff.1 hb
    have heq := (List.getElem?_inj h1 (hi.accounts.nodup _ t htab)).1 (hb.trans hc.symm)
    omega
  · rw [Function.update_of_ne hid] at hview
    exact (hi.shape id' ids' k hview).congr fun b hb => ht.keeps_live hi hid hview hb (hlive b hb)

end Truncate

/-! ## Every operation -/

theorem new_inv (total bs : Nat) (hbs : 0 < bs) (pool : Option UnifiedKvTensorPool) :
    Inv { AienKvManager.new total bs with tensorPool := pool } := by
  refine ⟨hbs, ⟨fun b => rfl, ?_, ?_, ?_, List.nodup_range, ?_⟩, ?_⟩
  · exact fun b hb => absurd hb (Nat.lt_irrefl 0)
  · intro b
    simp [AienKvManager.new]
  · exact fun id t ht => by cases ht
  · exact fun b => List.mem_range.trans ⟨fun h => ⟨h, rfl⟩, fun h => h.1⟩
  · exact fun id ids n hv => by cases hv

/-- What an operation leaves: the invariant, with the sizes and the pool's configuration as they were. -/
def Good (m m' : AienKvManager) : Prop := Inv m' ∧ Keeps False (fun _ => False) m m'

section Operations
variable {N h : Prop} {B : BlockId → Prop} {m m' : AienKvManager}

theorem Keeps.sizes (hk : Keeps h B m m') : Keeps False (fun _ => False) m m' :=
  ⟨hk.total, hk.size, hk.config, fun _ hf => hf.elim, fun hf => hf.elim⟩

theorem Good.refl (hi : Inv m) : Good m m := ⟨hi, Keeps.refl⟩

theorem allocateSequence_good (hi : Inv m) (hN : Covers N m) (id : UInt64) (prompt : List UInt32) :
    (allocateSequence id prompt m).Ends N (fun _ m' => Good m m') (fun _ m' => Good m m') := by
  refine (allocateSequence_ends hi.accounts hN hi.size id prompt).mono ?_ ?_
  · rintro ids m' (⟨rfl, -⟩ | ⟨-, ha, hk, hlen, hfresh, htok, hv⟩)
    · exact Good.refl hi
    refine ⟨⟨by rw [hk.size]; exact hi.size, ha, hi.shape.update hv hk ?_ ?_⟩, hk.sizes⟩
    · exact fun id' ids' n _ hview b hb hmem => (hfresh b hmem).1 (hi.accounts.live_of_view hview hb)
    · intro _ _ hsome
      cases hsome
      rw [hk.size]
      exact ⟨hlen, htok⟩
  · rintro _ m' ⟨rfl, -⟩
    exact Good.refl hi

theorem forkSequence_good (hi : Inv m) (parent child : UInt64) :
    (forkSequence parent child m).Ends N (fun _ m' => Good m m') (fun _ m' => Good m m') := by
  refine (forkSequence_ends hi.accounts parent child).mono ?_ ?_
  · rintro ids m' ⟨ha, -, hk, n, hview, hv⟩
    refine ⟨hi.put ha hv hk ?_, hk.sizes⟩
    intro _ _ hsome
    cases hsome
    exact hi.shape parent _ _ hview
  · rintro _ m' ⟨rfl, -⟩
    exact Good.refl hi

theorem forkPrefilled_good (hi : Inv m) (parent child : UInt64) :
    (forkPrefilled parent child m).Ends N (fun _ m' => Good m m') (fun _ m' => Good m m') := by
  unfold forkPrefilled
  rw [ends_bind, ends_get, ends_bind]
  cases m.prefillState parent with
  | none => exact Good.refl hi
  | some state =>
    rw [ends_orFail_some]
    split_ifs
    · rw [ends_mapErr]
      exact forkSequence_good hi parent child
    · exact Good.refl hi

theorem forkRange_good (hi : Inv m) (parent : UInt64) (first n : Nat) (child : UInt64) :
    (forkRange parent first n child m).Ends N (fun _ m' => Good m m') (fun _ m' => Good m m') := by
  refine (forkRange_ends hi.accounts parent first n child).mono ?_ ?_
  · rintro ids m' ⟨ha, -, hk, pids, total, hview, -, hin, rfl, -, hv⟩
    refine ⟨hi.put ha hv (hk.mono fun _ _ => trivial) ?_, hk.sizes⟩
    intro _ _ hsome
    cases hsome
    exact (hi.shape parent pids total hview).slice hi.size hin
  · rintro _ m' rfl
    exact Good.refl hi

/-- Full tables one after the other, with a last one of any length. -/
theorem fills_flatMap {size : Nat} {count : BlockId → Nat} (hs : 0 < size) : ∀ (vs : List (List BlockId × Nat)),
    (∀ v ∈ vs, Fills size count v.1 v.2) → (∀ v ∈ vs.dropLast, v.2 = v.1.length * size) →
    Fills size count (vs.flatMap Prod.fst) (vs.map Prod.snd).sum
  | [], _, _ => ⟨(zero_ceilDiv size).symm, by simp⟩
  | [v], hall, _ => by simpa using hall v List.mem_cons_self
  | v :: w :: vs, hall, hfull => by
    rw [List.flatMap_cons, List.map_cons, List.sum_cons]
    refine (hall v List.mem_cons_self).append (hfull v (by simp)) ?_ hs
    exact fills_flatMap hs (w :: vs) (fun x hx => hall x (List.mem_cons_of_mem v hx)) fun x hx => hfull x (by
      rw [List.dropLast_cons_of_ne_nil (by simp)]
      exact List.mem_cons_of_mem v hx)

theorem mem_views {holders : List UInt64} {vs : List (List BlockId × Nat)} (hvs : holders.map m.view = vs.map some)
    {v : List BlockId × Nat} (hv : v ∈ vs) : ∃ id, m.view id = some v := by
  have hmem : some v ∈ holders.map m.view := by
    rw [hvs]
    exact List.mem_map_of_mem hv
  obtain ⟨id, -, hid⟩ := List.mem_map.1 hmem
  exact ⟨id, hid⟩

theorem assembleTable_good (hi : Inv m) (seq : UInt64) (holders : List UInt64) (policy : SuffixPolicy) :
    (assembleTable seq holders policy m).Ends N (fun _ m' => Good m m') (fun _ m' => Good m m') := by
  refine (assembleTable_ends hi.accounts seq holders policy).mono ?_ ?_
  · rintro ids m' ⟨ha, hk, -, vs, -, hvs, rfl, -, hfull, hv⟩
    refine ⟨hi.put ha hv (hk.mono fun _ _ => trivial) ?_, hk.sizes⟩
    intro _ _ hsome
    cases hsome
    refine fills_flatMap hi.size vs (fun v hv => ?_) hfull
    obtain ⟨id, hid⟩ := mem_views hvs hv
    exact hi.shape id v.1 v.2 hid
  · rintro _ m' rfl
    exact Good.refl hi

theorem adoptTable_good (hi : Inv m) (holder seq : UInt64) :
    (adoptTable holder seq m).Ends N (fun _ m' => Good m m') (fun _ m' => Good m m') := by
  refine (adoptTable_ends hi.accounts holder seq).mono ?_ ?_
  · rintro _ m' ⟨ha, hk, -, -, -, hv⟩
    refine ⟨⟨by rw [hk.size]; exact hi.size, ha, ?_⟩, hk.sizes⟩
    intro id ids n hview
    refine fills_keeps ?_ hk fun _ _ => trivial
    rw [hv] at hview
    by_cases hid : id = seq
    · subst hid
      rw [Function.update_self] at hview
      exact hi.shape holder ids n hview
    · rw [Function.update_of_ne hid] at hview
      by_cases hh : id = holder
      · subst hh
        rw [Function.update_self] at hview
        cases hview
      · rw [Function.update_of_ne hh] at hview
        exact hi.shape id ids n hview
  · rintro _ m' rfl
    exact Good.refl hi

theorem freeSequence_good (hi : Inv m) (id : UInt64) :
    (freeSequence id m).Ends N (fun _ m' => Good m m') (fun _ m' => Good m m') := by
  refine (freeSequence_ends hi.accounts id).mono ?_ ?_
  · rintro _ m' ⟨ha, ht, -, hk⟩
    have hv : m'.view = Function.update m.view id none := by
      rw [← view_erase]
      exact view_eq_of_tables ht
    exact ⟨hi.put ha hv hk (by simp), hk.sizes⟩
  · rintro _ m' ⟨rfl, -⟩
    exact Good.refl hi

theorem appendTokenWithSlot_good (hi : Inv m) (hN : Covers N m) (id : UInt64) :
    (appendTokenWithSlot id m).Ends N (fun _ m' => Good m m') (fun _ m' => Good m m') := by
  refine (appendTokenWithSlot_ends hi.accounts hN id).mono ?_ ?_
  · rintro _ m' ⟨ha, ids, pre, n, n', happ⟩
    exact ⟨happ.inv hi ha, happ.keeps.sizes⟩
  · rintro _ m' ⟨ha, hv, hk⟩
    exact ⟨hi.congr ha hv hk, hk.sizes⟩

theorem appendTokenWithSlotDevice_good (device : MemoryDevice) (hi : Inv m) (hN : Covers N m) (id : UInt64) :
    (appendTokenWithSlotDevice device id m).Ends N (fun _ m' => Good m m') (fun _ m' => Good m m') := by
  refine (appendTokenWithSlotDevice_ends device hi.accounts hN id).mono ?_ ?_
  · rintro _ m' ⟨ha, ids, pre, n, n', happ⟩
    exact ⟨happ.inv hi ha, happ.keeps.sizes⟩
  · rintro _ m' ⟨ha, hv, hk⟩
    exact ⟨hi.congr ha hv hk, hk.sizes⟩

theorem Inv.keep_le (hi : Inv m) {id : UInt64} {ids : List BlockId} {n : Nat} (hv : m.view id = some (ids, n)) :
    n ⌈/⌉ m.blockSize ≤ ids.length := (hi.shape id ids n hv).length.ge

theorem truncateSequence_good (hi : Inv m) (id : UInt64) (newTotal : Nat) :
    (truncateSequence id newTotal m).Ends N (fun _ m' => Good m m') (fun _ m' => Good m m') := by
  refine (truncateSequence_ends hi.accounts hi.size (fun _ _ hv => hi.keep_le hv) newTotal).mono ?_ ?_
  · rintro _ m' ⟨ha, ⟨rfl, -⟩ | ⟨ids, n, ht⟩⟩
    · exact Good.refl hi
    · exact ⟨ht.inv hi ha, ht.keeps.sizes⟩
  · rintro _ m' rfl
    exact Good.refl hi

theorem updateState_good {ε : Type} (hi : Inv m) {id : UInt64} {t : BlockTable}
    (ht : m.sequenceTables.lookup id = some t) (state : PrefillState) :
    ((updateTable id fun t => { t with prefillState := state } : Prog AienKvManager ε Unit) m).Ends N
      (fun _ m' => Good m m' ∧ m'.view = m.view ∧ Keeps True (fun _ => True) m m') (fun _ _ => False) := by
  rw [ends_updateTable ht]
  have hv : view { m with sequenceTables := m.sequenceTables.insert id { t with prefillState := state } } = m.view := by
    rw [view_insert]
    exact Function.update_eq_self_iff.2 (view_of_lookup ht).symm
  have ha := hi.accounts.replace { t with prefillState := state } [] ht (List.Perm.refl _)
    (hi.accounts.nodup id t ht)
  exact ⟨⟨hi.congr (h := True) ha hv (Keeps.tables _), Keeps.tables _⟩, hv, Keeps.tables _⟩

theorem markPrefillPending_ends (hi : Inv m) (id : UInt64) :
    (markPrefillPending id m).Ends N (fun _ m' => Good m m' ∧ m'.view = m.view ∧ Keeps True (fun _ => True) m m')
      (fun _ m' => m' = m) := by
  unfold markPrefillPending
  rw [ends_bind, ends_get, ends_bind]
  cases ht : m.sequenceTables.lookup id with
  | none => rfl
  | some t =>
    rw [ends_orFail_some]
    split_ifs
    · exact ⟨Good.refl hi, rfl, Keeps.refl⟩
    · exact (updateState_good hi ht _).mono (fun _ _ hq => hq) (fun _ _ hf => hf.elim)

theorem completePrefill_ends (hi : Inv m) (id : UInt64) :
    (completePrefill id m).Ends N (fun _ m' => Good m m' ∧ m'.view = m.view ∧ Keeps True (fun _ => True) m m')
      (fun _ m' => m' = m) := by
  unfold completePrefill
  rw [ends_bind, ends_get, ends_bind]
  cases ht : m.sequenceTables.lookup id with
  | none => rfl
  | some t =>
    rw [ends_orFail_some]
    cases t.prefillState with
    | prefillPending => exact (updateState_good hi ht _).mono (fun _ _ hq => hq) (fun _ _ hf => hf.elim)
    | prefillReady => exact ⟨Good.refl hi, rfl, Keeps.refl⟩
    | sharedFrozen => exact ⟨Good.refl hi, rfl, Keeps.refl⟩
    | allocated => rfl

theorem restore_inv {m₀ : AienKvManager} (hi : Inv m₀) {s : KvTransactionSnapshot}
    (hs : m₀.beginTransaction.snapshot = some s) (ht : m.totalBlocks = m₀.totalBlocks)
    (hb : m.blockSize = m₀.blockSize) : Inv (m.restore s) := by
  cases hs
  refine ⟨?_, hi.accounts.congr ht rfl rfl rfl, ?_⟩
  · change 0 < m.blockSize
    rw [hb]
    exact hi.size
  · intro id ids n hview
    have := hi.shape id ids n hview
    change Fills m.blockSize m₀.numTokens ids n
    rwa [hb]

end Operations

end SovereignCore.Kv.AienKvManager
