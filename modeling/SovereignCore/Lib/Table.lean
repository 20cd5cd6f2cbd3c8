import Mathlib

/-!
# Ordered finite maps, looked up by equality

The standard library's ordered maps state their lookup lemmas with the comparison of keys. Where the order is lawful
that is equality; the lemmas here say so once.

* `get_insert`, `get_modify`, `get_erase` : a lookup after one update;
* `mem_iff`, `notMem_iff` : a key is in a map when the lookup finds it;
* `mem_setInsert`, `toList_nodup` : the same for ordered sets;
* `values`, `mem_values`, `values_map_nodup` : the values in key order;
* `length_le_one` : values of one key;
* `Tally` : a counter that agrees with the number of keys of a kind;
* `total`, `total_insert` : a sum over the values, and how it changes with one of them;
* `weigh`, `weigh_split` : a sum over the entries that reads the keys, and the part of one key; `weigh_mono` : sums compared
  key by key.
-/

namespace SovereignCore.Table

open Std

variable {α β : Type} [Ord α] [TransOrd α] [LawfulEqOrd α] [DecidableEq α]
variable {m m' : ExtTreeMap α β} {k x : α} {v : β}

theorem get_insert : (m.insert k v)[x]? = if k = x then some v else m[x]? := by
  rw [ExtTreeMap.getElem?_insert]
  by_cases h : k = x
  · simp [h]
  · rw [if_neg h, if_neg]
    simpa using h

theorem get_modify {f : β → β} : (m.modify k f)[x]? = if k = x then m[x]?.map f else m[x]? := by
  rw [ExtTreeMap.getElem?_modify]
  by_cases h : k = x
  · simp [h]
  · rw [if_neg h, if_neg]
    simpa using h

theorem modify_of_some {f : β → β} (h : m[k]? = some v) : m.modify k f = m.insert k (f v) := by
  refine ExtTreeMap.ext_getElem? fun x => ?_
  rw [get_insert, get_modify]
  split_ifs with heq
  · rw [← heq, h]
    rfl
  · rfl

theorem modify_of_none {f : β → β} (h : m[k]? = none) : m.modify k f = m := by
  refine ExtTreeMap.ext_getElem? fun x => ?_
  rw [get_modify]
  split_ifs with heq
  · rw [← heq, h]
    rfl
  · rfl

theorem get_erase : (m.erase k)[x]? = if k = x then none else m[x]? := by
  rw [ExtTreeMap.getElem?_erase]
  by_cases h : k = x
  · simp [h]
  · rw [if_neg h, if_neg]
    simpa using h

omit [LawfulEqOrd α] [DecidableEq α] in
theorem mem_iff : k ∈ m ↔ ∃ v, m[k]? = some v := by
  rw [ExtTreeMap.mem_iff_isSome_getElem?, Option.isSome_iff_exists]

omit [LawfulEqOrd α] [DecidableEq α] in
theorem notMem_iff : k ∉ m ↔ m[k]? = none := by
  rw [ExtTreeMap.mem_iff_isSome_getElem?]
  simp

omit [TransOrd α] [DecidableEq α] in
theorem nodup_of_ordered {l : List α} (h : l.Pairwise fun a b => ¬ compare a b = .eq) : l.Nodup :=
  h.imp fun {_ _} hab he => hab (by rw [he]; exact ReflCmp.compare_self)

omit [DecidableEq α] in
theorem toList_nodup (s : ExtTreeSet α) : s.toList.Nodup := nodup_of_ordered ExtTreeSet.distinct_toList

omit [DecidableEq α] in
theorem mem_setInsert {s : ExtTreeSet α} : x ∈ s.insert k ↔ x = k ∨ x ∈ s := by
  rw [ExtTreeSet.mem_insert, LawfulEqOrd.compare_eq_iff_eq]
  constructor
  · rintro (h | h)
    · exact Or.inl h.symm
    · exact Or.inr h
  · rintro (h | h)
    · exact Or.inl h.symm
    · exact Or.inr h

def values (m : ExtTreeMap α β) : List β := m.toList.map Prod.snd

omit [LawfulEqOrd α] [DecidableEq α] in
theorem values_eq : m.values = values m := by
  obtain ⟨⟨q⟩⟩ := m
  induction q using Quotient.inductionOn with
  | h t =>
    show t.inner.values = (DTreeMap.Internal.Impl.Const.toList t.inner).map Prod.snd
    rw [DTreeMap.Internal.Impl.values_eq_map_snd, DTreeMap.Internal.Impl.Const.toList_eq_toListModel_map, List.map_map]
    rfl

omit [DecidableEq α] in
theorem mem_values : v ∈ values m ↔ ∃ k : α, m[k]? = some v := by
  unfold values
  rw [List.mem_map]
  constructor
  · rintro ⟨⟨k, v'⟩, h, rfl⟩
    exact ⟨k, ExtTreeMap.mem_toList_iff_getElem?_eq_some.1 h⟩
  · rintro ⟨k, h⟩
    exact ⟨(k, v), ExtTreeMap.mem_toList_iff_getElem?_eq_some.2 h, rfl⟩

omit [DecidableEq α] in
/-- Where every value names its own key, the values name distinct keys. -/
theorem values_map_nodup {f : β → α} (h : ∀ (k : α) (v : β), m[k]? = some v → f v = k) : ((values m).map f).Nodup := by
  have hmap : (values m).map f = m.toList.map Prod.fst := by
    unfold values
    rw [List.map_map]
    apply List.map_congr_left
    intro kv hkv
    exact h kv.1 kv.2 (ExtTreeMap.mem_toList_iff_getElem?_eq_some.1 hkv)
  rw [hmap, ExtTreeMap.map_fst_toList_eq_keys]
  exact ExtTreeMap.nodup_keys

omit [Ord α] [TransOrd α] [LawfulEqOrd α] [DecidableEq α] in
/-- Values that name distinct keys, all of them the same key, are at most one value. -/
theorem length_le_one {f : β → α} {l : List β} (hd : (l.map f).Nodup) (hs : ∀ a ∈ l, ∀ b ∈ l, f a = f b) :
    l.length ≤ 1 := by
  rcases l with _ | ⟨a, _ | ⟨b, l⟩⟩
  · simp
  · simp
  · have hab := hs a (by simp) b (by simp)
    simp [hab] at hd

/-! ## Sums -/

/-- The sum of `w` over the values. -/
def total (m : ExtTreeMap α β) (w : β → Nat) : Nat := ((values m).map w).sum

omit [LawfulEqOrd α] [DecidableEq α] in
theorem nodup_toList : m.toList.Nodup := by
  refine List.Nodup.of_map Prod.fst ?_
  rw [ExtTreeMap.map_fst_toList_eq_keys]
  exact ExtTreeMap.nodup_keys

theorem toList_perm (h : m[k]? = some v) : m.toList.Perm ((k, v) :: (m.erase k).toList) := by
  have hnot : (k, v) ∉ (m.erase k).toList := by
    rw [ExtTreeMap.mem_toList_iff_getElem?_eq_some, get_erase, if_pos rfl]
    exact nofun
  refine (List.perm_ext_iff_of_nodup nodup_toList (List.nodup_cons.2 ⟨hnot, nodup_toList⟩)).2 fun e => ?_
  obtain ⟨k', v'⟩ := e
  rw [List.mem_cons, ExtTreeMap.mem_toList_iff_getElem?_eq_some, ExtTreeMap.mem_toList_iff_getElem?_eq_some, get_erase]
  by_cases hk : k = k'
  · subst hk
    rw [h, if_pos rfl]
    simp [eq_comm]
  · rw [if_neg hk]
    simp [Ne.symm hk]

theorem total_erase {w : β → Nat} (h : m[k]? = some v) : total m w = w v + total (m.erase k) w := by
  unfold total values
  rw [List.map_map, List.map_map, ((toList_perm h).map _).sum_eq, List.map_cons, List.sum_cons]
  rfl

theorem erase_of_none (h : m[k]? = none) : m.erase k = m := by
  refine ExtTreeMap.ext_getElem? fun x => ?_
  rw [get_erase]
  by_cases hk : k = x
  · rw [if_pos hk, ← hk, h]
  · rw [if_neg hk]

theorem erase_insert : (m.insert k v).erase k = m.erase k := by
  refine ExtTreeMap.ext_getElem? fun x => ?_
  rw [get_erase, get_erase, get_insert]
  by_cases h : k = x
  · rw [if_pos h, if_pos h]
  · rw [if_neg h, if_neg h, if_neg h]

theorem total_insert {w : β → Nat} {u : β} (h : m[k]? = some u) :
    total (m.insert k v) w + w u = total m w + w v := by
  have hself : (m.insert k v)[k]? = some v := by rw [get_insert, if_pos rfl]
  rw [total_erase hself, total_erase h, erase_insert]
  omega

theorem total_insert_new {w : β → Nat} (h : m[k]? = none) : total (m.insert k v) w = total m w + w v := by
  have hself : (m.insert k v)[k]? = some v := by rw [get_insert, if_pos rfl]
  rw [total_erase hself, erase_insert, erase_of_none h, Nat.add_comm]

theorem le_total {w : β → Nat} (h : m[k]? = some v) : w v ≤ total m w := by
  rw [total_erase h]
  exact Nat.le_add_right _ _

omit [LawfulEqOrd α] [DecidableEq α] in
theorem total_empty {w : β → Nat} : total (∅ : ExtTreeMap α β) w = 0 := rfl

omit [LawfulEqOrd α] [DecidableEq α] in
theorem total_filter_le {w : β → Nat} {p : α → β → Bool} : total (m.filter p) w ≤ total m w := by
  unfold total values
  rw [ExtTreeMap.toList_filter]
  exact ((List.filter_sublist.map _).map _).sum_le_sum fun _ _ => Nat.zero_le _

omit [LawfulEqOrd α] [DecidableEq α] in
theorem total_le_total {w w' : β → Nat} (h : ∀ v, w v ≤ w' v) : total m w ≤ total m w' := by
  unfold total
  exact List.sum_le_sum fun v _ => h v

omit [DecidableEq α] in
theorem total_filter_eq {w : β → Nat} {p : α → β → Bool} (h : ∀ k v, m[k]? = some v → p k v = false → w v = 0) :
    total (m.filter p) w = total m w := by
  unfold total values
  rw [ExtTreeMap.toList_filter, List.map_map, List.map_map]
  have hall : ∀ e ∈ m.toList, p e.1 e.2 = false → w e.2 = 0 := fun e he =>
    h e.1 e.2 (ExtTreeMap.mem_toList_iff_getElem?_eq_some.1 he)
  generalize m.toList = l at hall ⊢
  induction l with
  | nil => rfl
  | cons e l ih =>
    have hrest := ih fun e' he' => hall e' (List.mem_cons_of_mem _ he')
    by_cases hp : p e.1 e.2 = true
    · rw [List.filter_cons, if_pos hp, List.map_cons, List.map_cons, List.sum_cons, List.sum_cons, hrest]
    · have hzero : w e.2 = 0 := hall e List.mem_cons_self (by simpa using hp)
      rw [List.filter_cons, if_neg hp, List.map_cons, List.sum_cons, hrest]
      simp [hzero]

omit [DecidableEq α] in
theorem size_le_length {l : List α} (h : ∀ k ∈ m, k ∈ l) : m.size ≤ l.length := by
  rw [← ExtTreeMap.length_keys]
  refine (List.subperm_of_subset ExtTreeMap.nodup_keys fun k hk => ?_).length_le
  exact h k (ExtTreeMap.mem_keys.1 hk)

omit [DecidableEq α] in
/-- A map has at least the entries of a list of its keys without repeats. -/
theorem length_le_size {l : List α} (hnd : l.Nodup) (h : ∀ k ∈ l, k ∈ m) : l.length ≤ m.size := by
  rw [← ExtTreeMap.length_keys]
  exact (List.subperm_of_subset hnd fun k hk => ExtTreeMap.mem_keys.2 (h k hk)).length_le

omit [LawfulEqOrd α] [DecidableEq α] in
theorem total_add {w w' : β → Nat} : total m (fun v => w v + w' v) = total m w + total m w' := by
  unfold total
  rw [List.sum_map_add]

omit [LawfulEqOrd α] [DecidableEq α] in
theorem size_eq_total : m.size = total m fun _ => 1 := by
  unfold total values
  rw [List.map_const', List.sum_replicate, List.length_map, ExtTreeMap.length_toList, smul_eq_mul, Nat.mul_one]

omit [DecidableEq α] in
theorem total_congr {γ : Type} {m' : ExtTreeMap α β} {f : β → γ} {w : γ → Nat}
    (h : ∀ k : α, m'[k]?.map f = m[k]?.map f) : total m' (fun v => w (f v)) = total m fun v => w (f v) := by
  have hmap : ∀ n : ExtTreeMap α β, total n (fun v => w (f v)) = total (n.map fun _ v => f v) w := by
    intro n
    unfold total values
    rw [ExtTreeMap.toList_map, List.map_map, List.map_map, List.map_map]
    rfl
  have hsame : (m'.map fun _ v => f v) = m.map fun _ v => f v := by
    refine ExtTreeMap.ext_getElem? fun k => ?_
    rw [ExtTreeMap.getElem?_map, ExtTreeMap.getElem?_map]
    exact h k
  rw [hmap, hmap, hsame]

/-! ## Sums that read the key -/

/-- The sum of `w` over the entries. -/
def weigh (m : ExtTreeMap α β) (w : α → β → Nat) : Nat := (m.toList.map fun e => w e.1 e.2).sum

theorem weigh_split {w : α → β → Nat} (m : ExtTreeMap α β) (k : α) :
    weigh m w = m[k]?.elim 0 (w k) + weigh (m.erase k) w := by
  cases h : m[k]? with
  | none => rw [erase_of_none h, Option.elim_none, Nat.zero_add]
  | some v =>
    unfold weigh
    rw [((toList_perm h).map _).sum_eq, List.map_cons, List.sum_cons]
    rfl

omit [DecidableEq α] in
theorem weigh_congr {w w' : α → β → Nat} (h : ∀ k v, m[k]? = some v → w k v = w' k v) : weigh m w = weigh m w' := by
  unfold weigh
  refine congrArg List.sum (List.map_congr_left fun e he => ?_)
  exact h e.1 e.2 (ExtTreeMap.mem_toList_iff_getElem?_eq_some.1 he)

theorem weigh_mono {w w' : α → β → Nat} (h : ∀ k : α, m'[k]?.elim 0 (w' k) ≤ m[k]?.elim 0 (w k)) :
    weigh m' w' ≤ weigh m w := by
  induction hn : m'.toList.length generalizing m m' with
  | zero =>
    unfold weigh
    rw [List.length_eq_zero_iff.1 hn]
    exact Nat.zero_le _
  | succ n ih =>
    obtain ⟨⟨k, v⟩, l, hl⟩ := List.exists_cons_of_length_eq_add_one hn
    have hk : m'[k]? = some v := ExtTreeMap.mem_toList_iff_getElem?_eq_some.1 (by rw [hl]; simp)
    have hlen := (toList_perm hk).length_eq
    rw [List.length_cons] at hlen
    have hrest : weigh (m'.erase k) w' ≤ weigh (m.erase k) w := by
      refine ih (fun k' => ?_) (by omega)
      rw [get_erase, get_erase]
      split
      · exact Nat.le_refl _
      · exact h k'
    rw [weigh_split m' k, weigh_split m k]
    exact Nat.add_le_add (h k) hrest

theorem weigh_insert_le {w : α → β → Nat} : weigh (m.insert k v) w ≤ w k v + weigh m w := by
  rw [weigh_split _ k, weigh_split m k, erase_insert, get_insert, if_pos rfl, Option.elim_some]
  omega

omit [LawfulEqOrd α] [DecidableEq α] in
theorem weigh_add {w w' : α → β → Nat} : weigh m (fun k v => w k v + w' k v) = weigh m w + weigh m w' := by
  unfold weigh
  rw [List.sum_map_add]

omit [LawfulEqOrd α] [DecidableEq α] in
theorem weigh_filter {p : α × β → Bool} {w : β → Nat} :
    weigh m (fun k v => if p (k, v) then w v else 0) = ((m.toList.filter p).map fun e => w e.2).sum := by
  unfold weigh
  induction m.toList with
  | nil => rfl
  | cons e l ih =>
    rw [List.map_cons, List.sum_cons, ih, List.filter_cons]
    cases hp : p e <;> simp [hp]

section Tally

variable {κ : Type} [DecidableEq κ] {P Q : κ → Prop} {a : κ} {n : Nat}

/-- Exactly `n` keys are of the kind `P`. -/
def Tally (P : κ → Prop) (n : Nat) : Prop := ∃ S : Finset κ, (∀ a, a ∈ S ↔ P a) ∧ S.card = n

omit [DecidableEq κ] in
theorem Tally.congr (h : Tally P n) (hpq : ∀ a, Q a ↔ P a) : Tally Q n := by
  obtain ⟨S, hS, hn⟩ := h
  exact ⟨S, fun a => (hS a).trans (hpq a).symm, hn⟩

theorem Tally.add (h : Tally P n) (ha : ¬ P a) (hq : ∀ b, Q b ↔ b = a ∨ P b) : Tally Q (n + 1) := by
  obtain ⟨S, hS, hn⟩ := h
  refine ⟨insert a S, fun b => ?_, ?_⟩
  · rw [Finset.mem_insert, hS, hq]
  · rw [Finset.card_insert_of_notMem (fun hmem => ha ((hS a).1 hmem)), hn]

theorem Tally.remove (h : Tally P n) (ha : P a) (hq : ∀ b, Q b ↔ b ≠ a ∧ P b) : Tally Q (n - 1) := by
  obtain ⟨S, hS, hn⟩ := h
  refine ⟨S.erase a, fun b => ?_, ?_⟩
  · rw [Finset.mem_erase, hS, hq]
  · rw [Finset.card_erase_of_mem ((hS a).2 ha), hn]

omit [DecidableEq κ] in
theorem Tally.none_of_zero (h : Tally P 0) (a : κ) : ¬ P a := by
  obtain ⟨S, hS, hn⟩ := h
  rw [Finset.card_eq_zero.1 hn] at hS
  exact fun ha => absurd ((hS a).2 ha) (Finset.notMem_empty a)

omit [DecidableEq κ] in
theorem Tally.zero (h : ∀ a, ¬ P a) : Tally P 0 := ⟨∅, fun a => by simp [h a], rfl⟩

end Tally

end SovereignCore.Table
