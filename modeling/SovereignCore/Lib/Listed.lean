import Mathlib

/-!
# How often an item is listed across a finite map

A finite map gives each key a value, and each value lists items (a block table lists blocks). `listed items m b` is
the number of times `b` is listed over all values of `m`: the count a reference counter has to agree with.

* `listed_insert_new`, `listed_insert_old`, `listed_erase` : how the count moves with the map;
* `listed_pos`, `exists_of_listed_pos` : it is positive exactly when some value lists the item;
* `listed_le_one_unique` : a count of one is one value.
-/

namespace SovereignCore
variable {κ V β : Type} [DecidableEq κ] [DecidableEq β]

/-- The occurrences of `b` over the lists of all values of `m`. -/
def listed (items : V → List β) (m : AList fun _ : κ => V) (b : β) : Nat :=
  (m.entries.map fun e => (items e.2).count b).sum

variable {items : V → List β} {m : AList fun _ : κ => V} {k k' : κ} {v v' : V} {b : β}

theorem listed_insert : listed items (m.insert k v) b = (items v).count b + listed items (m.erase k) b := by
  unfold listed
  rw [AList.entries_insert, List.map_cons, List.sum_cons]
  rfl

theorem listed_erase (h : m.lookup k = some v) :
    listed items m b = (items v).count b + listed items (m.erase k) b := by
  have hk : k ∈ m.entries.keys := AList.lookup_isSome.1 (by rw [h]; rfl)
  obtain ⟨w, l₁, l₂, -, hl, herase⟩ := List.exists_of_kerase hk
  have hw : w = v := by
    have hmem : (⟨k, w⟩ : Sigma fun _ : κ => V) ∈ m.entries := by rw [hl]; simp
    have := AList.mem_lookup_iff.2 hmem
    rw [h] at this
    exact (Option.some.inj this).symm
  unfold listed
  rw [show (m.erase k).entries = l₁ ++ l₂ from herase, hl, hw]
  simp only [List.map_append, List.map_cons, List.sum_append, List.sum_cons]
  omega

theorem listed_erase_of_none (h : m.lookup k = none) : listed items (m.erase k) b = listed items m b := by
  unfold listed
  have hk : k ∉ m.entries.keys := AList.lookup_eq_none.1 h
  rw [show (m.erase k).entries = m.entries from List.kerase_of_notMem_keys hk]

theorem listed_insert_new (h : m.lookup k = none) :
    listed items (m.insert k v) b = (items v).count b + listed items m b := by
  rw [listed_insert, listed_erase_of_none h]

theorem listed_insert_old (h : m.lookup k = some v) :
    listed items (m.insert k v') b + (items v).count b = (items v').count b + listed items m b := by
  rw [listed_insert, listed_erase h]
  omega

theorem listed_congr {m' : AList fun _ : κ => V} (h : ∀ k, m.lookup k = m'.lookup k) :
    listed items m b = listed items m' b := by
  have hperm : m.entries.Perm m'.entries := by
    refine List.lookup_ext m.nodupKeys m'.nodupKeys fun k v => ?_
    show v ∈ m.lookup k ↔ v ∈ m'.lookup k
    rw [h]
  exact (hperm.map _).sum_eq

theorem listed_pos (h : m.lookup k = some v) (hb : b ∈ items v) : 0 < listed items m b := by
  rw [listed_erase h]
  have := List.count_pos_iff.2 hb
  omega

theorem exists_of_listed_pos (h : 0 < listed items m b) : ∃ k v, m.lookup k = some v ∧ b ∈ items v := by
  by_contra hnone
  push Not at hnone
  have hzero : ∀ n ∈ m.entries.map fun e => (items e.2).count b, n = 0 := by
    intro n hn
    obtain ⟨e, he, rfl⟩ := List.mem_map.1 hn
    exact List.count_eq_zero.2 (hnone e.1 e.2 (AList.mem_lookup_iff.2 he))
  have := List.sum_eq_zero hzero
  unfold listed at h
  omega

/-- An item that is listed at most once over the whole map is listed by one value only. -/
theorem listed_le_one_unique (h1 : listed items m b ≤ 1) (h : m.lookup k = some v) (hb : b ∈ items v)
    (h' : m.lookup k' = some v') (hb' : b ∈ items v') : k = k' := by
  by_contra hne
  have he : (m.erase k).lookup k' = some v' := by rw [AList.lookup_erase_ne (Ne.symm hne), h']
  have hpos := listed_pos he hb'
  have hcount := List.count_pos_iff.2 hb
  have : listed items m b = _ := listed_erase h
  omega

end SovereignCore
