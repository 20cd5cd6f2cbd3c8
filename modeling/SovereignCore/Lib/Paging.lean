import Mathlib.Algebra.Order.Floor.Div
import Mathlib.Data.List.Basic
import Mathlib.Tactic.Ring

/-!
# Lists stored in pages of a fixed size

A list of `n` items is stored in pages of `size` items: page `i` of the table holds items `i * size` and up, and only
the last page may be partly filled. The pages themselves are of any type, with a fill count or contents given apart,
so that one page can stand in several tables.

* `Fills size count pages n` : `pages` is a table of `n` items, with the counts it must find on its pages;
  `Fills.append`, `Fills.slice`, `Fills.take`, `Fills.snoc` : tables put together, cut and grown;
* `pagesFor size used n` : the new pages that `n` more items need after a page with `used` items on it;
* `Reads size cell pages items` : item `i` is at place `i % size` of page `i / size`, with the same moves;
  `Reads.uncons` : page by page.
-/

namespace SovereignCore
variable {β γ : Type} {size n k : Nat} {pages : List β}

/-! ## Rounding up -/

theorem le_ceilDiv_mul (hs : 0 < size) (n : Nat) : n ≤ n ⌈/⌉ size * size := by
  have h := le_smul_ceilDiv (a := size) (b := n) hs
  rwa [smul_eq_mul, Nat.mul_comm] at h

theorem mul_lt_of_lt_ceilDiv (hs : 0 < size) (h : k < n ⌈/⌉ size) : k * size < n := by
  by_contra hn
  have hle := (ceilDiv_le_iff_le_mul (a := size) (b := n) (c := k) hs).2 (by rw [Nat.mul_comm]; omega)
  omega

theorem ceilDiv_eq (hs : 0 < size) (hle : n ≤ k * size) (hlt : ∀ j < k, j * size < n) : n ⌈/⌉ size = k := by
  apply Nat.le_antisymm
  · exact (ceilDiv_le_iff_le_mul hs).2 (by rw [Nat.mul_comm]; exact hle)
  · by_contra h
    have h1 := hlt (n ⌈/⌉ size) (by omega)
    have h2 := le_ceilDiv_mul hs n
    omega

theorem succ_mul_le_mul (size : Nat) {i j : Nat} (h : i < j) : i * size + size ≤ j * size := by
  rw [← Nat.succ_mul]
  exact Nat.mul_le_mul_right size h

/-- The new pages that `n` more items need after a page that holds `used`. -/
def pagesFor (size used n : Nat) : Nat := (n - min n (size - used)) ⌈/⌉ size

@[simp] theorem pagesFor_zero (size used : Nat) : pagesFor size used 0 = 0 := by
  unfold pagesFor
  rw [Nat.zero_sub, zero_ceilDiv]

theorem pagesFor_succ_room {used : Nat} (h : used < size) : pagesFor size used (n + 1) = pagesFor size (used + 1) n := by
  unfold pagesFor
  congr 1
  omega

theorem pagesFor_succ_full (hs : 0 < size) {used : Nat} (h : size ≤ used) :
    pagesFor size used (n + 1) = 1 + pagesFor size 1 n := by
  unfold pagesFor
  rw [Nat.sub_eq_zero_of_le h, Nat.min_zero, Nat.sub_zero, Nat.ceilDiv_eq_add_pred_div, Nat.ceilDiv_eq_add_pred_div]
  by_cases hn : n ≤ size - 1
  · rw [Nat.min_eq_left hn, Nat.sub_self, Nat.div_eq_of_lt (by omega : 0 + size - 1 < size)]
    exact Nat.div_eq_of_lt_le (by omega) (by omega)
  · rw [Nat.min_eq_right (Nat.le_of_not_le hn)]
    have h1 : n + 1 + size - 1 = (n - (size - 1) + size - 1) + size := by omega
    rw [h1, Nat.add_div_right _ hs, Nat.add_comm]

/-! ## Fill counts -/

/-- A table of `n` items: as many pages as they need, each filled before the next. -/
structure Fills (size : Nat) (count : β → Nat) (pages : List β) (n : Nat) : Prop where
  length : pages.length = n ⌈/⌉ size
  count : ∀ i b, pages[i]? = some b → count b = min size (n - i * size)

variable {count count' : β → Nat}

theorem Fills.congr (h : Fills size count pages n) (hc : ∀ b ∈ pages, count' b = count b) :
    Fills size count' pages n where
  length := h.length
  count i b hb := by rw [hc b (List.mem_of_getElem? hb), h.count i b hb]

theorem Fills.le (h : Fills size count pages n) (hs : 0 < size) : n ≤ pages.length * size := by
  rw [h.length]
  exact le_ceilDiv_mul hs n

theorem Fills.lt (h : Fills size count pages n) (hs : 0 < size) (hk : k < pages.length) : k * size < n := by
  rw [h.length] at hk
  exact mul_lt_of_lt_ceilDiv hs hk

theorem Fills.append {pages' : List β} {n' : Nat} (h : Fills size count pages n) (hfull : n = pages.length * size)
    (h' : Fills size count pages' n') (hs : 0 < size) : Fills size count (pages ++ pages') (n + n') where
  length := by
    rw [List.length_append]
    refine (ceilDiv_eq hs ?_ fun j hj => ?_).symm
    · rw [Nat.add_mul, ← hfull]
      have := h'.le hs
      omega
    · by_cases hjl : j < pages.length
      · have := h.lt hs hjl
        omega
      · have h1 := h'.lt hs (k := j - pages.length) (by omega)
        have h2 : j * size = pages.length * size + (j - pages.length) * size := by
          rw [← Nat.add_mul]
          congr 1
          omega
        omega
  count i b hb := by
    by_cases hi : i < pages.length
    · rw [List.getElem?_append_left hi] at hb
      rw [h.count i b hb]
      have := succ_mul_le_mul size hi
      omega
    · rw [List.getElem?_append_right (by omega)] at hb
      rw [h'.count _ b hb]
      have h2 : i * size = pages.length * size + (i - pages.length) * size := by
        rw [← Nat.add_mul]
        congr 1
        omega
      omega

theorem Fills.slice (h : Fills size count pages n) (hs : 0 < size) {first len : Nat}
    (hin : first + len ≤ pages.length) :
    Fills size count ((pages.drop first).take len) (min ((first + len) * size) n - first * size) where
  length := by
    rw [List.length_take, List.length_drop, Nat.min_eq_left (by omega)]
    have hsum : (first + len) * size = first * size + len * size := Nat.add_mul _ _ _
    refine (ceilDiv_eq hs (by omega) fun j hj => ?_).symm
    have h1 := h.lt hs (k := first + j) (by omega)
    have h2 : (first + j) * size = first * size + j * size := Nat.add_mul _ _ _
    have h3 := succ_mul_le_mul size hj
    omega
  count i b hb := by
    rw [List.getElem?_take] at hb
    split_ifs at hb with hi
    rw [List.getElem?_drop] at hb
    rw [h.count _ b hb, Nat.add_mul, Nat.add_mul]
    have := succ_mul_le_mul size hi
    omega

/-- A table cut to fewer items; the last kept page has to get its new count. -/
theorem Fills.take (h : Fills size count pages n) (hs : 0 < size) {n' : Nat} (hn : n' ≤ n)
    (htail : ∀ b, 0 < n' ⌈/⌉ size → pages[n' ⌈/⌉ size - 1]? = some b →
      count' b = n' - (n' ⌈/⌉ size - 1) * size)
    (hothers : ∀ i b, i + 1 < n' ⌈/⌉ size → pages[i]? = some b → count' b = count b) :
    Fills size count' (pages.take (n' ⌈/⌉ size)) n' where
  length := by
    have hle := (gc_smul_ceilDiv (a := size) hs).monotone_l hn
    rw [List.length_take, h.length]
    exact Nat.min_eq_left hle
  count i b hb := by
    rw [List.getElem?_take] at hb
    split_ifs at hb with hi
    have hn' := le_ceilDiv_mul hs n'
    have hlt := mul_lt_of_lt_ceilDiv hs hi
    by_cases hlast : i + 1 < n' ⌈/⌉ size
    · rw [hothers i b hlast hb, h.count i b hb]
      have h1 := mul_lt_of_lt_ceilDiv hs hlast
      rw [Nat.succ_mul] at h1
      omega
    · have hi' : n' ⌈/⌉ size - 1 = i := by omega
      have hb' := htail b (by omega) (by rw [hi']; exact hb)
      rw [hi'] at hb'
      have h1 : n' ⌈/⌉ size * size = i * size + size := by
        rw [← Nat.succ_mul]
        congr 1
        omega
      omega

theorem Fills.snoc {b : β} (hs : 0 < size) {slot : Nat} (hslot : slot < size)
    (hpre : ∀ c ∈ pages, count' c = size) (hb : count' b = slot + 1) :
    Fills size count' (pages ++ [b]) (pages.length * size + slot + 1) where
  length := by
    rw [List.length_append, List.length_singleton]
    refine (ceilDiv_eq hs (by rw [Nat.succ_mul]; omega) fun j hj => ?_).symm
    have := Nat.mul_le_mul_right size (Nat.le_of_lt_succ hj)
    omega
  count i c hc := by
    by_cases hi : i < pages.length
    · rw [List.getElem?_append_left hi] at hc
      rw [hpre c (List.mem_of_getElem? hc)]
      have := succ_mul_le_mul size hi
      omega
    · rw [List.getElem?_append_right (by omega)] at hc
      have hi' : i = pages.length := by
        by_contra hne
        rw [List.getElem?_eq_none (by simp; omega)] at hc
        cases hc
      subst hi'
      rw [Nat.sub_self] at hc
      cases hc
      rw [hb]
      omega

/-! ## Contents -/

/-- Item `i` is read at place `i % size` of page `i / size`. -/
def Reads (size : Nat) (cell : β → Nat → γ) (pages : List β) (items : List γ) : Prop :=
  ∀ i x, items[i]? = some x → ∃ b, pages[i / size]? = some b ∧ cell b (i % size) = x

variable {cell cell' : β → Nat → γ} {items : List γ}

theorem Reads.congr (h : Reads size cell pages items) (hc : ∀ b ∈ pages, cell' b = cell b) :
    Reads size cell' pages items := by
  intro i x hx
  obtain ⟨b, hb, hcell⟩ := h i x hx
  exact ⟨b, hb, by rw [hc b (List.mem_of_getElem? hb), hcell]⟩

theorem Reads.append {pages' : List β} {items' : List γ} (h : Reads size cell pages items)
    (hfull : items.length = pages.length * size) (h' : Reads size cell pages' items') (hs : 0 < size) :
    Reads size cell (pages ++ pages') (items ++ items') := by
  intro i x hx
  by_cases hi : i < items.length
  · rw [List.getElem?_append_left hi] at hx
    obtain ⟨b, hb, hcell⟩ := h i x hx
    refine ⟨b, ?_, hcell⟩
    rw [List.getElem?_append_left (Nat.div_lt_of_lt_mul (by rw [Nat.mul_comm, ← hfull]; exact hi)), hb]
  · rw [List.getElem?_append_right (by omega)] at hx
    obtain ⟨b, hb, hcell⟩ := h' _ x hx
    have hi2 : i = (i - items.length) + size * pages.length := by
      rw [Nat.mul_comm, ← hfull]
      omega
    have hdiv : i / size = pages.length + (i - items.length) / size := by
      conv_lhs => rw [hi2]
      rw [Nat.add_mul_div_left _ _ hs, Nat.add_comm]
    have hmod : i % size = (i - items.length) % size := by
      conv_lhs => rw [hi2]
      rw [Nat.add_mul_mod_self_left]
    refine ⟨b, ?_, by rw [hmod, hcell]⟩
    rw [hdiv, List.getElem?_append_right (Nat.le_add_right _ _), Nat.add_sub_cancel_left, hb]

theorem Reads.slice (h : Reads size cell pages items) (hs : 0 < size) (first len : Nat) :
    Reads size cell ((pages.drop first).take len) ((items.drop (first * size)).take (len * size)) := by
  intro i x hx
  rw [List.getElem?_take] at hx
  split_ifs at hx with hi
  rw [List.getElem?_drop] at hx
  obtain ⟨b, hb, hcell⟩ := h _ x hx
  have hdiv : (first * size + i) / size = first + i / size := by
    rw [Nat.add_comm, Nat.add_mul_div_right _ _ hs, Nat.add_comm]
  have hmod : (first * size + i) % size = i % size := by
    rw [Nat.add_comm, Nat.add_mul_mod_self_right]
  rw [hdiv] at hb
  rw [hmod] at hcell
  refine ⟨b, ?_, hcell⟩
  rw [List.getElem?_take, if_pos (Nat.div_lt_of_lt_mul (by rw [Nat.mul_comm]; exact hi)), List.getElem?_drop, hb]

theorem Reads.take (h : Reads size cell pages items) (hs : 0 < size) (n : Nat) :
    Reads size cell (pages.take (n ⌈/⌉ size)) (items.take n) := by
  intro i x hx
  rw [List.getElem?_take] at hx
  split_ifs at hx with hi
  obtain ⟨b, hb, hcell⟩ := h i x hx
  refine ⟨b, ?_, hcell⟩
  have hlt : i / size < n ⌈/⌉ size := by
    apply Nat.div_lt_of_lt_mul
    rw [Nat.mul_comm]
    exact Nat.lt_of_lt_of_le hi (le_ceilDiv_mul hs n)
  rw [List.getElem?_take, if_pos hlt, hb]

theorem Reads.extend (h : Reads size cell pages items) (more : List β) : Reads size cell (pages ++ more) items := by
  intro i x hx
  obtain ⟨b, hb, hcell⟩ := h i x hx
  obtain ⟨hlt, -⟩ := List.getElem?_eq_some_iff.1 hb
  exact ⟨b, by rw [List.getElem?_append_left hlt]; exact hb, hcell⟩

/-- Another last page, with the same contents as far as they are read. -/
theorem Reads.replaceLast {b b' : β} (h : Reads size cell (pages ++ [b]) items)
    (hpre : ∀ c ∈ pages, cell' c = cell c)
    (hlast : ∀ j, pages.length * size + j < items.length → cell' b' j = cell b j) :
    Reads size cell' (pages ++ [b']) items := by
  intro i x hx
  obtain ⟨c, hc, hcell⟩ := h i x hx
  by_cases hi : i / size < pages.length
  · rw [List.getElem?_append_left hi] at hc
    exact ⟨c, by rw [List.getElem?_append_left hi]; exact hc, by rw [hpre c (List.mem_of_getElem? hc)]; exact hcell⟩
  · rw [List.getElem?_append_right (by omega)] at hc
    have hi' : i / size = pages.length := by
      by_contra hne
      rw [List.getElem?_eq_none (by simp; omega)] at hc
      cases hc
    rw [hi', Nat.sub_self] at hc
    cases hc
    refine ⟨b', by rw [hi']; simp, ?_⟩
    rw [hlast, hcell]
    rw [← hi', Nat.div_add_mod' i size]
    exact (List.getElem?_eq_some_iff.1 hx).1

theorem Reads.snoc {b : β} {x : γ} {slot : Nat} (hs : 0 < size) (hslot : slot < size)
    (hlen : items.length = pages.length * size + slot) (h : Reads size cell (pages ++ [b]) items)
    (hb : cell b slot = x) : Reads size cell (pages ++ [b]) (items ++ [x]) := by
  intro i y hy
  by_cases hi : i < items.length
  · rw [List.getElem?_append_left hi] at hy
    exact h i y hy
  · rw [List.getElem?_append_right (by omega)] at hy
    have hi' : i = items.length := by
      by_contra hne
      rw [List.getElem?_eq_none (by simp; omega)] at hy
      cases hy
    subst hi'
    rw [Nat.sub_self] at hy
    cases hy
    have hdiv : items.length / size = pages.length := by
      rw [hlen, Nat.add_comm, Nat.add_mul_div_right _ _ hs, Nat.div_eq_of_lt hslot, Nat.zero_add]
    have hmod : items.length % size = slot := by
      rw [hlen, Nat.add_comm, Nat.add_mul_mod_self_right, Nat.mod_eq_of_lt hslot]
    exact ⟨b, by rw [hdiv]; simp, by rw [hmod, hb]⟩

theorem Reads.uncons {b : β} (hs : 0 < size) (h : Reads size cell (b :: pages) items) :
    (∀ i x, i < size → items[i]? = some x → cell b i = x) ∧ Reads size cell pages (items.drop size) := by
  refine ⟨fun i x hi hx => ?_, fun i x hx => ?_⟩
  · obtain ⟨c, hc, hcell⟩ := h i x hx
    rw [Nat.div_eq_of_lt hi] at hc
    cases hc
    rwa [Nat.mod_eq_of_lt hi] at hcell
  · rw [List.getElem?_drop] at hx
    obtain ⟨c, hc, hcell⟩ := h _ x hx
    have hdiv : (size + i) / size = i / size + 1 := by rw [Nat.add_comm, Nat.add_div_right _ hs]
    rw [hdiv, List.getElem?_cons_succ] at hc
    rw [Nat.add_mod_left] at hcell
    exact ⟨c, hc, hcell⟩

end SovereignCore
