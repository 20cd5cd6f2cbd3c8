import Mathlib.Data.String.Basic
import Mathlib.Order.Basic
import Std.Data.ExtTreeMap

/-!
# Range scans of a sorted table

The keys with a given beginning stand together in a sorted table, from that beginning on. A scan may stop at the first
key without it.

* `le_of_prefix`, `prefix_between` : what lies between a text and one that starts with it starts with it;
* `sorted_toList` : a table lists its keys in text order; `mem_onward` : what a range from a key holds;
* `scan`, `mem_scan` : a scan with an early exit finds all it looks for.
-/

namespace SovereignCore.Ranges

theorem prefix_between {α : Type} [LinearOrder α] {s a b : List α} (hsb : s ≤ b) (hba : b ≤ a) (h : s <+: a) : s <+: b := by
  induction s generalizing a b with
  | nil => exact List.nil_prefix
  | cons c s ih =>
    obtain ⟨t, rfl⟩ := h
    cases b with
    | nil => exact absurd (List.Lex.nil : [] < c :: s) (not_lt.2 hsb)
    | cons d b =>
      rcases lt_trichotomy c d with hcd | rfl | hdc
      · exact absurd (List.Lex.rel hcd : c :: (s ++ t) < d :: b) (not_lt.2 hba)
      · have hsb' : s ≤ b := not_lt.1 fun h => absurd (List.Lex.cons h : c :: b < c :: s) (not_lt.2 hsb)
        have hba' : b ≤ s ++ t := not_lt.1 fun h => absurd (List.Lex.cons h : c :: (s ++ t) < c :: b) (not_lt.2 hba)
        exact List.cons_prefix_cons.2 ⟨rfl, ih hsb' hba' (List.prefix_append s t)⟩
      · exact absurd (List.Lex.rel hdc : d :: b < c :: s) (not_lt.2 hsb)

theorem le_of_prefix {α : Type} [LinearOrder α] {s a : List α} (h : s <+: a) : s ≤ a := by
  obtain ⟨t, rfl⟩ := h
  refine not_lt.1 fun hlt => ?_
  induction s with
  | nil => exact List.not_lt_nil t hlt
  | cons c s ih =>
    cases hlt with
    | rel h => exact lt_irrefl c h
    | cons h => exact ih h

variable {β : Type} {l : List (String × β)} {f : String × β} {spec : String}

theorem sorted_toList (m : Std.ExtTreeMap String β) : m.toList.Pairwise fun f g => f.1 < g.1 :=
  Std.ExtTreeMap.ordered_keys_toList.imp fun h => compare_lt_iff_lt.1 h

def onward (spec : String) (l : List (String × β)) : List (String × β) := l.dropWhile fun f => f.1 < spec

theorem mem_onward (hl : l.Pairwise fun f g => f.1 < g.1) : f ∈ onward spec l ↔ f ∈ l ∧ spec ≤ f.1 := by
  induction l with
  | nil => simp [onward]
  | cons g l ih =>
    obtain ⟨hg, hl⟩ := List.pairwise_cons.1 hl
    by_cases hlt : g.1 < spec
    · have hdrop : onward spec (g :: l) = onward spec l := List.dropWhile_cons_of_pos (decide_eq_true hlt)
      rw [hdrop, ih hl, List.mem_cons]
      refine and_congr_left fun hle => (or_iff_right ?_).symm
      rintro rfl
      exact absurd hlt (not_lt.2 hle)
    · have hkeep : onward spec (g :: l) = g :: l := List.dropWhile_cons_of_neg (by simpa using hlt)
      rw [hkeep]
      refine (and_iff_left_of_imp fun hf => ?_).symm
      rcases List.mem_cons.1 hf with rfl | hf
      · exact not_lt.1 hlt
      · exact le_of_lt (lt_of_le_of_lt (not_lt.1 hlt) (hg f hf))

theorem pairwise_onward (hl : l.Pairwise fun f g => f.1 < g.1) : (onward spec l).Pairwise fun f g => f.1 < g.1 :=
  hl.sublist (List.dropWhile_sublist _)

/-- Keep what is inside, go on while the key starts with `spec`. -/
def scan (inside : String → Bool) (spec : String) : List (String × β) → List (String × β)
  | [] => []
  | f :: l =>
    if inside f.1 then f :: scan inside spec l
    else if spec.toList.isPrefixOf f.1.toList then scan inside spec l
    else []

theorem mem_scan {inside : String → Bool} (hinside : ∀ k, inside k = true → spec.toList <+: k.toList)
    (hl : l.Pairwise fun f g => f.1 < g.1) (hle : ∀ f ∈ l, spec ≤ f.1) :
    f ∈ scan inside spec l ↔ f ∈ l ∧ inside f.1 = true := by
  induction l with
  | nil => simp [scan]
  | cons g l ih =>
    obtain ⟨hg, hl⟩ := List.pairwise_cons.1 hl
    have ih := ih hl fun f hf => hle f (List.mem_cons_of_mem _ hf)
    unfold scan
    split_ifs with hin hpre
    · rw [List.mem_cons, ih, List.mem_cons, or_and_right]
      exact or_congr_left (iff_self_and.2 fun h => h ▸ hin)
    · rw [ih, List.mem_cons]
      refine and_congr_left fun hf => (or_iff_right ?_).symm
      rintro rfl
      exact hin hf
    · -- No later key is inside, since `g` stands before it and does not start with `spec`.
      refine iff_of_false List.not_mem_nil fun ⟨hf, hfin⟩ => hpre (List.isPrefixOf_iff_prefix.2 ?_)
      have hspec : spec.toList ≤ g.1.toList := String.le_iff_toList_le.1 (hle g List.mem_cons_self)
      rcases List.mem_cons.1 hf with rfl | hf
      · exact hinside _ hfin
      · exact prefix_between hspec (String.le_iff_toList_le.1 (le_of_lt (hg f hf))) (hinside _ hfin)

end SovereignCore.Ranges
