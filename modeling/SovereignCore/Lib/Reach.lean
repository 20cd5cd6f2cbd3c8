import Mathlib.Logic.Relation
import Mathlib.Data.Finset.Card
import Mathlib.Data.Set.Finite.Basic
import Mathlib.Order.WellFounded

/-!
# Closed and acyclic parts of a directed graph

* `Closed R S` : no edge leaves `S`;
* `Acyclic R S` : no node of `S` reaches itself;
* `Closed.insert`, `Acyclic.insert` : a node whose edges all lead into `S` joins it;
* `acyclic_iff_rooted` : with one parent at most for each node, no cycles means that everything hangs from roots;
* `Explored` : no edge of a depth-first stack is forgotten; `Explored.skip`, `Explored.enter`, `Explored.leave` : the
  three moves of the search keep that.
-/

namespace SovereignCore.Reach

open Relation

variable {α : Type*} {R : α → α → Prop} {S : Set α} {a x y : α}

/-- No edge leaves `S`. -/
def Closed (R : α → α → Prop) (S : Set α) : Prop := ∀ x ∈ S, ∀ y, R x y → y ∈ S

/-- No node of `S` reaches itself. -/
def Acyclic (R : α → α → Prop) (S : Set α) : Prop := ∀ x ∈ S, ¬ TransGen R x x

theorem Closed.transGen (h : Closed R S) (hx : x ∈ S) (hxy : TransGen R x y) : y ∈ S := by
  induction hxy with
  | single hy => exact h _ hx _ hy
  | tail _ hyz ih => exact h _ ih _ hyz

theorem Closed.insert (h : Closed R S) (ha : ∀ y, R a y → y ∈ S) : Closed R (insert a S) := by
  intro x hx y hxy
  obtain rfl | hx := hx
  · exact Or.inr (ha y hxy)
  · exact Or.inr (h x hx y hxy)

/-- A node outside of a closed part, with all its edges into it, lies on no cycle. -/
theorem Acyclic.insert (hc : Closed R S) (h : Acyclic R S) (ha : ∀ y, R a y → y ∈ S) (hnot : a ∉ S) :
    Acyclic R (insert a S) := by
  intro x hx hcycle
  obtain rfl | hx := hx
  · obtain ⟨y, hxy, hyx⟩ := TransGen.head'_iff.1 hcycle
    obtain heq | hyx := reflTransGen_iff_eq_or_transGen.1 hyx
    · rw [← heq] at hxy
      exact hnot (ha _ hxy)
    · exact hnot (hc.transGen (ha y hxy) hyx)
  · exact h x hx hcycle

/-! ## Forests -/

/-- A node below a root reaches itself through no cycle: the path up from it is the only one. -/
theorem not_cycle_of_root (hdet : ∀ {x y z}, R x z → R y z → x = y) (hroot : ∀ y, ¬ R y a)
    (hax : ReflTransGen R a x) : ¬ TransGen R x x := by
  induction hax with
  | refl =>
    intro hcycle
    obtain ⟨y, -, hya⟩ := TransGen.tail'_iff.1 hcycle
    exact hroot y hya
  | tail _ hxz ih =>
    intro hcycle
    obtain ⟨y, hzy, hyz⟩ := TransGen.tail'_iff.1 hcycle
    obtain rfl := hdet hxz hyz
    exact ih (TransGen.head' hxz hzy)

/-- Above every node of a finite part without cycles, closed upwards, stands a root. -/
theorem exists_root (hfin : S.Finite) (hup : Closed (Function.swap R) S) (h : Acyclic R S) (hx : x ∈ S) :
    ∃ r ∈ S, (∀ y, ¬ R y r) ∧ ReflTransGen R r x := by
  have := hfin.to_subtype
  let above : S → S → Prop := fun b c => TransGen R b.1 c.1
  have : IsTrans S above := ⟨fun _ _ _ hbc hcd => hbc.trans hcd⟩
  have : Std.Irrefl above := ⟨fun b => h b.1 b.2⟩
  have hwf : WellFounded above := Finite.wellFounded_of_trans_of_irrefl above
  -- by induction from the top down
  suffices ∀ c : S, ∃ r ∈ S, (∀ y, ¬ R y r) ∧ ReflTransGen R r c.1 from this ⟨x, hx⟩
  intro c
  induction c using hwf.induction with
  | _ c ih =>
    by_cases hroot : ∃ y, R y c.1
    · obtain ⟨y, hyc⟩ := hroot
      obtain ⟨r, hr, hnone, hry⟩ := ih ⟨y, hup c.1 c.2 y hyc⟩ (TransGen.single hyc)
      exact ⟨r, hr, hnone, hry.tail hyc⟩
    · exact ⟨c.1, c.2, fun y hyc => hroot ⟨y, hyc⟩, ReflTransGen.refl⟩

/-- A finite part, closed upwards, in which each node has at most one parent has no cycle exactly when all of it hangs
from roots. -/
theorem acyclic_iff_rooted (hfin : S.Finite) (hup : Closed (Function.swap R) S)
    (hdet : ∀ {x y z}, R x z → R y z → x = y) :
    Acyclic R S ↔ ∀ x ∈ S, ∃ r ∈ S, (∀ y, ¬ R y r) ∧ ReflTransGen R r x := by
  constructor
  · intro h x hx
    exact exists_root hfin hup h hx
  · intro h x hx
    obtain ⟨r, -, hroot, hrx⟩ := h x hx
    exact not_cycle_of_root hdet hroot hrx

/-! ## The stack of a depth-first search -/

/-- Every edge out of a stacked node is still to be tried, leads into `S`, or leads to the node stacked on it. -/
def Explored (R : α → α → Prop) (S : Set α) : Option α → List (α × List α) → Prop
  | _, [] => True
  | above, (n, todo) :: below => (∀ y, R n y → y ∈ todo ∨ y ∈ S ∨ above = some y) ∧ Explored R S (some n) below

variable {above : Option α} {stack : List (α × List α)} {todo : List α}

theorem Explored.mono {T : Set α} (hST : S ⊆ T) (h : Explored R S above stack) : Explored R T above stack := by
  induction stack generalizing above with
  | nil => trivial
  | cons frame below ih =>
    obtain ⟨hout, hbelow⟩ := h
    refine ⟨fun y hy => ?_, ih hbelow⟩
    obtain hy | hy | hy := hout y hy
    · exact Or.inl hy
    · exact Or.inr (Or.inl (hST hy))
    · exact Or.inr (Or.inr hy)

/-- The node on top of the stack is left for good: it is in `T`, so nothing need be stacked on the one below. -/
theorem Explored.leave {T : Set α} (hST : S ⊆ T) (hx : x ∈ T) (h : Explored R S (some x) stack) :
    Explored R T none stack := by
  cases stack with
  | nil => trivial
  | cons frame below =>
    obtain ⟨hout, hbelow⟩ := h
    refine ⟨fun y hy => ?_, hbelow.mono hST⟩
    obtain hy | hy | hy := hout y hy
    · exact Or.inl hy
    · exact Or.inr (Or.inl (hST hy))
    · rw [← Option.some.inj hy]
      exact Or.inr (Or.inl hx)

/-- The edge tried leads into `S`. -/
theorem Explored.skip (hx : x ∈ S) (h : Explored R S none ((a, x :: todo) :: stack)) :
    Explored R S none ((a, todo) :: stack) := by
  refine ⟨fun y hy => ?_, h.2⟩
  obtain hy | hy | hy := h.1 y hy
  · obtain rfl | hy := List.mem_cons.1 hy
    · exact Or.inr (Or.inl hx)
    · exact Or.inl hy
  · exact Or.inr (Or.inl hy)
  · cases hy

/-- The edge tried is followed: its end is stacked with all its edges to try. -/
theorem Explored.enter {next : List α} (hnext : ∀ y, R x y → y ∈ next)
    (h : Explored R S none ((a, x :: todo) :: stack)) :
    Explored R S none ((x, next) :: (a, todo) :: stack) := by
  refine ⟨fun y hy => Or.inl (hnext y hy), fun y hy => ?_, h.2⟩
  obtain hy | hy | hy := h.1 y hy
  · obtain rfl | hy := List.mem_cons.1 hy
    · exact Or.inr (Or.inr rfl)
    · exact Or.inl hy
  · exact Or.inr (Or.inl hy)
  · cases hy

end SovereignCore.Reach
