import SovereignCore.Residency.Tiling
import Mathlib.Data.Finset.Card

/-!
# Holder generations over whole runs

`HolderGenerations` hands out generations `1..=max` from a counter that goes round, and skips the live ones. The loop in
`alloc` has no bound of its own; it ends since the counter does not come back to a value before it has met all of them.

* `startingAt`, `Act`, `after` : a start and any sequence of `alloc` and `release`;
* `InRange` : the counter and the live values stay within `1..=max`;
* `ahead`, `allocLoop_none` : the values that a loop which has not ended has met;
* `generations_fresh` : `alloc` is exact.
-/

namespace SovereignCore.Residency.HolderGenerations

open Std

/-- The counter starts at `first`, clamped into the range. -/
def startingAt (first max : Nat) : HolderGenerations :=
  let max := Nat.max max 1
  ⟨Nat.min (Nat.max first 1) max, max, ∅⟩

inductive Act
  | alloc
  | release (gen : Nat)

def step (g : HolderGenerations) : Act → HolderGenerations
  | .alloc => (g.alloc.map Prod.snd).getD g
  | .release gen => g.release gen

def after (acts : List Act) (g : HolderGenerations) : HolderGenerations := acts.foldl step g

variable {g g' : HolderGenerations} {gen fuel : Nat}

/-- The counter and all live values lie in `1..=max`. -/
structure InRange (g : HolderGenerations) : Prop where
  next_pos : 1 ≤ g.next
  next_le : g.next ≤ g.max
  live : ∀ n ∈ g.live, 1 ≤ n ∧ n ≤ g.max

/-! ## The loop -/

/-- The counter after `k` steps. -/
def ahead (g : HolderGenerations) (k : Nat) : Nat := (g.next - 1 + k) % g.max + 1

theorem ahead_zero (h : InRange g) : g.ahead 0 = g.next := by
  have hpos := h.next_pos
  have hle := h.next_le
  unfold ahead
  rw [Nat.add_zero, Nat.mod_eq_of_lt (by omega)]
  omega

def bump (g : HolderGenerations) : HolderGenerations := { g with next := if g.max ≤ g.next then 1 else g.next + 1 }

theorem InRange.bump (h : InRange g) : InRange g.bump := by
  have hpos := h.next_pos
  have hle := h.next_le
  refine ⟨?_, ?_, h.live⟩
  · show 1 ≤ if g.max ≤ g.next then 1 else g.next + 1
    split_ifs <;> omega
  · show (if g.max ≤ g.next then 1 else g.next + 1) ≤ g.max
    split_ifs <;> omega

theorem ahead_bump (h : InRange g) (k : Nat) : g.bump.ahead k = g.ahead (k + 1) := by
  have hpos := h.next_pos
  have hle := h.next_le
  have hnext : g.bump.next = if g.max ≤ g.next then 1 else g.next + 1 := rfl
  unfold ahead
  rw [hnext, show g.bump.max = g.max from rfl]
  split_ifs with hwrap
  · have hsum : g.next - 1 + (k + 1) = 1 - 1 + k + g.max := by omega
    rw [hsum, Nat.add_mod_right]
  · have hsum : g.next + 1 - 1 + k = g.next - 1 + (k + 1) := by omega
    rw [hsum]

theorem allocLoop_succ : allocLoop (fuel + 1) g =
    if g.next ∈ g.live then allocLoop fuel g.bump else some (g.next, { g.bump with live := g.live.insert g.next }) := rfl

theorem allocLoop_none (h : InRange g) (hnone : allocLoop fuel g = none) : ∀ k < fuel, g.ahead k ∈ g.live := by
  induction fuel generalizing g with
  | zero =>
    intro k hk
    exact absurd hk (Nat.not_lt_zero k)
  | succ fuel ih =>
    rw [allocLoop_succ] at hnone
    split_ifs at hnone with hlive
    intro k hk
    cases k with
    | zero =>
      rw [ahead_zero h]
      exact hlive
    | succ k =>
      rw [← ahead_bump h]
      exact ih h.bump hnone k (by omega)

/-- In fewer than `max` steps the counter meets no value twice. -/
theorem ahead_inj (hmax : fuel ≤ g.max) : Set.InjOn g.ahead (Finset.range fuel) := by
  intro i hi j hj heq
  have hi' : i < fuel := by simpa using hi
  have hj' : j < fuel := by simpa using hj
  have hmod : (g.next - 1 + i) ≡ (g.next - 1 + j) [MOD g.max] := Nat.succ.inj heq
  exact Nat.ModEq.eq_of_lt_of_lt (Nat.ModEq.add_left_cancel' _ hmod) (by omega) (by omega)

def liveSet (g : HolderGenerations) : Finset Nat := g.live.toList.toFinset

theorem mem_liveSet {n : Nat} : n ∈ g.liveSet ↔ n ∈ g.live := by
  unfold liveSet
  rw [List.mem_toFinset, ExtTreeSet.mem_toList]

theorem card_liveSet : g.liveSet.card = g.live.size := by
  unfold liveSet
  rw [List.toFinset_card_of_nodup, ExtTreeSet.length_toList]
  refine (ExtTreeSet.distinct_toList (t := g.live)).imp ?_
  rintro a b hne rfl
  exact hne (Nat.compare_eq_eq.2 rfl)

/-- The loop ends within one more step than there are live values. -/
theorem allocLoop_ends (h : InRange g) (hfree : g.live.size < g.max) : allocLoop (g.live.size + 1) g ≠ none := by
  intro hnone
  have hcard : (Finset.range (g.live.size + 1)).card ≤ g.liveSet.card := by
    refine Finset.card_le_card_of_injOn g.ahead ?_ (ahead_inj hfree)
    intro k hk
    exact mem_liveSet.2 (allocLoop_none h hnone k (by simpa using hk))
  rw [Finset.card_range, card_liveSet] at hcard
  omega

theorem allocLoop_mono {fuel' : Nat} (h : allocLoop fuel g = some (gen, g')) (hle : fuel ≤ fuel') :
    allocLoop fuel' g = some (gen, g') := by
  induction fuel generalizing g fuel' with
  | zero => cases h
  | succ fuel ih =>
    obtain ⟨fuel', rfl⟩ : ∃ n, fuel' = n + 1 := ⟨fuel' - 1, by omega⟩
    rw [allocLoop_succ] at h ⊢
    split_ifs at h ⊢ with hlive
    · exact ih h (by omega)
    · exact h

theorem allocLoop_range (h : InRange g) (hs : allocLoop fuel g = some (gen, g')) : 1 ≤ gen ∧ gen ≤ g.max ∧ InRange g' := by
  induction fuel generalizing g with
  | zero => cases hs
  | succ fuel ih =>
    rw [allocLoop_succ] at hs
    split_ifs at hs with hlive
    · -- the range stays while the counter moves
      have hrest := ih h.bump hs
      exact hrest
    · obtain ⟨rfl, rfl⟩ := Prod.mk.inj (Option.some.inj hs)
      refine ⟨h.next_pos, h.next_le, h.bump.next_pos, h.bump.next_le, ?_⟩
      intro n hn
      obtain rfl | hn := Table.mem_setInsert.1 hn
      · exact ⟨h.next_pos, h.next_le⟩
      · exact h.live n hn

/-! ## Runs -/

theorem InRange.startingAt (first max : Nat) : InRange (startingAt first max) := by
  refine ⟨?_, ?_, ?_⟩
  · show 1 ≤ Nat.min (Nat.max first 1) (Nat.max max 1)
    exact le_min (le_max_right first 1) (le_max_right max 1)
  · exact min_le_right _ _
  · intro n hn
    exact absurd hn ExtTreeSet.not_mem_empty

theorem max_alloc (hs : g.alloc = some (gen, g')) : g'.max = g.max := by
  have hloop : ∀ {fuel : Nat} {g : HolderGenerations}, allocLoop fuel g = some (gen, g') → g'.max = g.max := by
    intro fuel
    induction fuel with
    | zero =>
      intro g hs
      cases hs
    | succ fuel ih =>
      intro g hs
      rw [allocLoop_succ] at hs
      split_ifs at hs
      · have hrest := ih hs
        exact hrest
      · obtain ⟨rfl, rfl⟩ := Prod.mk.inj (Option.some.inj hs)
        rfl
  unfold alloc at hs
  split_ifs at hs
  exact hloop hs

theorem step_inRange (h : InRange g) (act : Act) : InRange (g.step act) ∧ (g.step act).max = g.max := by
  cases act with
  | alloc =>
    unfold step
    cases hs : g.alloc with
    | none => exact ⟨h, rfl⟩
    | some r =>
      obtain ⟨gen, g'⟩ := r
      refine ⟨?_, max_alloc hs⟩
      unfold alloc at hs
      split_ifs at hs
      exact (allocLoop_range h hs).2.2
  | release gen =>
    refine ⟨⟨h.next_pos, h.next_le, fun n hn => h.live n ?_⟩, rfl⟩
    exact (mem_release.1 hn).2

theorem after_inRange (h : InRange g) (acts : List Act) : InRange (after acts g) ∧ (after acts g).max = g.max := by
  induction acts generalizing g with
  | nil => exact ⟨h, rfl⟩
  | cons act acts ih =>
    obtain ⟨hstep, hmax⟩ := step_inRange h act
    obtain ⟨hrest, hmax'⟩ := ih hstep
    exact ⟨hrest, hmax'.trans hmax⟩

/-- As many live values as generations, exactly when all of them are live. -/
theorem exhausted_iff (h : InRange g) : g.max ≤ g.live.size ↔ ∀ n, 1 ≤ n → n ≤ g.max → n ∈ g.live := by
  have hsub : g.liveSet ⊆ Finset.Icc 1 g.max := by
    intro n hn
    exact Finset.mem_Icc.2 (h.live n (mem_liveSet.1 hn))
  rw [← card_liveSet]
  constructor
  · intro hcard n hone hmax
    have heq : g.liveSet = Finset.Icc 1 g.max := Finset.eq_of_subset_of_card_le hsub (by simpa using hcard)
    rw [← mem_liveSet, heq]
    exact Finset.mem_Icc.2 ⟨hone, hmax⟩
  · intro hall
    have hsup : Finset.Icc 1 g.max ⊆ g.liveSet := by
      intro n hn
      obtain ⟨hone, hmax⟩ := Finset.mem_Icc.1 hn
      exact mem_liveSet.2 (hall n hone hmax)
    simpa using Finset.card_le_card hsup

/-- **Generations never collide.** After any sequence of `alloc` and `release` from any start, `alloc` refuses exactly
when all generations `1..=max` are live; otherwise its loop ends, within one more step than there are live values, with a
generation in `1..=max` that is not live, and makes that one live. -/
theorem generations_fresh (first max : Nat) (acts : List Act) :
    ((after acts (startingAt first max)).alloc = none ↔
      ∀ n, 1 ≤ n → n ≤ Nat.max max 1 → n ∈ (after acts (startingAt first max)).live) ∧
    ((∃ n, 1 ≤ n ∧ n ≤ Nat.max max 1 ∧ n ∉ (after acts (startingAt first max)).live) →
      ∃ gen g', (after acts (startingAt first max)).alloc = some (gen, g') ∧
        (∀ fuel, (after acts (startingAt first max)).live.size < fuel →
          allocLoop fuel (after acts (startingAt first max)) = some (gen, g')) ∧
        1 ≤ gen ∧ gen ≤ Nat.max max 1 ∧ gen ∉ (after acts (startingAt first max)).live ∧
        ∀ n, n ∈ g'.live ↔ n = gen ∨ n ∈ (after acts (startingAt first max)).live) := by
  obtain ⟨hrange, hmax⟩ := after_inRange (.startingAt first max) acts
  generalize after acts (startingAt first max) = g at hrange hmax ⊢
  have hmax' : g.max = Nat.max max 1 := hmax
  rw [← hmax']
  have hends : g.live.size < g.max → ∃ gen g', g.alloc = some (gen, g') ∧
      allocLoop (g.live.size + 1) g = some (gen, g') := by
    intro hfree
    obtain ⟨⟨gen, g'⟩, hloop⟩ := Option.ne_none_iff_exists'.1 (allocLoop_ends hrange hfree)
    refine ⟨gen, g', ?_, hloop⟩
    unfold alloc
    rw [if_neg (by omega), hloop]
  refine ⟨?_, ?_⟩
  · rw [← exhausted_iff hrange]
    constructor
    · intro hnone
      by_contra hlt
      obtain ⟨gen, g', hsome, -⟩ := hends (by omega)
      rw [hnone] at hsome
      cases hsome
    · exact fun hfull => if_pos hfull
  · rintro ⟨n, hone, hle, hn⟩
    have hfree : g.live.size < g.max := by
      by_contra hfull
      exact hn ((exhausted_iff hrange).1 (by omega) n hone hle)
    obtain ⟨gen, g', hsome, hloop⟩ := hends hfree
    obtain ⟨hpos, hgen, -⟩ := allocLoop_range hrange hloop
    obtain ⟨hfresh, hlive⟩ := alloc_some hsome
    exact ⟨gen, g', hsome, fun fuel hfuel => allocLoop_mono hloop hfuel, hpos, hgen, hfresh, hlive⟩

end SovereignCore.Residency.HolderGenerations
