import Mathlib.Algebra.Order.Field.Rat
import Mathlib.Algebra.Order.Field.Power
import Mathlib.Algebra.Order.Ring.Abs
import Mathlib.Order.Interval.Set.Monotone
import Mathlib.Tactic.Linarith
import Mathlib.Tactic.Ring

/-!
# Binary floating-point formats

A pattern is a sign, a biased exponent and `p` fraction bits. Without its sign it is a number, and its value grows with
that number: by equal steps within a binade, which is what makes rounding the pattern the same as rounding the value.

* `magnitude` : the value of an unsigned pattern, also of those past the largest finite one;
* `ulp`, `magnitude_succ`, `magnitude_add` : the steps, within a binade all the same;
* `magnitude_widen` : more fraction bits, the same value;
* `roundEven`, `roundEven_spec` : dropping bits of a number, to the nearest and ties to even;
* `round_nearest`, `round_tie` : so rounded, a pattern is nearest in value;
* `Format` : signed patterns with infinities and NaNs; `RoundsTo` : round to nearest even, with its overflow.
-/

namespace SovereignCore.Binary

section Magnitudes

variable {p s n k : Nat} {z : Int}

/-! ## Magnitudes -/

/-- Difference to the next pattern in the binade of exponent `e`. Subnormals have the steps of the first binade. -/
def ulp (p : Nat) (z : Int) (e : Nat) : ℚ := 2 ^ ((max e 1 : Nat) - z - p : Int)

/-- The value of an unsigned pattern: the fraction, with the implicit bit above the subnormals, in steps of the binade. -/
def magnitude (p : Nat) (z : Int) (n : Nat) : ℚ :=
  ((n - (max (n / 2 ^ p) 1 - 1) * 2 ^ p : Nat) : ℚ) * ulp p z (n / 2 ^ p)

theorem ulp_pos (e : Nat) : 0 < ulp p z e := zpow_pos (by norm_num) _

theorem ulp_succ {e : Nat} (he : 1 ≤ e) : ulp p z (e + 1) = 2 * ulp p z e := by
  unfold ulp
  rw [max_eq_left (by omega), max_eq_left he, ← zpow_one_add₀ (by norm_num)]
  congr 1
  push_cast
  ring

/-- The next pattern is one step away, also across the end of a binade. -/
theorem magnitude_succ (n : Nat) : magnitude p z (n + 1) = magnitude p z n + ulp p z (n / 2 ^ p) := by
  have hpos : 0 < 2 ^ p := Nat.two_pow_pos p
  have hle : (max (n / 2 ^ p) 1 - 1) * 2 ^ p ≤ n := by
    have hexp : ∀ e : Nat, max e 1 - 1 ≤ e := fun e => by omega
    calc (max (n / 2 ^ p) 1 - 1) * 2 ^ p ≤ n / 2 ^ p * 2 ^ p := Nat.mul_le_mul_right _ (hexp _)
      _ ≤ n := Nat.div_mul_le_self n _
  unfold magnitude
  by_cases hend : (n + 1) / 2 ^ p = n / 2 ^ p
  · rw [hend, Nat.succ_sub hle]
    push_cast
    ring
  · -- the next pattern opens a binade, with a step twice as long
    have hstep : (n + 1) / 2 ^ p = n / 2 ^ p + 1 := by
      rw [Nat.succ_div]
      split_ifs with hdvd
      · rfl
      · exact absurd (by rw [Nat.succ_div, if_neg hdvd]; rfl) hend
    have hmul : n + 1 = (n / 2 ^ p + 1) * 2 ^ p := by
      have hdvd : 2 ^ p ∣ n + 1 := by
        by_contra hnot
        exact hend (by rw [Nat.succ_div, if_neg hnot]; rfl)
      rw [← hstep, Nat.div_mul_cancel hdvd]
    rw [hstep]
    by_cases hzero : n / 2 ^ p = 0
    · rw [hzero] at hmul ⊢
      unfold ulp
      simp only [Nat.zero_add, Nat.max_self, Nat.sub_self, Nat.zero_mul, Nat.sub_zero, Nat.zero_max]
      push_cast
      ring
    · have hone : 1 ≤ n / 2 ^ p := Nat.one_le_iff_ne_zero.2 hzero
      rw [ulp_succ hone, max_eq_left (Nat.le_add_left 1 _), max_eq_left hone]
      generalize n / 2 ^ p = e at hmul hone
      obtain ⟨e, rfl⟩ : ∃ e', e = e' + 1 := ⟨e - 1, by omega⟩
      have hthis : n - (e + 1 - 1) * 2 ^ p = 2 * 2 ^ p - 1 := by
        rw [Nat.add_sub_cancel]
        rw [Nat.add_mul, Nat.add_mul, Nat.one_mul] at hmul
        omega
      have hnext : n + 1 - (e + 1 + 1 - 1) * 2 ^ p = 2 ^ p := by
        rw [hmul, Nat.add_sub_cancel, Nat.add_mul (e + 1) 1, Nat.one_mul, Nat.add_sub_cancel_left]
      rw [hthis, hnext, Nat.cast_sub (by omega)]
      push_cast
      ring

theorem magnitude_strictMono : StrictMono (magnitude p z) := by
  refine strictMono_nat_of_lt_succ fun n => ?_
  rw [magnitude_succ]
  have := ulp_pos (p := p) (z := z) (n / 2 ^ p)
  linarith

theorem magnitude_zero : magnitude p z 0 = 0 := by
  unfold magnitude
  simp

/-- Up to the end of its binade, a pattern's value grows by equal steps. -/
theorem magnitude_add {j : Nat} (h : n + j ≤ (n / 2 ^ p + 1) * 2 ^ p) :
    magnitude p z (n + j) = magnitude p z n + j * ulp p z (n / 2 ^ p) := by
  induction j with
  | zero => simp
  | succ j ih =>
    have hsame : (n + j) / 2 ^ p = n / 2 ^ p := by
      have hlow : n / 2 ^ p ≤ (n + j) / 2 ^ p := Nat.div_le_div_right (by omega)
      have hhigh : (n + j) / 2 ^ p < n / 2 ^ p + 1 := (Nat.div_lt_iff_lt_mul (Nat.two_pow_pos p)).2 (by omega)
      omega
    rw [← Nat.add_assoc, magnitude_succ, ih (by omega), hsame]
    push_cast
    ring

theorem magnitude_widen : magnitude (p + s) z (k * 2 ^ s) = magnitude p z k := by
  have hexp : k * 2 ^ s / 2 ^ (p + s) = k / 2 ^ p := by
    rw [Nat.pow_add, Nat.mul_div_mul_right _ _ (Nat.two_pow_pos s)]
  have hulp : ulp p z (k / 2 ^ p) = 2 ^ s * ulp (p + s) z (k / 2 ^ p) := by
    unfold ulp
    rw [← zpow_natCast, ← zpow_add₀ (by norm_num)]
    congr 1
    push_cast
    ring
  unfold magnitude
  rw [hexp, hulp, Nat.pow_add, ← Nat.mul_assoc, ← Nat.sub_mul]
  push_cast
  ring

/-! ## Dropping bits -/

/-- Half of the dropped range, less one if the kept part is even, is added before the cut. -/
def roundEven (s n : Nat) : Nat := (n + (2 ^ s - 1 + n / 2 ^ (s + 1) % 2)) / 2 ^ (s + 1)

/-- The lower or the upper neighbour, by the part that is cut off. -/
theorem roundEven_spec (s n : Nat) :
    (roundEven s n = n / 2 ^ (s + 1) ∧ (n % 2 ^ (s + 1) < 2 ^ s ∨ (n % 2 ^ (s + 1) = 2 ^ s ∧ n / 2 ^ (s + 1) % 2 = 0))) ∨
      (roundEven s n = n / 2 ^ (s + 1) + 1 ∧
        (2 ^ s < n % 2 ^ (s + 1) ∨ (n % 2 ^ (s + 1) = 2 ^ s ∧ n / 2 ^ (s + 1) % 2 = 1))) := by
  have hpos : 0 < 2 ^ s := Nat.two_pow_pos s
  have hpow : 2 ^ (s + 1) = 2 * 2 ^ s := by rw [Nat.pow_succ, Nat.mul_comm]
  have hlt := Nat.mod_lt n (Nat.two_pow_pos (s + 1))
  have hcut : roundEven s n = n / 2 ^ (s + 1) + (n % 2 ^ (s + 1) + (2 ^ s - 1 + n / 2 ^ (s + 1) % 2)) / 2 ^ (s + 1) := by
    unfold roundEven
    rw [Nat.add_comm (n / 2 ^ (s + 1)), ← Nat.add_mul_div_left _ _ (Nat.two_pow_pos (s + 1))]
    congr 1
    have := Nat.mod_add_div n (2 ^ (s + 1))
    omega
  rw [hcut]
  generalize n % 2 ^ (s + 1) = j at hlt ⊢
  generalize n / 2 ^ (s + 1) = q
  obtain heven | hodd : q % 2 = 0 ∨ q % 2 = 1 := by omega
  · rw [heven]
    by_cases hup : 2 ^ s < j
    · have hone : (j + (2 ^ s - 1 + 0)) / 2 ^ (s + 1) = 1 := Nat.div_eq_of_lt_le (by omega) (by omega)
      omega
    · have hnone : (j + (2 ^ s - 1 + 0)) / 2 ^ (s + 1) = 0 := Nat.div_eq_of_lt (by omega)
      omega
  · rw [hodd]
    by_cases hup : 2 ^ s ≤ j
    · have hone : (j + (2 ^ s - 1 + 1)) / 2 ^ (s + 1) = 1 := Nat.div_eq_of_lt_le (by omega) (by omega)
      omega
    · have hnone : (j + (2 ^ s - 1 + 1)) / 2 ^ (s + 1) = 0 := Nat.div_eq_of_lt (by omega)
      omega

/-! ## Nearest in value -/

/-- A pattern between two neighbours of fewer bits divides their distance as its number does. -/
theorem between_neighbours (hs : s + 1 ≤ p) (n : Nat) : ∃ u : ℚ, 0 < u ∧
    magnitude p z n = magnitude p z (n / 2 ^ (s + 1) * 2 ^ (s + 1)) + (n % 2 ^ (s + 1) : Nat) * u ∧
    magnitude p z ((n / 2 ^ (s + 1) + 1) * 2 ^ (s + 1)) =
      magnitude p z (n / 2 ^ (s + 1) * 2 ^ (s + 1)) + 2 * 2 ^ s * u := by
  obtain ⟨q, rfl⟩ : ∃ q, p = s + 1 + q := ⟨p - (s + 1), by omega⟩
  have hexp : ∀ k, k * 2 ^ (s + 1) / 2 ^ (s + 1 + q) = k / 2 ^ q := by
    intro k
    rw [Nat.pow_add 2 (s + 1) q, Nat.mul_comm k, Nat.mul_div_mul_left _ _ (Nat.two_pow_pos (s + 1))]
  have hend : (n / 2 ^ (s + 1) + 1) * 2 ^ (s + 1) ≤ (n / 2 ^ (s + 1) / 2 ^ q + 1) * 2 ^ (s + 1 + q) := by
    rw [Nat.pow_add 2 (s + 1) q, Nat.mul_comm (2 ^ (s + 1)) (2 ^ q), ← Nat.mul_assoc]
    exact Nat.mul_le_mul_right _ (Nat.succ_le_of_lt (Nat.lt_mul_of_div_lt (Nat.lt_succ_self _) (Nat.two_pow_pos q)))
  have hmod := Nat.mod_lt n (Nat.two_pow_pos (s + 1))
  have hn : n / 2 ^ (s + 1) * 2 ^ (s + 1) + n % 2 ^ (s + 1) = n := Nat.div_add_mod' n _
  refine ⟨ulp (s + 1 + q) z (n / 2 ^ (s + 1) / 2 ^ q), ulp_pos _, ?_, ?_⟩
  · have hadd := magnitude_add (p := s + 1 + q) (z := z) (n := n / 2 ^ (s + 1) * 2 ^ (s + 1))
      (j := n % 2 ^ (s + 1)) (by rw [hexp]; rw [Nat.add_mul, Nat.one_mul] at hend; omega)
    rw [hn, hexp] at hadd
    exact hadd
  · have hadd := magnitude_add (p := s + 1 + q) (z := z) (n := n / 2 ^ (s + 1) * 2 ^ (s + 1))
      (j := 2 ^ (s + 1)) (by rw [hexp]; rw [Nat.add_mul, Nat.one_mul] at hend; exact hend)
    rw [hexp] at hadd
    rw [Nat.add_mul, Nat.one_mul, hadd]
    push_cast
    ring

/-- Dropping bits rounds to a nearest value; between two that are as near, to the even pattern. -/
theorem round_nearest (hs : s + 1 ≤ p) (n c : Nat) :
    |magnitude p z (roundEven s n * 2 ^ (s + 1)) - magnitude p z n| ≤
        |magnitude p z (c * 2 ^ (s + 1)) - magnitude p z n| ∧
      (c ≠ roundEven s n → |magnitude p z (roundEven s n * 2 ^ (s + 1)) - magnitude p z n| =
        |magnitude p z (c * 2 ^ (s + 1)) - magnitude p z n| → roundEven s n % 2 = 0) := by
  obtain ⟨u, hu, hlow, hhigh⟩ := between_neighbours (z := z) hs n
  have hspec := roundEven_spec s n
  have hpow : 2 ^ (s + 1) = 2 * 2 ^ s := by rw [Nat.pow_succ, Nat.mul_comm]
  have hlt := Nat.mod_lt n (Nat.two_pow_pos (s + 1))
  have hmono : ∀ {a b : Nat}, a ≤ b → magnitude p z (a * 2 ^ (s + 1)) ≤ magnitude p z (b * 2 ^ (s + 1)) :=
    fun h => magnitude_strictMono.monotone (Nat.mul_le_mul_right _ h)
  have hstrict : ∀ {a b : Nat}, a < b → magnitude p z (a * 2 ^ (s + 1)) < magnitude p z (b * 2 ^ (s + 1)) :=
    fun h => magnitude_strictMono (Nat.mul_lt_mul_of_pos_right h (Nat.two_pow_pos _))
  generalize n % 2 ^ (s + 1) = j at hlow hspec hlt
  generalize n / 2 ^ (s + 1) = q at hlow hhigh hspec
  have hj : (0 : ℚ) ≤ j := Nat.cast_nonneg j
  have hj' : (j : ℚ) ≤ 2 * 2 ^ s := by
    rw [hpow] at hlt
    exact_mod_cast hlt.le
  -- the distances of the patterns on either side
  have hleft : ∀ c ≤ q, |magnitude p z (c * 2 ^ (s + 1)) - magnitude p z n| =
      magnitude p z (q * 2 ^ (s + 1)) - magnitude p z (c * 2 ^ (s + 1)) + j * u := by
    intro c hc
    have hle := hmono hc
    rw [hlow, abs_of_nonpos (by nlinarith)]
    ring
  have hright : ∀ c, q + 1 ≤ c → |magnitude p z (c * 2 ^ (s + 1)) - magnitude p z n| =
      magnitude p z (c * 2 ^ (s + 1)) - magnitude p z ((q + 1) * 2 ^ (s + 1)) + (2 * 2 ^ s - j) * u := by
    intro c hc
    have hle := hmono hc
    rw [hhigh] at hle ⊢
    rw [hlow, abs_of_nonneg (by nlinarith)]
    ring
  obtain ⟨hr, hcut⟩ | ⟨hr, hcut⟩ := hspec
  · rw [hr, hleft q le_rfl, sub_self, zero_add]
    have hhalf : (j : ℚ) ≤ 2 ^ s := by
      have hle : j ≤ 2 ^ s := by omega
      exact_mod_cast hle
    by_cases hc : c ≤ q
    · rw [hleft c hc]
      refine ⟨by have := hmono hc; linarith, fun hne heq => ?_⟩
      have := hstrict (Nat.lt_of_le_of_ne hc hne)
      linarith
    · rw [hright c (by omega)]
      have hle := hmono (show q + 1 ≤ c by omega)
      refine ⟨by nlinarith, fun _ heq => ?_⟩
      have hge : (2 ^ s : ℚ) ≤ j := by
        by_contra hlt
        nlinarith
      have hge' : 2 ^ s ≤ j := by exact_mod_cast hge
      omega
  · rw [hr, hright (q + 1) le_rfl, sub_self, zero_add]
    have hhalf : (2 ^ s : ℚ) ≤ j := by
      have hle : 2 ^ s ≤ j := by omega
      exact_mod_cast hle
    by_cases hc : c ≤ q
    · rw [hleft c hc]
      have hle := hmono hc
      refine ⟨by nlinarith, fun _ heq => ?_⟩
      have hle' : (j : ℚ) ≤ 2 ^ s := by
        by_contra hlt
        nlinarith
      have hle'' : j ≤ 2 ^ s := by exact_mod_cast hle'
      omega
    · rw [hright c (by omega)]
      refine ⟨by have := hmono (show q + 1 ≤ c by omega); linarith, fun hne heq => ?_⟩
      have := hstrict (show q + 1 < c by omega)
      linarith

theorem magnitude_nonneg : 0 ≤ magnitude p z n := by
  rw [← magnitude_zero (p := p) (z := z)]
  exact magnitude_strictMono.monotone (Nat.zero_le n)

/-- The same of signed values: a pattern of the other sign is no nearer than zero. -/
theorem round_nearest_signed (hs : s + 1 ≤ p) {σ τ : ℚ} (hσ : σ = 1 ∨ σ = -1) (hτ : τ = 1 ∨ τ = -1) (n c : Nat) :
    |σ * magnitude p z (roundEven s n * 2 ^ (s + 1)) - σ * magnitude p z n| ≤
        |τ * magnitude p z (c * 2 ^ (s + 1)) - σ * magnitude p z n| ∧
      (τ * magnitude p z (c * 2 ^ (s + 1)) ≠ σ * magnitude p z (roundEven s n * 2 ^ (s + 1)) →
        |σ * magnitude p z (roundEven s n * 2 ^ (s + 1)) - σ * magnitude p z n| =
          |τ * magnitude p z (c * 2 ^ (s + 1)) - σ * magnitude p z n| → roundEven s n % 2 = 0) := by
  have habs : |σ| = 1 := by
    obtain rfl | rfl := hσ
    · exact abs_one
    · rw [abs_neg, abs_one]
  rw [← mul_sub, abs_mul, habs, one_mul]
  have hX : 0 ≤ magnitude p z n := magnitude_nonneg
  have hC : 0 ≤ magnitude p z (c * 2 ^ (s + 1)) := magnitude_nonneg
  obtain ⟨hzero, heven⟩ := round_nearest (z := z) hs n 0
  rw [Nat.zero_mul, magnitude_zero, zero_sub, abs_neg, abs_of_nonneg hX] at hzero heven
  by_cases hsign : τ = σ
  · subst hsign
    obtain ⟨hle, htie⟩ := round_nearest (z := z) hs n c
    rw [← mul_sub, abs_mul, habs, one_mul]
    refine ⟨hle, fun hne heq => htie ?_ heq⟩
    rintro rfl
    exact hne rfl
  · have hneg : τ = -σ := by
      obtain rfl | rfl := hσ <;> obtain rfl | rfl := hτ <;> simp_all
    have hdist : |τ * magnitude p z (c * 2 ^ (s + 1)) - σ * magnitude p z n| =
        magnitude p z (c * 2 ^ (s + 1)) + magnitude p z n := by
      rw [hneg, neg_mul, ← neg_add', abs_neg, ← mul_add, abs_mul, habs, one_mul, abs_of_nonneg (by linarith)]
    rw [hdist]
    refine ⟨by linarith, fun hne heq => ?_⟩
    -- as near as that, the other is zero
    have hczero : magnitude p z (c * 2 ^ (s + 1)) = 0 := by linarith
    refine heven ?_ (by linarith)
    intro hr
    rw [hczero, mul_zero, ← hr, Nat.zero_mul, magnitude_zero, mul_zero] at hne
    exact hne rfl

end Magnitudes

/-! ## Formats -/

/-- Widths of the exponent and of the fraction. Patterns are numbers, the sign their highest bit. -/
structure Format where
  exponentBits : Nat
  fractionBits : Nat

namespace Format

variable (f : Format)

def bias : Int := 2 ^ (f.exponentBits - 1) - 1

def unsigned (x : Nat) : Nat := x % 2 ^ (f.exponentBits + f.fractionBits)

def Negative (x : Nat) : Prop := x / 2 ^ (f.exponentBits + f.fractionBits) % 2 = 1

instance (x : Nat) : Decidable (f.Negative x) := inferInstanceAs (Decidable (_ = 1))

/-- The unsigned pattern of an infinity: all exponent bits, no fraction. -/
def infinity : Nat := (2 ^ f.exponentBits - 1) * 2 ^ f.fractionBits

def IsFinite (x : Nat) : Prop := f.unsigned x < f.infinity

def IsInfinite (x : Nat) : Prop := f.unsigned x = f.infinity

def IsNaN (x : Nat) : Prop := f.infinity < f.unsigned x

def value (x : Nat) : ℚ :=
  (if f.Negative x then -1 else 1) * magnitude f.fractionBits f.bias (f.unsigned x)

/-- Half way between the largest finite magnitude and the next power of two. -/
def overflow : ℚ :=
  (magnitude f.fractionBits f.bias (f.infinity - 1) + magnitude f.fractionBits f.bias f.infinity) / 2

end Format

/-- `r` in the format `g` is what round to nearest, ties to even, gives for `x` in the format `f`. -/
structure RoundsTo (f g : Format) (x r : Nat) : Prop where
  nan : f.IsNaN x → g.IsNaN r
  infinite : f.IsInfinite x → g.IsInfinite r ∧ (g.Negative r ↔ f.Negative x)
  sign : f.IsFinite x → (g.Negative r ↔ f.Negative x)
  number : f.IsFinite x → ¬ g.IsNaN r
  overflows : f.IsFinite x → (g.IsInfinite r ↔ g.overflow ≤ |f.value x|)
  nearest : f.IsFinite x → g.IsFinite r → ∀ c, g.IsFinite c → |g.value r - f.value x| ≤ |g.value c - f.value x|
  even : f.IsFinite x → g.IsFinite r → ∀ c, g.IsFinite c → g.value c ≠ g.value r →
    |g.value r - f.value x| = |g.value c - f.value x| → r % 2 = 0

end SovereignCore.Binary
