import SovereignCore.Kv.Layout
import SovereignCore.Lib.Binary

/-!
# Rounding to bfloat16

`f32_to_bf16_bits` adds a bias to the bits of an `f32` and keeps the upper half. A bfloat16 has the exponent of an `f32`
and the first of its fraction bits, so that the cut rounds the value.

* `binary32`, `bfloat16` : the two formats;
* `f32ToBf16Bits_toNat` : the conversion on numbers; `f32ToBf16Bits_finite` : sign kept, the rest rounded;
* `roundToDtypeInPlace` : rows of values;
* `bf16_rounding_iff` : the conversion is right for all patterns but NaNs whose payload is too near to the ends.
-/

namespace SovereignCore.Kv

open Binary

def binary32 : Format := ⟨8, 23⟩

def bfloat16 : Format := ⟨8, 7⟩

/-- `round_to_dtype_in_place` on a row; `none` for the element types it panics on. -/
def roundToDtypeInPlace (dtype : KvDType) (values : List F32) : Option (List F32) :=
  match dtype with
  | .fp32 => some values
  | .bf16 => some (values.map fun x => bf16BitsToF32 (f32ToBf16Bits x))
  | _ => none

/-! ## On numbers -/

theorem f32ToBf16Bits_toNat (u : F32) :
    (f32ToBf16Bits u).toNat = (u.toNat + (32767 + u.toNat / 65536 % 2)) % 2 ^ 32 / 65536 := by
  have hlsb : ((u >>> 16) &&& 1).toNat = u.toNat / 65536 % 2 := by
    rw [UInt32.toNat_and, UInt32.toNat_shiftRight]
    exact (Nat.and_one_is_mod _).trans (by rw [Nat.shiftRight_eq_div_pow]; rfl)
  have hbias : ((0x7fff : UInt32) + ((u >>> 16) &&& 1)).toNat = 32767 + u.toNat / 65536 % 2 := by
    rw [UInt32.toNat_add, hlsb, show (0x7fff : UInt32).toNat = 32767 from rfl]
    exact Nat.mod_eq_of_lt (by omega)
  have hlt : (u.toNat + (32767 + u.toNat / 65536 % 2)) % 2 ^ 32 < 2 ^ 32 := Nat.mod_lt _ (by decide)
  unfold f32ToBf16Bits
  dsimp only
  rw [UInt32.toNat_toUInt16, UInt32.toNat_shiftRight, UInt32.toNat_add, hbias, Nat.shiftRight_eq_div_pow]
  exact Nat.mod_eq_of_lt (by
    show _ / 65536 < 65536
    omega)

theorem bf16BitsToF32_toNat (b : UInt16) : (bf16BitsToF32 b).toNat = b.toNat * 65536 := by
  have hb := b.toNat_lt
  unfold bf16BitsToF32
  rw [UInt32.toNat_shiftLeft, UInt16.toNat_toUInt32, Nat.shiftLeft_eq]
  exact Nat.mod_eq_of_lt (by
    show b.toNat * 65536 < 2 ^ 32
    omega)

theorem f32ToBf16Bits_widen (b : UInt16) : f32ToBf16Bits (bf16BitsToF32 b) = b := by
  have hb := b.toNat_lt
  apply UInt16.toNat_inj.1
  rw [f32ToBf16Bits_toNat, bf16BitsToF32_toNat, Nat.mul_div_cancel _ (by decide), Nat.mod_eq_of_lt (by omega)]
  omega

theorem roundEven_15 (n : Nat) : roundEven 15 n = (n + (32767 + n / 65536 % 2)) / 65536 := rfl

/-- The sign is kept and the rest is rounded, unless a carry reaches the sign. -/
theorem f32ToBf16Bits_split (u : F32) :
    (f32ToBf16Bits u).toNat = (u.toNat / 2 ^ 31 * 2 ^ 15 + roundEven 15 (binary32.unsigned u.toNat)) % 2 ^ 16 := by
  have hunsigned : binary32.unsigned u.toNat = u.toNat % 2 ^ 31 := rfl
  rw [f32ToBf16Bits_toNat, hunsigned, roundEven_15]
  have hx : u.toNat = u.toNat % 2 ^ 31 + 65536 * (2 ^ 15 * (u.toNat / 2 ^ 31)) := by omega
  generalize u.toNat / 2 ^ 31 = q at hx ⊢
  generalize u.toNat % 2 ^ 31 = n at hx ⊢
  rw [hx]
  have hkept : (n + 65536 * (2 ^ 15 * q)) / 65536 = n / 65536 + 2 ^ 15 * q := Nat.add_mul_div_left _ _ (by decide)
  have hparity : (n + 65536 * (2 ^ 15 * q)) / 65536 % 2 = n / 65536 % 2 := by omega
  have hcut : ∀ a, a % 2 ^ 32 / 65536 = a / 65536 % 2 ^ 16 := fun a => Nat.mod_mul_right_div_self a 65536 65536
  rw [hparity, hcut, Nat.add_right_comm, Nat.add_mul_div_left _ _ (by decide), Nat.mul_comm q, Nat.add_comm]

theorem f32ToBf16Bits_number {u : F32} (h : ¬ binary32.IsNaN u.toNat) :
    (f32ToBf16Bits u).toNat = u.toNat / 2 ^ 31 * 2 ^ 15 + roundEven 15 (binary32.unsigned u.toNat) ∧
      roundEven 15 (binary32.unsigned u.toNat) ≤ bfloat16.infinity := by
  have hu := u.toNat_lt
  have hle : binary32.unsigned u.toNat ≤ 2139095040 := Nat.le_of_not_lt h
  have hinf : bfloat16.infinity = 32640 := rfl
  have hround : roundEven 15 (binary32.unsigned u.toNat) ≤ 32640 := by
    rw [roundEven_15]
    omega
  rw [f32ToBf16Bits_split, hinf]
  exact ⟨Nat.mod_eq_of_lt (by omega), hround⟩

theorem unsigned_number {u : F32} (h : ¬ binary32.IsNaN u.toNat) :
    bfloat16.unsigned (f32ToBf16Bits u).toNat = roundEven 15 (binary32.unsigned u.toNat) ∧
      (bfloat16.Negative (f32ToBf16Bits u).toNat ↔ binary32.Negative u.toNat) := by
  obtain ⟨hsplit, hle⟩ := f32ToBf16Bits_number h
  have hinf : bfloat16.infinity = 32640 := rfl
  have hu := u.toNat_lt
  have hnarrow : ∀ x, bfloat16.unsigned x = x % 2 ^ 15 := fun _ => rfl
  have hneg : ∀ x, bfloat16.Negative x ↔ x / 2 ^ 15 % 2 = 1 := fun _ => Iff.rfl
  have hneg' : binary32.Negative u.toNat ↔ u.toNat / 2 ^ 31 % 2 = 1 := Iff.rfl
  rw [hsplit, hnarrow, hneg, hneg']
  omega

/-! ## Values -/

/-- The value of a bfloat16, as the `f32` with zeros below. -/
theorem value_bfloat16 (c : Nat) : bfloat16.value c =
    (if bfloat16.Negative c then -1 else 1) * magnitude 23 127 (bfloat16.unsigned c * 2 ^ 16) := by
  have hwiden := magnitude_widen (p := 7) (s := 16) (k := bfloat16.unsigned c) (z := 127)
  rw [hwiden]
  rfl

theorem value_binary32 (x : Nat) : binary32.value x =
    (if binary32.Negative x then -1 else 1) * magnitude 23 127 (binary32.unsigned x) := rfl

theorem overflow_bfloat16 : bfloat16.overflow = magnitude 23 127 2139062272 := by
  obtain ⟨u, -, hmid, hnext⟩ := between_neighbours (p := 23) (z := 127) (s := 15) (by decide) 2139062272
  have hlow := magnitude_widen (p := 7) (s := 16) (k := 32639) (z := 127)
  have hhigh := magnitude_widen (p := 7) (s := 16) (k := 32640) (z := 127)
  have hover : bfloat16.overflow = (magnitude 7 127 32639 + magnitude 7 127 32640) / 2 := rfl
  rw [hover, ← hlow, ← hhigh]
  have hmid' : magnitude 23 127 2139062272 = magnitude 23 127 (32639 * 2 ^ 16) + (32768 : Nat) * u := hmid
  have hnext' : magnitude 23 127 (32640 * 2 ^ 16) = magnitude 23 127 (32639 * 2 ^ 16) + 2 * 2 ^ 15 * u := hnext
  rw [hmid', hnext']
  push_cast
  ring

theorem sign_cases {q : Prop} [Decidable q] : (if q then (-1 : ℚ) else 1) = 1 ∨ (if q then (-1 : ℚ) else 1) = -1 := by
  split_ifs
  · exact Or.inr rfl
  · exact Or.inl rfl

/-- A NaN whose payload is at most `0x8000`, or at least `0x7f8000`. -/
def LostNaN (u : F32) : Prop :=
  binary32.IsNaN u.toNat ∧ (binary32.unsigned u.toNat - binary32.infinity ≤ 0x8000 ∨
    0x7f8000 ≤ binary32.unsigned u.toNat - binary32.infinity)

/-- A NaN stays one exactly when rounding leaves some of its payload and does not carry out of the fraction. -/
theorem nan_kept {u : F32} (h : binary32.IsNaN u.toNat) : bfloat16.IsNaN (f32ToBf16Bits u).toNat ↔ ¬ LostNaN u := by
  have hunsigned : binary32.unsigned u.toNat < 2 ^ 31 := Nat.mod_lt _ (by decide)
  have hinf : binary32.infinity = 2139095040 := rfl
  have hnan : bfloat16.IsNaN (f32ToBf16Bits u).toNat ↔ 32640 < (f32ToBf16Bits u).toNat % 2 ^ 15 := Iff.rfl
  have hlost : LostNaN u ↔ binary32.unsigned u.toNat - 2139095040 ≤ 32768 ∨
      8355840 ≤ binary32.unsigned u.toNat - 2139095040 := and_iff_right h
  have hsome : 2139095040 < binary32.unsigned u.toNat := h
  have hcut : ∀ q r, (q * 2 ^ 15 + r) % 2 ^ 16 % 2 ^ 15 = r % 2 ^ 15 := by omega
  rw [hnan, hlost, f32ToBf16Bits_split, hcut]
  have hspec := roundEven_spec 15 (binary32.unsigned u.toNat)
  generalize roundEven 15 (binary32.unsigned u.toNat) = r at hspec ⊢
  generalize binary32.unsigned u.toNat = n at *
  omega

theorem rounds_up_iff {n : Nat} (hn : n < binary32.infinity) : roundEven 15 n = bfloat16.infinity ↔ 2139062272 ≤ n := by
  have hinf : bfloat16.infinity = 32640 := rfl
  have hlt : n < 2139095040 := hn
  rw [roundEven_15, hinf]
  omega

theorem rounds_of_kept {u : F32} (hkept : ¬ LostNaN u) : RoundsTo binary32 bfloat16 u.toNat (f32ToBf16Bits u).toNat := by
  have hvalue : ∀ h : ¬ binary32.IsNaN u.toNat, bfloat16.value (f32ToBf16Bits u).toNat =
      (if binary32.Negative u.toNat then -1 else 1) * magnitude 23 127 (roundEven 15 (binary32.unsigned u.toNat) * 2 ^ 16) := by
    intro h
    obtain ⟨hunsigned, hsign⟩ := unsigned_number h
    rw [value_bfloat16, hunsigned, if_congr hsign rfl rfl]
  have hfinite : binary32.IsFinite u.toNat → ¬ binary32.IsNaN u.toNat := fun h => Nat.lt_asymm h
  refine ⟨fun h => (nan_kept h).2 hkept, ?_, ?_, ?_, ?_, ?_, ?_⟩
  · intro h
    have hinf : binary32.unsigned u.toNat = 2139095040 := h
    obtain ⟨hunsigned, hsign⟩ := unsigned_number (u := u) (by rw [Format.IsNaN, hinf]; decide)
    refine ⟨?_, hsign⟩
    show bfloat16.unsigned _ = _
    rw [hunsigned, hinf]
    rfl
  · intro h
    exact (unsigned_number (hfinite h)).2
  · intro h hnan
    have hle := (f32ToBf16Bits_number (hfinite h)).2
    rw [← (unsigned_number (hfinite h)).1] at hle
    exact absurd hnan (Nat.not_lt.2 hle)
  · intro h
    have habs : |binary32.value u.toNat| = magnitude 23 127 (binary32.unsigned u.toNat) := by
      rw [value_binary32, abs_mul, abs_of_nonneg magnitude_nonneg]
      obtain hpos | hneg := sign_cases (q := binary32.Negative u.toNat)
      · rw [hpos, abs_one, one_mul]
      · rw [hneg, abs_neg, abs_one, one_mul]
    rw [habs, overflow_bfloat16, magnitude_strictMono.le_iff_le, ← rounds_up_iff h]
    show bfloat16.unsigned _ = _ ↔ _
    rw [(unsigned_number (hfinite h)).1]
  · intro h _ c _
    rw [hvalue (hfinite h), value_binary32, value_bfloat16]
    exact (round_nearest_signed (s := 15) (by decide) sign_cases sign_cases _ _).1
  · intro h _ c _ hne heq
    rw [hvalue (hfinite h)] at hne heq
    rw [value_binary32] at heq
    rw [value_bfloat16] at hne heq
    have heven := (round_nearest_signed (s := 15) (by decide) sign_cases sign_cases _ _).2 hne heq
    rw [(f32ToBf16Bits_number (hfinite h)).1]
    omega

/-- **Rounding to bfloat16.** A pattern is converted as round to nearest even asks exactly when it is not a NaN with a
payload at most `0x8000` or at least `0x7f8000`. A widened bfloat16 is converted back to itself, so that rounding a row again
changes nothing. -/
theorem bf16_rounding_iff (u : F32) : (RoundsTo binary32 bfloat16 u.toNat (f32ToBf16Bits u).toNat ↔ ¬ LostNaN u) ∧
    (∀ b : UInt16, f32ToBf16Bits (bf16BitsToF32 b) = b) ∧
    ∀ (dtype : KvDType) (row rounded : List F32), roundToDtypeInPlace dtype row = some rounded →
      roundToDtypeInPlace dtype rounded = some rounded := by
  refine ⟨⟨?_, ?_⟩, f32ToBf16Bits_widen, ?_⟩
  · intro hrounds hlost
    exact (nan_kept hlost.1).1 (hrounds.nan hlost.1) hlost
  · intro hkept
    exact rounds_of_kept hkept
  · intro dtype row rounded h
    cases dtype with
    | fp32 =>
      obtain rfl := Option.some.inj h
      rfl
    | bf16 =>
      obtain rfl := Option.some.inj h
      refine congrArg some ?_
      rw [List.map_map]
      refine List.map_congr_left fun x _ => ?_
      rw [Function.comp_apply, f32ToBf16Bits_widen]
    | fp4 => cases h
    | fp8 => cases h
    | fp16 => cases h

/-- The NaN with all bits set but the sign becomes negative zero. -/
theorem nan_becomes_zero : binary32.IsNaN (0x7fffffff : F32).toNat ∧ f32ToBf16Bits 0x7fffffff = 0x8000 ∧
    ¬ RoundsTo binary32 bfloat16 (0x7fffffff : F32).toNat (f32ToBf16Bits 0x7fffffff).toNat := by
  have hnan : binary32.IsNaN (0x7fffffff : F32).toNat := by
    show 2139095040 < (2147483647 : Nat)
    decide
  have hzero : f32ToBf16Bits 0x7fffffff = 0x8000 := by decide
  refine ⟨hnan, hzero, fun hrounds => ?_⟩
  have hlost : (32640 : Nat) < 0 := by
    have hkept := hrounds.nan hnan
    rw [hzero] at hkept
    exact hkept
  exact absurd hlost (by decide)

end SovereignCore.Kv
