import Mathlib.Data.List.Basic
import Mathlib.Data.List.GetD
import Mathlib.Tactic.Ring

/-!
# Byte memory

* `Mem` : bytes by address; `load`, `store`, `fill`, `move` : the four accesses, with what each load sees after a
  store, a fill or a move of the same bytes (`load_store`, `load_fill`, `load_move`) or of others
  (`load_store_disjoint`, `load_fill_disjoint`, `load_move_disjoint`);
* `leBytes`, `leValue` : little-endian numbers (`leValue_leBytes`, `leValue_inj`);
* `load_store_flatMap` : one element of a stored row of equally wide elements;
* `slice`, `put` : the fields of a buffer (`put_zeros` : fields written one after the other, `slice_at` : read back).
-/

namespace SovereignCore

/-- Bytes by address. -/
abbrev Mem : Type := Nat → UInt8

namespace Mem

def load (m : Mem) (a n : Nat) : List UInt8 := (List.range n).map fun i => m (a + i)

def store (m : Mem) (a : Nat) (bs : List UInt8) : Mem :=
  fun x => if a ≤ x ∧ x < a + bs.length then bs.getD (x - a) 0 else m x

def fill (m : Mem) (a n : Nat) (v : UInt8) : Mem := fun x => if a ≤ x ∧ x < a + n then v else m x

/-- `n` bytes from `src` to `dst`, as if through a copy (the regions may overlap). -/
def move (m : Mem) (src dst n : Nat) : Mem := fun x => if dst ≤ x ∧ x < dst + n then m (src + (x - dst)) else m x

variable {m m' : Mem} {a b n k : Nat} {bs : List UInt8}

theorem load_congr (h : ∀ i < n, m (a + i) = m' (b + i)) : m.load a n = m'.load b n := by
  unfold load
  apply List.map_congr_left
  intro i hi
  exact h i (List.mem_range.1 hi)

theorem load_store (h : k + n ≤ bs.length) : (m.store a bs).load (a + k) n = (bs.drop k).take n := by
  apply List.ext_getElem
  · simp [load]
    omega
  · intro i h1 h2
    have hi : i < n := by simpa [load] using h1
    simp only [load, store, List.getElem_map, List.getElem_range, List.getElem_take, List.getElem_drop]
    rw [if_pos (by omega), show a + k + i - a = k + i by omega, List.getD_eq_getElem _ _ (by omega)]

theorem load_store_disjoint (h : b + n ≤ a ∨ a + bs.length ≤ b) : (m.store a bs).load b n = m.load b n := by
  apply load_congr
  intro i hi
  unfold store
  rw [if_neg (by omega)]

theorem load_fill {v : UInt8} (h1 : a ≤ b) (h2 : b + k ≤ a + n) : (m.fill a n v).load b k = List.replicate k v := by
  apply List.ext_getElem
  · simp [load]
  · intro i hi _
    have hik : i < k := by simpa [load] using hi
    simp only [load, fill, List.getElem_map, List.getElem_range, List.getElem_replicate]
    rw [if_pos (by omega)]

theorem load_fill_disjoint {v : UInt8} (h : b + k ≤ a ∨ a + n ≤ b) : (m.fill a n v).load b k = m.load b k := by
  apply load_congr
  intro i hi
  unfold fill
  rw [if_neg (by omega)]

theorem load_move {src dst : Nat} (h : b + k ≤ n) : (m.move src dst n).load (dst + b) k = m.load (src + b) k := by
  apply load_congr
  intro i hi
  unfold move
  rw [if_pos (by omega), show src + (dst + b + i - dst) = src + b + i by omega]

theorem load_move_disjoint {src dst : Nat} (h : b + k ≤ dst ∨ dst + n ≤ b) :
    (m.move src dst n).load b k = m.load b k := by
  apply load_congr
  intro i hi
  unfold move
  rw [if_neg (by omega)]

end Mem

/-! ## Little-endian numbers -/

/-- The low `n` bytes of `v`, low byte first. -/
def leBytes : Nat → Nat → List UInt8
  | 0, _ => []
  | n + 1, v => UInt8.ofNat v :: leBytes n (v / 256)

def leValue : List UInt8 → Nat
  | [] => 0
  | b :: bs => b.toNat + 256 * leValue bs

@[simp] theorem length_leBytes : ∀ n v, (leBytes n v).length = n
  | 0, _ => rfl
  | n + 1, v => by rw [leBytes, List.length_cons, length_leBytes n]

theorem leValue_leBytes : ∀ n v, v < 256 ^ n → leValue (leBytes n v) = v
  | 0, v, h => by
    rw [pow_zero] at h
    rw [leBytes, leValue]
    omega
  | n + 1, v, h => by
    have hdiv : v / 256 < 256 ^ n := by
      rw [Nat.div_lt_iff_lt_mul (by decide), ← pow_succ]
      exact h
    rw [leBytes, leValue, leValue_leBytes n _ hdiv, UInt8.toNat_ofNat']
    omega

/-- Equally long little-endian numbers of one value are the same bytes. -/
theorem leValue_inj : ∀ {a b : List UInt8}, a.length = b.length → leValue a = leValue b → a = b
  | [], b, hl, _ => (List.length_eq_zero_iff.1 hl.symm).symm
  | _ :: _, [], hl, _ => by cases hl
  | x :: a, y :: b, hl, hv => by
    rw [leValue, leValue] at hv
    have hx := x.toNat_lt
    have hy := y.toNat_lt
    have hxy : x.toNat = y.toNat := by omega
    rw [UInt8.toNat_inj.1 hxy, leValue_inj (Nat.succ.inj hl) (by omega)]

theorem leValue_replicate_zero : ∀ n, leValue (List.replicate n 0) = 0
  | 0 => rfl
  | n + 1 => by rw [List.replicate_succ, leValue, leValue_replicate_zero n]; rfl

/-! ## Rows of equally wide elements -/

section Rows
variable {α : Type} {enc : α → List UInt8} {w : Nat}

theorem length_flatMap_width (henc : ∀ x, (enc x).length = w) : ∀ xs : List α, (xs.flatMap enc).length = w * xs.length
  | [] => rfl
  | x :: xs => by
    rw [List.flatMap_cons, List.length_append, henc, length_flatMap_width henc xs, List.length_cons]
    ring

theorem take_drop_flatMap (henc : ∀ x, (enc x).length = w) :
    ∀ (xs : List α) (i : Nat) (hi : i < xs.length), ((xs.flatMap enc).drop (w * i)).take w = enc xs[i]
  | x :: xs, 0, _ => by
    rw [Nat.mul_zero, List.drop_zero, List.flatMap_cons, List.take_left' (henc x)]
    rfl
  | x :: xs, i + 1, hi => by
    rw [List.flatMap_cons, show w * (i + 1) = (enc x).length + w * i by rw [henc]; ring, List.drop_length_add_append,
      take_drop_flatMap henc xs i (by simpa using hi)]
    rfl

/-- Element `i` of a stored row. -/
theorem Mem.load_store_flatMap (henc : ∀ x, (enc x).length = w) (m : Mem) (a : Nat) (xs : List α) (i : Nat)
    (hi : i < xs.length) : (m.store a (xs.flatMap enc)).load (a + w * i) w = enc xs[i] := by
  have hle : w * i + w ≤ (xs.flatMap enc).length := by
    rw [length_flatMap_width henc, ← Nat.mul_succ]
    exact Nat.mul_le_mul_left w hi
  rw [Mem.load_store hle, take_drop_flatMap henc]

end Rows

/-! ## Fields of a buffer -/

/-- `n` bytes from offset `off`. -/
def slice (buf : List UInt8) (off n : Nat) : List UInt8 := (buf.drop off).take n

/-- `buf` with `bytes` written at offset `off`. -/
def put (buf : List UInt8) (off : Nat) (bytes : List UInt8) : List UInt8 :=
  buf.take off ++ bytes ++ buf.drop (off + bytes.length)

section Fields
variable {a b c : List UInt8} {off n : Nat}

theorem put_zeros (h : a.length = off) :
    put (a ++ List.replicate n 0) off b = a ++ b ++ List.replicate (n - b.length) 0 := by
  unfold put
  rw [List.take_left' h, ← h, List.drop_length_add_append, List.drop_replicate]

theorem slice_at (ha : a.length = off) (hb : b.length = n) : slice (a ++ (b ++ c)) off n = b := by
  unfold slice
  rw [List.drop_left' ha, List.take_left' hb]

theorem length_put (h : off + b.length ≤ a.length) : (put a off b).length = a.length := by
  unfold put
  simp only [List.length_append, List.length_take, List.length_drop]
  omega

theorem length_slice (h : off + n ≤ a.length) : (slice a off n).length = n := by
  unfold slice
  simp only [List.length_take, List.length_drop]
  omega

theorem take_slice (a : List UInt8) (off n : Nat) : a.take (off + n) = a.take off ++ slice a off n := List.take_add

end Fields

end SovereignCore
