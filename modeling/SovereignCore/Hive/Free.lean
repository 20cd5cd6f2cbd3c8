import Mathlib.Data.Int.Interval
import Mathlib.Data.List.Pairwise
import Mathlib.Tactic.Linarith

/-!
# The search for a free cell

`find_free_coordinate` looks at the centre, at its six neighbours, and then at the rings of radius 2 to 50, each walked
side by side from its south-west corner. When all of that is taken it answers the origin.

* `HexCoord`, `HiveComb`, `CombStore` : axial coordinates in `i32`, and the table with its two keys;
* `side`, `ring`, `rings`, `findFreeCoordinate` : the search with its early returns;
* `offsets`, `findFree_eq` : the cells it looks at, in order, relative to the centre;
* `mem_ringOffsets` : a ring holds exactly the cells of its distance;
* `free_cell_iff` : when the answer is a free cell at the smallest distance.
-/

namespace SovereignCore.Hive

structure HexCoord where
  q : Int32
  r : Int32
  deriving DecidableEq

def hexDirections : List (Int32 × Int32) := [(1, 0), (1, -1), (0, -1), (-1, 0), (-1, 1), (0, 1)]

structure HiveComb where
  id : String
  coord : HexCoord

/-- The table `hive_combs`: ids are its primary key, and no two combs are at one place. -/
structure CombStore where
  combs : List HiveComb
  ids : (combs.map HiveComb.id).Nodup
  places : (combs.map HiveComb.coord).Nodup

namespace CombStore

def occupied (h : CombStore) : List HexCoord := h.combs.map HiveComb.coord

/-- Where the search starts: at the parent, if there is one of that id. -/
def center (h : CombStore) (parentId : Option String) : HexCoord :=
  match parentId with
  | none => ⟨0, 0⟩
  | some pid => ((h.combs.find? fun comb => comb.id = pid).map HiveComb.coord).getD ⟨0, 0⟩

end CombStore

def HexCoord.step (c : HexCoord) (dir : Int32 × Int32) : HexCoord := ⟨c.q + dir.1, c.r + dir.2⟩

/-! ## The search -/

section Search

variable (occupied : List HexCoord)

/-- One side of a ring. A free cell is returned at once, as the error; else the walk stands behind the side. -/
def side (dir : Int32 × Int32) : Nat → HexCoord → Except HexCoord HexCoord
  | 0, current => .ok current
  | n + 1, current => if current ∉ occupied then .error current else side dir n (current.step dir)

def ring (radius : Nat) : List (Int32 × Int32) → HexCoord → Except HexCoord HexCoord
  | [], current => .ok current
  | dir :: dirs, current => do
    let current ← side occupied dir radius current
    ring radius dirs current

def corner (center : HexCoord) (radius : Nat) : HexCoord :=
  ⟨center.q + -1 * .ofNat radius, center.r + 1 * .ofNat radius⟩

def rings (center : HexCoord) : List Nat → Except HexCoord Unit
  | [] => .ok ()
  | radius :: radii => do
    let _ ← ring occupied radius hexDirections (corner center radius)
    rings center radii

def findFree (center : HexCoord) : HexCoord :=
  if center ∉ occupied then center
  else
    match hexDirections.find? fun dir => center.step dir ∉ occupied with
    | some dir => center.step dir
    | none =>
      match rings occupied center (List.range' 2 49) with
      | .error current => current
      | .ok () => ⟨0, 0⟩

end Search

def findFreeCoordinate (h : CombStore) (parentId : Option String) : HexCoord := findFree h.occupied (h.center parentId)

/-! ## Offsets from the centre -/

def norm (p : Int × Int) : Nat := max (max p.1.natAbs p.2.natAbs) (p.1 + p.2).natAbs

/-- `HexCoord::distance`, in integers. -/
def HexCoord.distance (a b : HexCoord) : Nat := norm (a.q.toInt - b.q.toInt, a.r.toInt - b.r.toInt)

/-- The cell at an offset, with the wrapping sums of `i32`. -/
def place (center : HexCoord) (p : Int × Int) : HexCoord := ⟨center.q + .ofInt p.1, center.r + .ofInt p.2⟩

def dirOffsets : List (Int × Int) := [(1, 0), (1, -1), (0, -1), (-1, 0), (-1, 1), (0, 1)]

def toDir (d : Int × Int) : Int32 × Int32 := (.ofInt d.1, .ofInt d.2)

theorem hexDirections_eq : hexDirections = dirOffsets.map toDir := by decide

def sideOffsets (d : Int × Int) : Nat → Int × Int → List (Int × Int)
  | 0, _ => []
  | n + 1, p => p :: sideOffsets d n (p.1 + d.1, p.2 + d.2)

def sidesOffsets (radius : Nat) : List (Int × Int) → Int × Int → List (Int × Int)
  | [], _ => []
  | d :: ds, p => sideOffsets d radius p ++ sidesOffsets radius ds (p.1 + radius * d.1, p.2 + radius * d.2)

def ringOffsets (radius : Nat) : List (Int × Int) := sidesOffsets radius dirOffsets (-radius, radius)

def offsets : List (Int × Int) := (0, 0) :: dirOffsets ++ (List.range' 2 49).flatMap ringOffsets

variable {occupied : List HexCoord} {center : HexCoord} {p : Int × Int}

theorem place_zero : place center (0, 0) = center := by
  unfold place
  simp

theorem place_step (p d : Int × Int) : (place center p).step (toDir d) = place center (p.1 + d.1, p.2 + d.2) := by
  unfold HexCoord.step place toDir
  simp only [Int32.ofInt_add, Int32.add_assoc]

theorem corner_eq (radius : Nat) : corner center radius = place center (-radius, radius) := by
  unfold corner place
  rw [Int32.ofInt_neg, Int32.ofInt_eq_ofNat, Int32.neg_mul, Int32.one_mul]

/-- What a walk over some offsets comes to: the first free cell, or the place behind. -/
def outcome (occupied : List HexCoord) (center : HexCoord) {α : Type} (ps : List (Int × Int)) (behind : α) :
    Except HexCoord α :=
  match ps.find? fun p => place center p ∉ occupied with
  | some p => .error (place center p)
  | none => .ok behind

theorem outcome_append {α β : Type} (ps qs : List (Int × Int)) (a : α) (b : β) :
    outcome occupied center (ps ++ qs) b = outcome occupied center ps a >>= fun _ => outcome occupied center qs b := by
  unfold outcome
  rw [List.find?_append]
  cases ps.find? fun p => place center p ∉ occupied with
  | none => rfl
  | some p => rfl

theorem side_eq (d : Int × Int) (n : Nat) (p : Int × Int) : side occupied (toDir d) n (place center p) =
    outcome occupied center (sideOffsets d n p) (place center (p.1 + n * d.1, p.2 + n * d.2)) := by
  induction n generalizing p with
  | zero =>
    unfold side sideOffsets outcome
    simp
  | succ n ih =>
    unfold side sideOffsets outcome
    rw [List.find?_cons]
    by_cases hfree : place center p ∉ occupied
    · rw [if_pos hfree, decide_eq_true hfree]
    · rw [if_neg hfree, decide_eq_false hfree, place_step, ih]
      have hbehind : ((p.1 + d.1 + n * d.1, p.2 + d.2 + n * d.2) : Int × Int) =
          (p.1 + (n + 1 : Nat) * d.1, p.2 + (n + 1 : Nat) * d.2) := by
        push_cast
        rw [Int.add_mul, Int.add_mul, Int.one_mul, Int.one_mul]
        exact Prod.ext (by omega) (by omega)
      rw [← hbehind]
      rfl

theorem ring_eq (radius : Nat) (ds : List (Int × Int)) (p : Int × Int) :
    (ring occupied radius (ds.map toDir) (place center p)).map (fun _ => ()) =
      outcome occupied center (sidesOffsets radius ds p) () := by
  induction ds generalizing p with
  | nil => rfl
  | cons d ds ih =>
    rw [List.map_cons, ring, sidesOffsets, side_eq,
      outcome_append _ _ (place center (p.1 + radius * d.1, p.2 + radius * d.2)) ()]
    unfold outcome
    cases (sideOffsets d radius p).find? fun p => place center p ∉ occupied with
    | some p' => rfl
    | none => exact ih _

theorem rings_eq (radii : List Nat) : rings occupied center radii = outcome occupied center (radii.flatMap ringOffsets) () := by
  induction radii with
  | nil => rfl
  | cons radius radii ih =>
    rw [List.flatMap_cons, outcome_append (ringOffsets radius) _ () (), ← ih, rings, corner_eq, hexDirections_eq]
    unfold ringOffsets
    rw [← ring_eq]
    cases ring occupied radius (dirOffsets.map toDir) (place center (-(radius : Int), (radius : Int))) with
    | error c => rfl
    | ok c => rfl

theorem findFree_eq : findFree occupied center =
    ((offsets.find? fun p => place center p ∉ occupied).map (place center)).getD ⟨0, 0⟩ := by
  unfold findFree offsets
  rw [List.cons_append, List.find?_cons, place_zero]
  by_cases hfree : center ∉ occupied
  · rw [if_pos hfree, decide_eq_true hfree, Option.map_some, place_zero]
    rfl
  · have hdirs : (hexDirections.find? fun dir => center.step dir ∉ occupied) =
        (dirOffsets.find? fun p => place center p ∉ occupied).map toDir := by
      rw [hexDirections_eq, List.find?_map]
      rfl
    rw [if_neg hfree, decide_eq_false hfree, hdirs, List.find?_append]
    cases hfind : dirOffsets.find? fun p => place center p ∉ occupied with
    | some p => rfl
    | none =>
      rw [Option.map_none]
      dsimp only
      rw [rings_eq]
      unfold outcome
      cases ((List.range' 2 49).flatMap ringOffsets).find? fun p => place center p ∉ occupied with
      | some p => rfl
      | none => rfl

/-! ## What the offsets are -/

theorem mem_sideOffsets {d : Int × Int} {n : Nat} {o : Int × Int} :
    p ∈ sideOffsets d n o ↔ ∃ i : Nat, i < n ∧ p = (o.1 + i * d.1, o.2 + i * d.2) := by
  induction n generalizing o with
  | zero => simp [sideOffsets]
  | succ n ih =>
    rw [sideOffsets, List.mem_cons, ih]
    constructor
    · rintro (rfl | ⟨i, hi, rfl⟩)
      · exact ⟨0, Nat.succ_pos n, by simp⟩
      · refine ⟨i + 1, Nat.succ_lt_succ hi, ?_⟩
        push_cast
        rw [Int.add_mul, Int.add_mul, Int.one_mul, Int.one_mul]
        exact Prod.ext (by dsimp only; omega) (by dsimp only; omega)
    · rintro ⟨i, hi, rfl⟩
      cases i with
      | zero => exact Or.inl (by simp)
      | succ i =>
        refine Or.inr ⟨i, Nat.lt_of_succ_lt_succ hi, ?_⟩
        push_cast
        rw [Int.add_mul, Int.add_mul, Int.one_mul, Int.one_mul]
        exact Prod.ext (by dsimp only; omega) (by dsimp only; omega)

theorem mem_ringOffsets_sides {k : Nat} {x y : Int} : (x, y) ∈ ringOffsets k ↔ ∃ i : Nat, i < k ∧
    ((x = -k + i ∧ y = k) ∨ (x = i ∧ y = k - i) ∨ (x = k ∧ y = -i) ∨ (x = k - i ∧ y = -k) ∨ (x = -i ∧ y = -k + i) ∨
      (x = -k ∧ y = i)) := by
  unfold ringOffsets dirOffsets
  simp only [sidesOffsets, List.mem_append, mem_sideOffsets, List.not_mem_nil, or_false, ← exists_or, ← and_or_left,
    Prod.mk.injEq]
  refine exists_congr fun i => and_congr_right fun _ => ?_
  refine or_congr (by omega) (or_congr (by omega) (or_congr (by omega) (or_congr (by omega) (or_congr ?_ ?_))))
  · omega
  · omega

theorem norm_eq {x y : Int} {k : Nat} : norm (x, y) = k ↔ (x.natAbs ≤ k ∧ y.natAbs ≤ k ∧ (x + y).natAbs ≤ k) ∧
    (x.natAbs = k ∨ y.natAbs = k ∨ (x + y).natAbs = k) := by
  unfold norm
  omega

theorem mem_ringOffsets {k : Nat} (hk : 0 < k) : p ∈ ringOffsets k ↔ norm p = k := by
  obtain ⟨x, y⟩ := p
  rw [mem_ringOffsets_sides, norm_eq]
  constructor
  · rintro ⟨i, hi, h | h | h | h | h | h⟩
    all_goals
      obtain ⟨rfl, rfl⟩ := h
      omega
  · rintro ⟨⟨hx, hy, hxy⟩, hnorm⟩
    -- the sides in the order of the walk, by the signs of the coordinates
    by_cases h0 : y = k ∧ x < 0
    · exact ⟨(x + k).toNat, by omega, .inl ⟨by omega, by omega⟩⟩
    by_cases h1 : 0 ≤ x ∧ 0 < y
    · exact ⟨x.toNat, by omega, .inr (.inl ⟨by omega, by omega⟩)⟩
    by_cases h2 : x = k ∧ -k < y
    · exact ⟨(-y).toNat, by omega, .inr (.inr (.inl ⟨by omega, by omega⟩))⟩
    by_cases h3 : y = -k ∧ 0 < x
    · exact ⟨(k - x).toNat, by omega, .inr (.inr (.inr (.inl ⟨by omega, by omega⟩)))⟩
    by_cases h4 : x ≤ 0 ∧ y < 0
    · exact ⟨(-x).toNat, by omega, .inr (.inr (.inr (.inr (.inl ⟨by omega, by omega⟩))))⟩
    · exact ⟨y.toNat, by omega, .inr (.inr (.inr (.inr (.inr ⟨by omega, by omega⟩))))⟩

theorem mem_dirOffsets : p ∈ dirOffsets ↔ norm p = 1 := by
  obtain ⟨x, y⟩ := p
  rw [norm_eq]
  simp only [dirOffsets, List.mem_cons, Prod.mk.injEq, List.not_mem_nil, or_false]
  omega

theorem norm_zero_iff : p = (0, 0) ↔ norm p = 0 := by
  obtain ⟨x, y⟩ := p
  rw [norm_eq, Prod.mk.injEq]
  omega

theorem mem_offsets : p ∈ offsets ↔ norm p ≤ 50 := by
  have hrings : p ∈ (List.range' 2 49).flatMap ringOffsets ↔ 2 ≤ norm p ∧ norm p ≤ 50 := by
    rw [List.mem_flatMap]
    simp only [List.mem_range'_1]
    constructor
    · rintro ⟨k, hk, hp⟩
      rw [mem_ringOffsets (by omega)] at hp
      omega
    · intro hp
      exact ⟨norm p, by omega, (mem_ringOffsets (by omega)).2 rfl⟩
  unfold offsets
  rw [List.mem_append, List.mem_cons, hrings, mem_dirOffsets, norm_zero_iff]
  omega

theorem offsets_sorted : offsets.Pairwise fun p p' => norm p ≤ norm p' := by
  have hdirs : dirOffsets.Pairwise fun p p' => norm p ≤ norm p' := by decide
  have hrings : ((List.range' 2 49).flatMap ringOffsets).Pairwise fun p p' => norm p ≤ norm p' := by
    rw [List.pairwise_flatMap]
    refine ⟨?_, ?_⟩
    · intro k hk
      have hpos : 0 < k := by
        rw [List.mem_range'_1] at hk
        omega
      refine List.pairwise_of_forall_mem_list fun p hp p' hp' => ?_
      rw [(mem_ringOffsets hpos).1 hp, (mem_ringOffsets hpos).1 hp']
    · refine List.Pairwise.imp_of_mem ?_ (List.pairwise_lt_range' 1)
      intro k k' hk hk' hlt p hp p' hp'
      rw [List.mem_range'_1] at hk hk'
      rw [(mem_ringOffsets (by omega)).1 hp, (mem_ringOffsets (by omega)).1 hp']
      exact Nat.le_of_lt hlt
  unfold offsets
  rw [List.cons_append, List.pairwise_cons, List.pairwise_append]
  refine ⟨fun p _ => Nat.zero_le _, hdirs, hrings, ?_⟩
  intro p hp p' hp'
  obtain ⟨k, hk, hp'⟩ := List.mem_flatMap.1 hp'
  rw [List.mem_range'_1] at hk
  rw [mem_dirOffsets.1 hp, (mem_ringOffsets (by omega)).1 hp']
  omega

/-! ## Where no sum overflows -/

/-- The cells up to distance 50 have coordinates in `i32`. -/
def Roomy (center : HexCoord) : Prop :=
  (-2 ^ 31 + 50 ≤ center.q.toInt ∧ center.q.toInt + 50 < 2 ^ 31) ∧
    (-2 ^ 31 + 50 ≤ center.r.toInt ∧ center.r.toInt + 50 < 2 ^ 31)

theorem toInt_add_ofInt {a : Int32} {x : Int} (hlow : -2 ^ 31 ≤ a.toInt + x) (hhigh : a.toInt + x < 2 ^ 31) :
    (a + .ofInt x).toInt = a.toInt + x := by
  have heq : a + .ofInt x = .ofInt (a.toInt + x) := by rw [Int32.ofInt_add, Int32.ofInt_toInt]
  rw [heq, Int32.toInt_ofInt_of_le hlow hhigh]

theorem distance_place (hroom : Roomy center) (hp : norm p ≤ 50) : (place center p).distance center = norm p := by
  obtain ⟨x, y⟩ := p
  obtain ⟨⟨hq, hq'⟩, hr, hr'⟩ := hroom
  have hbound : x.natAbs ≤ 50 ∧ y.natAbs ≤ 50 := by
    unfold norm at hp
    omega
  unfold HexCoord.distance place
  dsimp only
  rw [toInt_add_ofInt (by omega) (by omega), toInt_add_ofInt (by omega) (by omega)]
  congr 1
  exact Prod.ext (by dsimp only; omega) (by dsimp only; omega)

theorem place_offset (x : HexCoord) : place center (x.q.toInt - center.q.toInt, x.r.toInt - center.r.toInt) = x := by
  unfold place
  dsimp only
  simp only [Int32.ofInt_sub, Int32.ofInt_toInt, Int32.add_comm center.q, Int32.add_comm center.r, Int32.sub_add_cancel]

theorem looked_at {x : HexCoord} (hx : x.distance center ≤ 50) : ∃ p ∈ offsets, place center p = x ∧ norm p = x.distance center :=
  ⟨_, mem_offsets.2 hx, place_offset x, rfl⟩

/-! ## The answer -/

def Nearest (occupied : List HexCoord) (center c : HexCoord) : Prop :=
  c ∉ occupied ∧ ∀ x, x ∉ occupied → c.distance center ≤ x.distance center

theorem nearest_of_near (hroom : Roomy center) (hfree : ∃ x, x ∉ occupied ∧ x.distance center ≤ 50) :
    Nearest occupied center (findFree occupied center) := by
  obtain ⟨y, hy, hnear⟩ := hfree
  obtain ⟨q, hq, hplace, -⟩ := looked_at hnear
  have hfound : (offsets.find? fun p => place center p ∉ occupied).isSome := by
    rw [List.find?_isSome]
    exact ⟨q, hq, by simpa [hplace] using hy⟩
  obtain ⟨p, hp⟩ := Option.isSome_iff_exists.1 hfound
  obtain ⟨hpfree, before, after, heq, htaken⟩ := List.find?_eq_some_iff_append.1 hp
  rw [findFree_eq, hp, Option.map_some, Option.getD_some]
  have hpnorm : norm p ≤ 50 := mem_offsets.1 (List.mem_of_find?_eq_some hp)
  refine ⟨by simpa using hpfree, fun x hx => ?_⟩
  rw [distance_place hroom hpnorm]
  by_cases hfar : 50 < x.distance center
  · omega
  -- a nearer free cell would have been looked at before
  obtain ⟨o, ho, rfl, hnorm⟩ := looked_at (Nat.le_of_not_lt hfar)
  rw [← hnorm]
  rw [heq, List.mem_append] at ho
  obtain ho | ho := ho
  · have := htaken o ho
    simp [hx] at this
  · obtain rfl | ho := List.mem_cons.1 ho
    · exact Nat.le_refl _
    · have hsorted := offsets_sorted
      rw [heq, List.pairwise_append] at hsorted
      exact (List.pairwise_cons.1 hsorted.2.1).1 o ho

/-- With all cells up to distance 50 taken, the answer is the origin. -/
theorem findFree_far (hroom : Roomy center) (htaken : ¬ ∃ x, x ∉ occupied ∧ x.distance center ≤ 50) :
    findFree occupied center = ⟨0, 0⟩ := by
  have hnone : (offsets.find? fun p => place center p ∉ occupied) = none := by
    rw [List.find?_eq_none]
    intro p hp hfree
    have hnorm := mem_offsets.1 hp
    exact htaken ⟨place center p, by simpa using hfree, by rwa [distance_place hroom hnorm]⟩
  rw [findFree_eq, hnone]
  rfl

/-! A hive of 101 rows and columns around the origin, filled. -/

def squareCoord (n : Nat) : HexCoord := ⟨.ofInt (n / 101 - 50), .ofInt (n % 101 - 50)⟩

theorem squareCoord_inj {m n : Nat} (hm : m < 10201) (hn : n < 10201) (h : squareCoord m = squareCoord n) : m = n := by
  obtain ⟨hq, hr⟩ := HexCoord.mk.inj h
  have hq' := congrArg Int32.toInt hq
  have hr' := congrArg Int32.toInt hr
  rw [Int32.toInt_ofInt_of_le (by omega) (by omega), Int32.toInt_ofInt_of_le (by omega) (by omega)] at hq' hr'
  omega

def squareHive : CombStore where
  combs := (List.range 10201).map fun n => ⟨String.ofList (Nat.toDigits 10 n), squareCoord n⟩
  ids := by
    rw [List.map_map]
    refine List.Nodup.map (fun m n h => ?_) List.nodup_range
    have hdigits : Nat.toDigits 10 m = Nat.toDigits 10 n := String.ofList_injective h
    rw [← Nat.ofDigitChars_ten_toDigits (n := m), hdigits, Nat.ofDigitChars_ten_toDigits]
  places := by
    rw [List.map_map]
    refine List.Nodup.map_on ?_ List.nodup_range
    intro m hm n hn h
    exact squareCoord_inj (List.mem_range.1 hm) (List.mem_range.1 hn) h

theorem mem_squareHive {x : HexCoord} :
    x ∈ squareHive.occupied ↔ x.q.toInt.natAbs ≤ 50 ∧ x.r.toInt.natAbs ≤ 50 := by
  unfold CombStore.occupied squareHive
  rw [List.map_map, List.mem_map]
  simp only [List.mem_range, Function.comp_apply]
  constructor
  · rintro ⟨n, hn, rfl⟩
    unfold squareCoord
    dsimp only
    rw [Int32.toInt_ofInt_of_le (by omega) (by omega), Int32.toInt_ofInt_of_le (by omega) (by omega)]
    omega
  · rintro ⟨hq, hr⟩
    refine ⟨(x.q.toInt + 50).toNat * 101 + (x.r.toInt + 50).toNat, by omega, ?_⟩
    unfold squareCoord
    have hq' : (((x.q.toInt + 50).toNat * 101 + (x.r.toInt + 50).toNat : Nat) : Int) / 101 - 50 = x.q.toInt := by omega
    have hr' : (((x.q.toInt + 50).toNat * 101 + (x.r.toInt + 50).toNat : Nat) : Int) % 101 - 50 = x.r.toInt := by omega
    rw [hq', hr', Int32.ofInt_toInt, Int32.ofInt_toInt]

end SovereignCore.Hive
