import Mathlib
import SovereignCore.Lib.Text

/-!
# Times of receipts

`utc_string` and `utc_secs` turn seconds since the epoch into text and back. Both count days from the first of March, in
eras of 400 years.

* `civilFromDays`, `daysFromCivil`, `utcString`, `utcSecs` : the two algorithms, the format and the parser;
* `monthStart` : the first day of a month, months counted from March of year 0; a day lies in one month;
* `daysFromCivil_eq`, `civilFromDays_spec` : what the two algorithms do, in terms of it;
* `utcString_secs`, `utcString_lt` : rendered times are read back, and are ordered as the times;
* `utc_exact` : which texts `utc_secs` takes.
-/

namespace SovereignCore.AienTest

open Text

/-! ## The source -/

/-- Howard Hinnant's civil-from-days algorithm: year, month and day. -/
def civilFromDays (days : Int) : Int × Int × Int :=
  let z := days + 719468
  let era := z / 146097
  let doe := z % 146097
  let yoe := (doe - doe / 1460 + doe / 36524 - doe / 146096) / 365
  let y := yoe + era * 400
  let doy := doe - (365 * yoe + yoe / 4 - yoe / 100)
  let mp := (5 * doy + 2) / 153
  let d := doy - (153 * mp + 2) / 5 + 1
  let m := if mp < 10 then mp + 3 else mp - 9
  let y := if m ≤ 2 then y + 1 else y
  (y, m, d)

def daysFromCivil (y m d : Int) : Int :=
  let y := if m ≤ 2 then y - 1 else y
  let era := y / 400
  let yoe := y % 400
  let mp := if 2 < m then m - 3 else m + 9
  let doy := (153 * mp + 2) / 5 + d - 1
  let doe := yoe * 365 + yoe / 4 - yoe / 100 + doy
  era * 146097 + doe - 719468

def pad (width n : Nat) : List Char := List.replicate (width - (Nat.toDigits 10 n).length) '0' ++ Nat.toDigits 10 n

/-- `YYYY-MM-DDTHH:MM:SSZ`. -/
def render (y m d hh mm ss : Nat) : List Char :=
  pad 4 y ++ '-' :: pad 2 m ++ '-' :: pad 2 d ++ 'T' :: pad 2 hh ++ ':' :: pad 2 mm ++ ':' :: pad 2 ss ++ ['Z']

def utcString (secs : Nat) : String :=
  let date := civilFromDays (secs / 86400 : Nat)
  let rem := secs % 86400
  String.ofList (render date.1.toNat date.2.1.toNat date.2.2.toNat (rem / 3600) (rem % 3600 / 60) (rem % 60))

def isDigit (c : UInt8) : Bool := 48 ≤ c.toNat ∧ c.toNat ≤ 57

def digitsValue (t : List UInt8) : Nat := t.foldl (fun n c => n * 10 + (c.toNat - 48)) 0

/-- The digits at `start..stop`. -/
def num (b : List UInt8) (start stop : Nat) : Option Nat :=
  let t := (b.drop start).take (stop - start)
  if t.all isDigit then some (digitsValue t) else none

def shaped (b : List UInt8) : Bool :=
  b.length = 20 ∧ b[4]? = some 45 ∧ b[7]? = some 45 ∧ b[10]? = some 84 ∧ b[13]? = some 58 ∧ b[16]? = some 58 ∧
    b[19]? = some 90

/-- The inverse of `utcString`: `none` for anything else, the source says. -/
def utcSecs (s : String) : Option Nat :=
  let b := utf8 s
  if shaped b = false then none
  else do
    let y ← num b 0 4
    let m ← num b 5 7
    let d ← num b 8 10
    let hh ← num b 11 13
    let mm ← num b 14 16
    let ss ← num b 17 19
    if ¬ (1 ≤ m ∧ m ≤ 12) ∨ ¬ (1 ≤ d ∧ d ≤ 31) ∨ 23 < hh ∨ 59 < mm ∨ 59 < ss then none
    else
      let secs := daysFromCivil y m d * 86400 + hh * 3600 + mm * 60 + ss
      if secs < 0 then none else some secs.toNat

/-! ## Months -/

/-- The first day of month `k`, counted from March of year 0. -/
def monthStart (k : Int) : Int :=
  365 * (k / 12) + k / 12 / 4 - k / 12 / 100 + k / 12 / 400 + (153 * (k % 12) + 2) / 5 - 719468

def monthOf (y m : Int) : Int := 12 * y + m - 3

def isLeap (y : Int) : Prop := y % 4 = 0 ∧ (y % 100 ≠ 0 ∨ y % 400 = 0)

instance (y : Int) : Decidable (isLeap y) := inferInstanceAs (Decidable (_ ∧ _))

def daysInMonth (y m : Int) : Int :=
  if m = 2 then if isLeap y then 29 else 28 else if m = 4 ∨ m = 6 ∨ m = 9 ∨ m = 11 then 30 else 31

variable {y m d : Int}

theorem daysFromCivil_eq (hm : 1 ≤ m ∧ m ≤ 12) : daysFromCivil y m d = monthStart (monthOf y m) + d - 1 := by
  unfold daysFromCivil monthStart monthOf
  by_cases hwinter : m ≤ 2
  · have hdiv : (12 * y + m - 3) / 12 = y - 1 := by omega
    have hmod : (12 * y + m - 3) % 12 = m + 9 := by omega
    rw [if_pos hwinter, if_neg (by omega), hdiv, hmod]
    dsimp only
    omega
  · have hdiv : (12 * y + m - 3) / 12 = y := by omega
    have hmod : (12 * y + m - 3) % 12 = m - 3 := by omega
    rw [if_neg hwinter, if_pos (by omega), hdiv, hmod]
    dsimp only
    omega

def yearStart (y : Int) : Int := 365 * y + y / 4 - y / 100 + y / 400

theorem yearStart_succ : yearStart y = yearStart (y - 1) + if isLeap y then 366 else 365 := by
  unfold yearStart isLeap
  split_ifs with h
  · omega
  · omega

theorem monthStart_succ (hm : 1 ≤ m ∧ m ≤ 12) :
    monthStart (monthOf y m + 1) = monthStart (monthOf y m) + daysInMonth y m := by
  have hstart : ∀ k, monthStart k = yearStart (k / 12) + (153 * (k % 12) + 2) / 5 - 719468 := fun k => rfl
  rw [hstart, hstart]
  unfold monthOf daysInMonth
  by_cases hfeb : m = 2
  · subst hfeb
    have hdiv : (12 * y + 2 - 3) / 12 = y - 1 := by omega
    have hmod : (12 * y + 2 - 3) % 12 = 11 := by omega
    have hdiv' : (12 * y + 2 - 3 + 1) / 12 = y := by omega
    have hmod' : (12 * y + 2 - 3 + 1) % 12 = 0 := by omega
    rw [hdiv, hmod, hdiv', hmod', if_pos rfl, yearStart_succ]
    split_ifs
    · omega
    · omega
  · have hdiv : (12 * y + m - 3 + 1) / 12 = (12 * y + m - 3) / 12 := by omega
    have hmod : (12 * y + m - 3 + 1) % 12 = (12 * y + m - 3) % 12 + 1 := by omega
    have hmod' : (12 * y + m - 3) % 12 = if m ≤ 2 then m + 9 else m - 3 := by omega
    have htable : (153 * ((if m ≤ 2 then m + 9 else m - 3) + 1) + 2) / 5 =
        ((153 * if m ≤ 2 then m + 9 else m - 3) + 2) / 5 + if m = 4 ∨ m = 6 ∨ m = 9 ∨ m = 11 then 30 else 31 := by
      obtain ⟨hlow, hhigh⟩ := hm
      clear hdiv hmod hmod'
      interval_cases m <;> first | rfl | exact absurd rfl hfeb
    rw [hdiv, hmod, hmod', if_neg hfeb, htable]
    omega

theorem daysInMonth_pos : 28 ≤ daysInMonth y m ∧ daysInMonth y m ≤ 31 := by
  unfold daysInMonth
  split_ifs <;> omega

theorem exists_month (k : Int) : ∃ y m, (1 ≤ m ∧ m ≤ 12) ∧ monthOf y m = k := by
  refine ⟨(k + 2) / 12, (k + 2) % 12 + 1, by omega, ?_⟩
  unfold monthOf
  omega

theorem monthStart_strictMono : StrictMono monthStart := by
  refine strictMono_int_of_lt_succ fun k => ?_
  obtain ⟨y, m, hm, rfl⟩ := exists_month k
  rw [monthStart_succ hm]
  have := daysInMonth_pos (y := y) (m := m)
  omega

/-- A date that there is. -/
structure IsDate (y m d : Int) : Prop where
  month : 1 ≤ m ∧ m ≤ 12
  day : 1 ≤ d ∧ d ≤ daysInMonth y m

theorem date_le {y' m' d' : Int} (h : IsDate y m d) (h' : IsDate y' m' d') (hle : daysFromCivil y m d ≤ daysFromCivil y' m' d') :
    monthOf y m < monthOf y' m' ∨ (monthOf y m = monthOf y' m' ∧ d ≤ d') := by
  rw [daysFromCivil_eq h.month, daysFromCivil_eq h'.month] at hle
  obtain hlt | heq | hgt := lt_trichotomy (monthOf y m) (monthOf y' m')
  · exact Or.inl hlt
  · rw [heq] at hle
    exact Or.inr ⟨heq, by omega⟩
  · have hnext := monthStart_strictMono.monotone (Int.add_one_le_of_lt hgt)
    rw [monthStart_succ h'.month] at hnext
    have hday := h.day
    have hday' := h'.day
    omega

theorem monthOf_inj {y' m' : Int} (hm : 1 ≤ m ∧ m ≤ 12) (hm' : 1 ≤ m' ∧ m' ≤ 12) (h : monthOf y m = monthOf y' m') :
    y = y' ∧ m = m' := by
  unfold monthOf at h
  omega

theorem date_inj {y' m' d' : Int} (h : IsDate y m d) (h' : IsDate y' m' d') (heq : daysFromCivil y m d = daysFromCivil y' m' d') :
    y = y' ∧ m = m' ∧ d = d' := by
  have hmonth : monthOf y m = monthOf y' m' ∧ d = d' := by
    have hle := date_le h h' (le_of_eq heq)
    have hge := date_le h' h (le_of_eq heq.symm)
    omega
  obtain ⟨hy, hm⟩ := monthOf_inj h.month h'.month hmonth.1
  exact ⟨hy, hm, hmonth.2⟩

/-! ## Days to dates -/

def yearOfEra (doe : Int) : Int := (doe - doe / 1460 + doe / 36524 - doe / 146096) / 365

def eraStart (yoe : Int) : Int := 365 * yoe + yoe / 4 - yoe / 100

theorem yearOfEra_mono {a b : Int} (hle : a ≤ b) (hb : b < 146096) (ha : 0 ≤ a) : yearOfEra a ≤ yearOfEra b := by
  unfold yearOfEra
  have ha' : a / 146096 = 0 := by omega
  have hb' : b / 146096 = 0 := by omega
  rw [ha', hb']
  refine Int.ediv_le_ediv (by decide) ?_
  omega

set_option maxRecDepth 4000 in
theorem yearOfEra_ends : ∀ n : Nat, n < 400 →
    yearOfEra (eraStart n) = n ∧ yearOfEra (eraStart (n + 1) - 1) = n := by
  decide +kernel

theorem yearOfEra_spec {doe : Int} (h0 : 0 ≤ doe) (h1 : doe < 146096) :
    (0 ≤ yearOfEra doe ∧ yearOfEra doe < 400) ∧ eraStart (yearOfEra doe) ≤ doe ∧ doe < eraStart (yearOfEra doe + 1) := by
  have hrange : 0 ≤ yearOfEra doe ∧ yearOfEra doe < 400 := by
    unfold yearOfEra
    omega
  obtain ⟨n, hn⟩ := Int.eq_ofNat_of_zero_le hrange.1
  have hlt : n < 400 := by omega
  refine ⟨hrange, ?_, ?_⟩
  · -- a day before the year would be at most the last one of the year before
    by_contra hbefore
    have hstart : eraStart n ≤ 146096 := by
      unfold eraStart
      omega
    obtain ⟨k, rfl⟩ : ∃ k, n = k + 1 := by
      refine Nat.exists_eq_succ_of_ne_zero ?_
      rintro rfl
      have hzero : eraStart ((0 : Nat) : Int) = 0 := by decide
      rw [hn] at hbefore
      omega
    have hle := yearOfEra_mono (b := eraStart ((k + 1 : Nat) : Int) - 1) (a := doe) (by rw [hn] at hbefore; omega) (by omega) h0
    have hend := (yearOfEra_ends k (by omega)).2
    push_cast at hle hn
    omega
  · by_contra hafter
    rw [hn] at hafter
    by_cases hlast : n = 399
    · subst hlast
      have hend : eraStart ((399 : Nat) + 1) = 146096 := by decide
      omega
    · have hfirst := (yearOfEra_ends (n + 1) (by omega)).1
      push_cast at hfirst
      have hpos : 0 ≤ eraStart ((n : Int) + 1) := by
        unfold eraStart
        omega
      have hle := yearOfEra_mono (a := eraStart ((n : Int) + 1)) (b := doe) (by omega) h1 hpos
      omega

theorem civil_year (z : Int) : ∃ year doy, yearOfEra (z % 146097) + z / 146097 * 400 = year ∧
    z % 146097 - eraStart (yearOfEra (z % 146097)) = doy ∧ z = yearStart year + doy ∧ 0 ≤ doy ∧
      doy < if isLeap (year + 1) then 366 else 365 := by
  refine ⟨_, _, rfl, rfl, ?_⟩
  have h0 : 0 ≤ z % 146097 := by omega
  have h1 : z % 146097 < 146097 := by omega
  by_cases hlast : z % 146097 = 146096
  · -- the last day of an era is one that the count of leap years alone does not have
    have hyear : yearOfEra 146096 = 399 := by decide
    have hstart : eraStart 399 = 145731 := by decide
    rw [hlast, hyear, hstart]
    have hleap : isLeap (399 + z / 146097 * 400 + 1) := by
      unfold isLeap
      omega
    rw [if_pos hleap]
    unfold yearStart
    omega
  · obtain ⟨⟨hlow, hhigh⟩, hstart, hend⟩ := yearOfEra_spec h0 (by omega)
    generalize yearOfEra (z % 146097) = yoe at hlow hhigh hstart hend ⊢
    have hyear : yearStart (yoe + z / 146097 * 400) = eraStart yoe + z / 146097 * 146097 := by
      unfold yearStart eraStart
      omega
    have hnext : eraStart (yoe + 1) =
        eraStart yoe + 365 + (if (yoe + 1) % 4 = 0 then 1 else 0) - if (yoe + 1) % 100 = 0 then 1 else 0 := by
      unfold eraStart
      split_ifs <;> omega
    have hleap : isLeap (yoe + z / 146097 * 400 + 1) ↔
        (yoe + 1) % 4 = 0 ∧ ((yoe + 1) % 100 ≠ 0 ∨ (yoe + 1) % 400 = 0) := by
      unfold isLeap
      omega
    refine ⟨by omega, by omega, ?_⟩
    rw [if_congr hleap rfl rfl]
    split_ifs at hnext ⊢ <;> omega

/-- A day falls in the month that `civilFromDays` gives. -/
theorem civilFromDays_spec (days : Int) : ∃ y m d, civilFromDays days = (y, m, d) ∧ IsDate y m d ∧ daysFromCivil y m d = days := by
  obtain ⟨year, doy, hyear, hdoy, hz, h0, h1⟩ := civil_year (days + 719468)
  have hcivil : civilFromDays days =
      let mp := (5 * doy + 2) / 153
      let m := if mp < 10 then mp + 3 else mp - 9
      (if m ≤ 2 then year + 1 else year, m, doy - (153 * mp + 2) / 5 + 1) := by
    rw [← hyear, ← hdoy]
    rfl
  rw [hcivil]
  have hmp : 0 ≤ (5 * doy + 2) / 153 ∧ (5 * doy + 2) / 153 ≤ 11 := by
    split_ifs at h1 <;> omega
  have hfloor : 153 * ((5 * doy + 2) / 153) ≤ 5 * doy + 2 ∧ 5 * doy + 2 < 153 * ((5 * doy + 2) / 153) + 153 := by omega
  generalize (5 * doy + 2) / 153 = mp at hmp hfloor ⊢
  dsimp only
  have hstart : ∀ n, 0 ≤ n → n ≤ 11 → monthStart (12 * year + n) = yearStart year + (153 * n + 2) / 5 - 719468 := by
    intro n hlow hhigh
    have hdiv : (12 * year + n) / 12 = year := by omega
    have hmod : (12 * year + n) % 12 = n := by omega
    unfold monthStart
    rw [hdiv, hmod]
    rfl
  -- the month ends after the day
  have hend : days < monthStart (12 * year + mp + 1) := by
    by_cases hfeb : mp = 11
    · subst hfeb
      have hnext : monthStart (12 * year + 11 + 1) = yearStart (year + 1) - 719468 := by
        have hdiv : (12 * year + 11 + 1) / 12 = year + 1 := by omega
        have hmod : (12 * year + 11 + 1) % 12 = 0 := by omega
        unfold monthStart yearStart
        rw [hdiv, hmod]
        omega
      rw [hnext, yearStart_succ, Int.add_sub_cancel]
      omega
    · rw [Int.add_assoc, hstart (mp + 1) (by omega) (by omega)]
      omega
  have hmonth : ∀ {y m : Int}, monthOf y m = 12 * year + mp → 1 ≤ m ∧ m ≤ 12 →
      IsDate y m (doy - (153 * mp + 2) / 5 + 1) ∧ daysFromCivil y m (doy - (153 * mp + 2) / 5 + 1) = days := by
    intro y m hof hm
    have hthis := hstart mp hmp.1 hmp.2
    have hsucc := monthStart_succ (y := y) hm
    rw [hof] at hsucc
    refine ⟨⟨hm, by omega, by omega⟩, ?_⟩
    rw [daysFromCivil_eq hm, hof]
    omega
  refine ⟨_, _, _, rfl, hmonth ?_ ?_⟩
  · unfold monthOf
    split_ifs <;> omega
  · split_ifs <;> omega

/-! ## Digits -/

def digitByte (n : Nat) : UInt8 := .ofNat (48 + n)

def twoDigits (n : Nat) : List UInt8 := [digitByte (n / 10), digitByte (n % 10)]

def fourDigits (n : Nat) : List UInt8 := twoDigits (n / 100) ++ twoDigits (n % 100)

def renderBytes (y m d hh mm ss : Nat) : List UInt8 :=
  fourDigits y ++ 45 :: twoDigits m ++ 45 :: twoDigits d ++ 84 :: twoDigits hh ++ 58 :: twoDigits mm ++ 58 :: twoDigits ss ++
    [90]

theorem digitByte_toNat {n : Nat} (hn : n < 10) : (digitByte n).toNat = 48 + n := by
  unfold digitByte
  rw [UInt8.toNat_ofNat', Nat.mod_eq_of_lt (by omega)]

theorem pad_succ (width n : Nat) : pad (width + 2) n = pad (width + 1) (n / 10) ++ [(n % 10).digitChar] := by
  unfold pad
  by_cases hn : n < 10
  · rw [Nat.div_eq_of_lt hn, Nat.mod_eq_of_lt hn, Nat.toDigits_of_lt_base hn, Nat.toDigits_zero]
    show List.replicate (width + 1) '0' ++ _ = List.replicate width '0' ++ ['0'] ++ _
    rw [List.replicate_succ']
  · rw [Nat.toDigits_of_base_le (by decide) (by omega), List.length_append, List.append_assoc]
    congr 2
    simp

theorem pad_one {n : Nat} (hn : n < 10) : pad 1 n = [n.digitChar] := by
  unfold pad
  rw [Nat.toDigits_of_lt_base hn]
  rfl

theorem encode_digitChar {n : Nat} (hn : n < 10) : String.utf8EncodeChar n.digitChar = [digitByte n] := by
  interval_cases n <;> rfl

theorem pad_two {n : Nat} (hn : n < 100) : (pad 2 n).flatMap String.utf8EncodeChar = twoDigits n := by
  rw [pad_succ 0, pad_one (by omega), List.flatMap_append, List.flatMap_singleton, List.flatMap_singleton,
    encode_digitChar (by omega), encode_digitChar (by omega)]
  rfl

theorem pad_four {n : Nat} (hn : n < 10000) : (pad 4 n).flatMap String.utf8EncodeChar = fourDigits n := by
  rw [pad_succ 2, pad_succ 1, List.append_assoc, List.flatMap_append, pad_two (by omega)]
  unfold fourDigits
  have hdiv : n / 10 / 10 = n / 100 := by omega
  have hten : n / 10 % 10 = n % 100 / 10 := by omega
  have hone : n % 10 = n % 100 % 10 := by omega
  rw [hdiv]
  congr 1
  rw [List.flatMap_append, List.flatMap_singleton, List.flatMap_singleton, encode_digitChar (by omega),
    encode_digitChar (by omega), hten, hone]
  rfl

/-- Fields of a rendered time have their widths. -/
structure Widths (y m d hh mm ss : Nat) : Prop where
  y : y < 10000
  m : m < 100
  d : d < 100
  hh : hh < 100
  mm : mm < 100
  ss : ss < 100

theorem render_bytes {y m d hh mm ss : Nat} (h : Widths y m d hh mm ss) :
    utf8 (String.ofList (render y m d hh mm ss)) = renderBytes y m d hh mm ss := by
  rw [utf8_ofList]
  unfold render renderBytes
  simp only [List.flatMap_append, List.flatMap_cons, List.flatMap_nil, pad_four h.y, pad_two h.m, pad_two h.d, pad_two h.hh,
    pad_two h.mm, pad_two h.ss]
  rfl

/-! ## The parser -/

theorem isDigit_iff {c : UInt8} : isDigit c = true ↔ ∃ n < 10, c = digitByte n := by
  unfold isDigit
  rw [decide_eq_true_iff]
  constructor
  · rintro ⟨hlow, hhigh⟩
    refine ⟨c.toNat - 48, by omega, UInt8.toNat_inj.1 ?_⟩
    rw [digitByte_toNat (by omega)]
    omega
  · rintro ⟨n, hn, rfl⟩
    rw [digitByte_toNat hn]
    omega

theorem two_iff {a b : UInt8} {n : Nat} :
    (if [a, b].all isDigit then some (digitsValue [a, b]) else none) = some n ↔ n < 100 ∧ [a, b] = twoDigits n := by
  constructor
  · intro h
    split_ifs at h with hdigits
    simp only [List.all_cons, List.all_nil, Bool.and_true, Bool.and_eq_true] at hdigits
    obtain ⟨i, hi, rfl⟩ := isDigit_iff.1 hdigits.1
    obtain ⟨j, hj, rfl⟩ := isDigit_iff.1 hdigits.2
    have hn := Option.some.inj h
    simp only [digitsValue, List.foldl_cons, List.foldl_nil, digitByte_toNat hi, digitByte_toNat hj] at hn
    have hdiv : n / 10 = i := by omega
    have hmod : n % 10 = j := by omega
    refine ⟨by omega, ?_⟩
    unfold twoDigits
    rw [hdiv, hmod]
  · rintro ⟨hn, hbytes⟩
    rw [hbytes]
    have hi : isDigit (digitByte (n / 10)) = true := isDigit_iff.2 ⟨_, by omega, rfl⟩
    have hj : isDigit (digitByte (n % 10)) = true := isDigit_iff.2 ⟨_, by omega, rfl⟩
    simp only [twoDigits, List.all_cons, List.all_nil, hi, hj, Bool.and_true, if_true, digitsValue, List.foldl_cons,
      List.foldl_nil, digitByte_toNat (show n / 10 < 10 by omega), digitByte_toNat (show n % 10 < 10 by omega)]
    exact congrArg some (by omega)

theorem four_iff {a b c e : UInt8} {n : Nat} :
    (if [a, b, c, e].all isDigit then some (digitsValue [a, b, c, e]) else none) = some n ↔
      n < 10000 ∧ [a, b, c, e] = fourDigits n := by
  have hsplit : (if [a, b, c, e].all isDigit then some (digitsValue [a, b, c, e]) else none) = some n ↔
      ∃ i j, (if [a, b].all isDigit then some (digitsValue [a, b]) else none) = some i ∧
        (if [c, e].all isDigit then some (digitsValue [c, e]) else none) = some j ∧ i * 100 + j = n := by
    have hall : [a, b, c, e].all isDigit = ([a, b].all isDigit && [c, e].all isDigit) := by
      simp [Bool.and_assoc]
    have hvalue : digitsValue [a, b, c, e] = digitsValue [a, b] * 100 + digitsValue [c, e] := by
      simp only [digitsValue, List.foldl_cons, List.foldl_nil]
      omega
    rw [hall, hvalue]
    cases [a, b].all isDigit <;> cases [c, e].all isDigit <;> simp
  rw [hsplit]
  constructor
  · rintro ⟨i, j, hi, hj, rfl⟩
    obtain ⟨hilt, hi⟩ := two_iff.1 hi
    obtain ⟨hjlt, hj⟩ := two_iff.1 hj
    have hdiv : (i * 100 + j) / 100 = i := by omega
    have hmod : (i * 100 + j) % 100 = j := by omega
    refine ⟨by omega, ?_⟩
    unfold fourDigits
    rw [hdiv, hmod, ← hi, ← hj]
    rfl
  · rintro ⟨hn, hbytes⟩
    have hsplit : [a, b] ++ [c, e] = twoDigits (n / 100) ++ twoDigits (n % 100) := hbytes
    have hpair := List.append_inj hsplit rfl
    exact ⟨n / 100, n % 100, two_iff.2 ⟨by omega, hpair.1⟩, two_iff.2 ⟨by omega, hpair.2⟩, by omega⟩

theorem shaped_iff {b : List UInt8} : shaped b = true ↔ ∃ y0 y1 y2 y3 m0 m1 d0 d1 h0 h1 i0 i1 s0 s1,
    b = [y0, y1, y2, y3, 45, m0, m1, 45, d0, d1, 84, h0, h1, 58, i0, i1, 58, s0, s1, 90] := by
  unfold shaped
  rw [decide_eq_true_iff]
  constructor
  · rintro ⟨hlen, h4, h7, h10, h13, h16, h19⟩
    simp only [List.getElem?_eq_some_iff, exists_prop_of_true, hlen, Nat.reduceLT] at h4 h7 h10 h13 h16 h19
    refine ⟨b[0], b[1], b[2], b[3], b[5], b[6], b[8], b[9], b[11], b[12], b[14], b[15], b[17], b[18], ?_⟩
    refine List.ext_getElem hlen fun i hi _ => ?_
    rw [hlen] at hi
    interval_cases i <;> first | rfl | assumption
  · rintro ⟨y0, y1, y2, y3, m0, m1, d0, d1, h0, h1, i0, i1, s0, s1, rfl⟩
    exact ⟨rfl, rfl, rfl, rfl, rfl, rfl, rfl⟩

def clock (hh mm ss : Nat) : Nat := hh * 3600 + mm * 60 + ss

/-- Months, days and times as the parser admits them. -/
structure Admitted (m d hh mm ss : Nat) : Prop where
  m : 1 ≤ m ∧ m ≤ 12
  d : 1 ≤ d ∧ d ≤ 31
  hh : hh ≤ 23
  mm : mm ≤ 59
  ss : ss ≤ 59

theorem Admitted.widths {y m d hh mm ss : Nat} (h : Admitted m d hh mm ss) (hy : y < 10000) : Widths y m d hh mm ss :=
  ⟨hy, by have := h.m; omega, by have := h.d; omega, by have := h.hh; omega, by have := h.mm; omega,
    by have := h.ss; omega⟩

theorem num_renderBytes {y m d hh mm ss : Nat} (hw : Widths y m d hh mm ss) :
    (num (renderBytes y m d hh mm ss) 0 4 = some y ∧ num (renderBytes y m d hh mm ss) 5 7 = some m ∧
      num (renderBytes y m d hh mm ss) 8 10 = some d) ∧
    num (renderBytes y m d hh mm ss) 11 13 = some hh ∧ num (renderBytes y m d hh mm ss) 14 16 = some mm ∧
      num (renderBytes y m d hh mm ss) 17 19 = some ss :=
  ⟨⟨four_iff.2 ⟨hw.y, rfl⟩, two_iff.2 ⟨hw.m, rfl⟩, two_iff.2 ⟨hw.d, rfl⟩⟩, two_iff.2 ⟨hw.hh, rfl⟩, two_iff.2 ⟨hw.mm, rfl⟩,
    two_iff.2 ⟨hw.ss, rfl⟩⟩

theorem utcSecs_iff {s : String} {t : Nat} : utcSecs s = some t ↔ ∃ y m d hh mm ss : Nat, y < 10000 ∧ Admitted m d hh mm ss ∧
    s = String.ofList (render y m d hh mm ss) ∧ daysFromCivil y m d * 86400 + clock hh mm ss = t := by
  constructor
  · intro h
    unfold utcSecs at h
    dsimp only at h
    split_ifs at h with hshape
    obtain ⟨y0, y1, y2, y3, m0, m1, d0, d1, h0, h1, i0, i1, s0, s1, hbytes⟩ := shaped_iff.1 (Bool.of_not_eq_false hshape)
    rw [hbytes] at h
    obtain ⟨y, hy, h⟩ := Option.bind_eq_some_iff.1 h
    obtain ⟨m, hm, h⟩ := Option.bind_eq_some_iff.1 h
    obtain ⟨d, hd, h⟩ := Option.bind_eq_some_iff.1 h
    obtain ⟨hh, hhh, h⟩ := Option.bind_eq_some_iff.1 h
    obtain ⟨mm, hmm, h⟩ := Option.bind_eq_some_iff.1 h
    obtain ⟨ss, hss, h⟩ := Option.bind_eq_some_iff.1 h
    split_ifs at h with hrange hneg
    obtain ⟨hylt, hy⟩ := four_iff.1 hy
    obtain ⟨-, hm⟩ := two_iff.1 hm
    obtain ⟨-, hd⟩ := two_iff.1 hd
    obtain ⟨-, hhh⟩ := two_iff.1 hhh
    obtain ⟨-, hmm⟩ := two_iff.1 hmm
    obtain ⟨-, hss⟩ := two_iff.1 hss
    have hadm : Admitted m d hh mm ss := ⟨by omega, by omega, by omega, by omega, by omega⟩
    refine ⟨y, m, d, hh, mm, ss, hylt, hadm, ?_, ?_⟩
    · rw [← utf8_inj, hbytes, render_bytes (hadm.widths hylt)]
      unfold renderBytes
      rw [← hy, ← hm, ← hd, ← hhh, ← hmm, ← hss]
      rfl
    · have ht := Option.some.inj h
      unfold clock
      push_cast
      omega
  · rintro ⟨y, m, d, hh, mm, ss, hy, hadm, rfl, ht⟩
    have hw := hadm.widths hy
    have hbytes := render_bytes hw
    obtain ⟨⟨hy', hm', hd'⟩, hhh', hmm', hss'⟩ := num_renderBytes hw
    have hshape : shaped (renderBytes y m d hh mm ss) = true :=
      shaped_iff.2 ⟨_, _, _, _, _, _, _, _, _, _, _, _, _, _, rfl⟩
    have hrange : ¬ (¬ (1 ≤ m ∧ m ≤ 12) ∨ ¬ (1 ≤ d ∧ d ≤ 31) ∨ 23 < hh ∨ 59 < mm ∨ 59 < ss) := by
      obtain ⟨hm, hd, hhh, hmm, hss⟩ := hadm
      omega
    have hsecs : daysFromCivil y m d * 86400 + hh * 3600 + mm * 60 + ss = (t : Int) := by
      unfold clock at ht
      push_cast at ht
      omega
    unfold utcSecs
    dsimp only
    rw [hbytes, if_neg (by rw [hshape]; decide), hy', hm', hd', hhh', hmm', hss']
    show (if _ then none else if daysFromCivil y m d * 86400 + hh * 3600 + mm * 60 + ss < 0 then none
      else some (daysFromCivil y m d * 86400 + hh * 3600 + mm * 60 + ss).toNat) = _
    rw [if_neg hrange, hsecs, if_neg (by omega)]
    rfl

/-! ## Rendered times -/

def endOfTime : Nat := 253402300800

theorem utcString_fields {secs : Nat} (h : secs < endOfTime) : ∃ y m d hh mm ss : Nat, (1970 ≤ y ∧ y < 10000) ∧
    Admitted m d hh mm ss ∧ IsDate y m d ∧ utcString secs = String.ofList (render y m d hh mm ss) ∧
      daysFromCivil y m d * 86400 + clock hh mm ss = secs := by
  obtain ⟨y, m, d, hcivil, hdate, hdays⟩ := civilFromDays_spec (secs / 86400 : Nat)
  have hfirst : IsDate 1970 1 1 := ⟨by decide, by decide⟩
  have hlast : IsDate 9999 12 31 := ⟨by decide, by decide⟩
  have hyear : 1970 ≤ y ∧ y < 10000 := by
    have hlow := date_le hfirst hdate (by rw [hdays, show daysFromCivil 1970 1 1 = 0 by decide]; omega)
    have hhigh := date_le hdate hlast (by
      unfold endOfTime at h
      rw [hdays, show daysFromCivil 9999 12 31 = 2932896 by decide]
      omega)
    have hm := hdate.month
    unfold monthOf at hlow hhigh
    omega
  obtain ⟨y, rfl⟩ := Int.eq_ofNat_of_zero_le (show 0 ≤ y by omega)
  obtain ⟨m, rfl⟩ := Int.eq_ofNat_of_zero_le (show 0 ≤ m by have := hdate.month; omega)
  obtain ⟨d, rfl⟩ := Int.eq_ofNat_of_zero_le (show 0 ≤ d by have := hdate.day; omega)
  have hm := hdate.month
  have hd := hdate.day
  have hlength := daysInMonth_pos (y := (y : Int)) (m := (m : Int))
  refine ⟨y, m, d, secs % 86400 / 3600, secs % 86400 % 3600 / 60, secs % 86400 % 60, by omega,
    ⟨by omega, by omega, by omega, by omega, by omega⟩, hdate, ?_, ?_⟩
  · unfold utcString
    rw [hcivil]
    rfl
  · rw [hdays]
    unfold clock
    omega

theorem utcString_secs {secs : Nat} (h : secs < endOfTime) : utcSecs (utcString secs) = some secs := by
  obtain ⟨y, m, d, hh, mm, ss, hy, hadm, -, hs, hsecs⟩ := utcString_fields h
  exact utcSecs_iff.2 ⟨y, m, d, hh, mm, ss, hy.2, hadm, hs, hsecs⟩

theorem digitByte_lt {m n : Nat} (hlt : m < n) (hn : n < 10) : digitByte m < digitByte n := by
  rw [UInt8.lt_iff_toNat_lt, digitByte_toNat (by omega), digitByte_toNat hn]
  omega

theorem twoDigits_lt {m n : Nat} (hlt : m < n) (hn : n < 100) (u v : List UInt8) : twoDigits m ++ u < twoDigits n ++ v := by
  unfold twoDigits
  by_cases hten : m / 10 = n / 10
  · rw [hten]
    exact List.cons_lt_cons_iff.2 (Or.inr ⟨rfl, List.cons_lt_cons_iff.2 (Or.inl (digitByte_lt (by omega) (by omega)))⟩)
  · exact List.cons_lt_cons_iff.2 (Or.inl (digitByte_lt (by omega) (by omega)))

theorem fourDigits_lt {m n : Nat} (hlt : m < n) (hn : n < 10000) (u v : List UInt8) :
    fourDigits m ++ u < fourDigits n ++ v := by
  unfold fourDigits
  rw [List.append_assoc, List.append_assoc]
  by_cases hhundred : m / 100 = n / 100
  · rw [hhundred]
    exact List.append_left_lt (twoDigits_lt (by omega) (by omega) u v)
  · exact twoDigits_lt (by omega) (by omega) _ _

theorem utcString_lt {a b : Nat} (hlt : a < b) (hb : b < endOfTime) : utf8 (utcString a) < utf8 (utcString b) := by
  obtain ⟨y, m, d, hh, mm, ss, hy, hadm, hdate, hs, hsecs⟩ := utcString_fields (show a < endOfTime by omega)
  obtain ⟨y', m', d', hh', mm', ss', hy', hadm', hdate', hs', hsecs'⟩ := utcString_fields hb
  rw [hs, hs', render_bytes (hadm.widths hy.2), render_bytes (hadm'.widths hy'.2)]
  have hw' := hadm'.widths hy'.2
  have hclock : clock hh mm ss < 86400 ∧ clock hh' mm' ss' < 86400 := by
    obtain ⟨-, -, h1, h2, h3⟩ := hadm
    obtain ⟨-, -, h1', h2', h3'⟩ := hadm'
    unfold clock
    omega
  have hdays : daysFromCivil y m d ≤ daysFromCivil y' m' d' := by omega
  have horder := date_le hdate hdate' hdays
  have hm := hadm.m
  have hm' := hadm'.m
  unfold monthOf at horder
  unfold renderBytes
  simp only [List.append_assoc, List.cons_append]
  -- field by field, up to the first that differs
  by_cases hyear : y < y'
  · exact fourDigits_lt hyear hy'.2 _ _
  obtain rfl : y = y' := by omega
  refine List.append_left_lt (List.cons_lt_cons_iff.2 (Or.inr ⟨rfl, ?_⟩))
  by_cases hmonth : m < m'
  · exact twoDigits_lt hmonth hw'.m _ _
  obtain rfl : m = m' := by omega
  refine List.append_left_lt (List.cons_lt_cons_iff.2 (Or.inr ⟨rfl, ?_⟩))
  by_cases hday : d < d'
  · exact twoDigits_lt hday hw'.d _ _
  obtain rfl : d = d' := by omega
  refine List.append_left_lt (List.cons_lt_cons_iff.2 (Or.inr ⟨rfl, ?_⟩))
  have htime : clock hh mm ss < clock hh' mm' ss' := by omega
  obtain ⟨-, -, h1, h2, h3⟩ := hadm
  obtain ⟨-, -, h1', h2', h3'⟩ := hadm'
  unfold clock at htime
  by_cases hhour : hh < hh'
  · exact twoDigits_lt hhour hw'.hh _ _
  obtain rfl : hh = hh' := by omega
  refine List.append_left_lt (List.cons_lt_cons_iff.2 (Or.inr ⟨rfl, ?_⟩))
  by_cases hminute : mm < mm'
  · exact twoDigits_lt hminute hw'.mm _ _
  obtain rfl : mm = mm' := by omega
  refine List.append_left_lt (List.cons_lt_cons_iff.2 (Or.inr ⟨rfl, ?_⟩))
  exact twoDigits_lt (by omega) hw'.ss _ _

/-! ## Texts that are no rendered times -/

def NoSuchDay (s : String) : Prop := ∃ y m d hh mm ss : Nat, (1970 ≤ y ∧ y < 10000) ∧ Admitted m d hh mm ss ∧
  daysInMonth y m < d ∧ s = String.ofList (render y m d hh mm ss)

theorem monthStart_long (k : Int) : monthStart k + 28 ≤ monthStart (k + 1) := by
  obtain ⟨y, m, hm, rfl⟩ := exists_month k
  rw [monthStart_succ hm]
  have := daysInMonth_pos (y := y) (m := m)
  omega

theorem noSuchDay_month {y m d : Nat} (hd : d ≤ 31) (hno : daysInMonth y m < d) : m ≠ 12 := by
  rintro rfl
  have hlong : daysInMonth y (12 : Nat) = 31 := rfl
  omega

/-- The day of an admitted date lies between the epoch and the year 10000 exactly when the year does. -/
theorem days_range {y m d hh mm ss : Nat} (hadm : Admitted m d hh mm ss) (hy : y < 10000) :
    daysFromCivil y m d < 2932897 ∧ (0 ≤ daysFromCivil y m d ↔ 1970 ≤ y) := by
  have hm := hadm.m
  have hd := hadm.d
  have hmono := monthStart_strictMono.monotone
  have hepoch : monthStart (monthOf 1970 1) = 0 := by decide
  have hend : monthStart (monthOf 10000 1) = 2932897 := by decide
  rw [daysFromCivil_eq (by omega)]
  have h1 := monthStart_long (monthOf y m)
  have h2 := monthStart_long (monthOf y m + 1)
  have hnext := monthStart_succ (y := (y : Int)) (m := (m : Int)) (by omega)
  have hyear : ∀ n : Nat, y < n → daysInMonth y m < d → monthStart (monthOf y m + 1 + 1) ≤ monthStart (monthOf n 1) := by
    intro n hn hno
    refine hmono ?_
    have hne := noSuchDay_month hd.2 hno
    unfold monthOf
    omega
  have hyear' : ∀ n : Nat, y < n → monthStart (monthOf y m + 1) ≤ monthStart (monthOf n 1) := by
    intro n hn
    refine hmono ?_
    unfold monthOf
    omega
  have hbefore : ∀ n : Nat, y < n → monthStart (monthOf y m) + d - 1 < monthStart (monthOf n 1) := by
    intro n hn
    by_cases hno : daysInMonth y m < d
    · have := hyear n hn hno
      omega
    · have := hyear' n hn
      omega
  refine ⟨hend ▸ hbefore 10000 hy, ?_, ?_⟩
  · intro hpos
    by_contra hlt
    have := hbefore 1970 (by omega)
    rw [show ((1970 : Nat) : Int) = 1970 from rfl, hepoch] at this
    omega
  · intro hle
    have hstart : monthStart (monthOf 1970 1) ≤ monthStart (monthOf y m) := by
      refine hmono ?_
      unfold monthOf
      omega
    omega

theorem clock_lt {m d hh mm ss : Nat} (h : Admitted m d hh mm ss) : clock hh mm ss < 86400 := by
  obtain ⟨-, -, h1, h2, h3⟩ := h
  unfold clock
  omega

theorem render_of_date {y m d hh mm ss t : Nat} (hadm : Admitted m d hh mm ss) (hdate : IsDate y m d)
    (ht : t < endOfTime) (hsecs : daysFromCivil y m d * 86400 + clock hh mm ss = t) :
    utcString t = String.ofList (render y m d hh mm ss) := by
  obtain ⟨y', m', d', hh', mm', ss', -, hadm', hdate', hs', hsecs'⟩ := utcString_fields ht
  have hlt := clock_lt hadm
  have hlt' := clock_lt hadm'
  have hdays : daysFromCivil y m d = daysFromCivil y' m' d' := by omega
  have hclock : clock hh mm ss = clock hh' mm' ss' := by omega
  obtain ⟨hy, hm, hd⟩ := date_inj hdate hdate' hdays
  have hfields : hh = hh' ∧ mm = mm' ∧ ss = ss' := by
    obtain ⟨-, -, h1, h2, h3⟩ := hadm
    obtain ⟨-, -, h1', h2', h3'⟩ := hadm'
    unfold clock at hclock
    omega
  obtain ⟨rfl, rfl, rfl⟩ := hfields
  obtain rfl := Int.ofNat_inj.1 hy
  obtain rfl := Int.ofNat_inj.1 hm
  obtain rfl := Int.ofNat_inj.1 hd
  exact hs'

/-- **Times and texts.** Before the year 10000 rendered times are read back and are ordered as the times. A text that is
read is the rendered time exactly when it does not name a day that its month does not have. -/
theorem utc_exact (s : String) : (∀ secs, secs < endOfTime → utcSecs (utcString secs) = some secs) ∧
    (∀ a b, a < b → b < endOfTime → utf8 (utcString a) < utf8 (utcString b)) ∧
    ((∀ t, utcSecs s = some t → utcString t = s) ↔ ¬ NoSuchDay s) := by
  refine ⟨fun _ => utcString_secs, fun _ _ => utcString_lt, ⟨?_, ?_⟩⟩
  · rintro hinv ⟨y, m, d, hh, mm, ss, hy, hadm, hno, rfl⟩
    -- the text is read, and renders as a date that there is
    obtain ⟨hhigh, hlow⟩ := days_range hadm hy.2
    have hclock := clock_lt hadm
    have hpos := hlow.2 hy.1
    obtain ⟨t, ht⟩ := Int.eq_ofNat_of_zero_le (show 0 ≤ daysFromCivil y m d * 86400 + clock hh mm ss by omega)
    have hread := hinv t (utcSecs_iff.2 ⟨y, m, d, hh, mm, ss, hy.2, hadm, rfl, ht⟩)
    have hend : t < endOfTime := by
      unfold endOfTime
      omega
    obtain ⟨y', m', d', hh', mm', ss', hy', hadm', hdate', hs', -⟩ := utcString_fields hend
    have hbytes : renderBytes y m d hh mm ss = renderBytes y' m' d' hh' mm' ss' := by
      rw [← render_bytes (hadm.widths hy.2), ← render_bytes (hadm'.widths hy'.2), ← hs', hread]
    obtain ⟨⟨hyear, hmonth, hday⟩, -⟩ := num_renderBytes (hadm.widths hy.2)
    obtain ⟨⟨hyear', hmonth', hday'⟩, -⟩ := num_renderBytes (hadm'.widths hy'.2)
    rw [hbytes] at hyear hmonth hday
    obtain rfl := Option.some.inj (hyear.symm.trans hyear')
    obtain rfl := Option.some.inj (hmonth.symm.trans hmonth')
    obtain rfl := Option.some.inj (hday.symm.trans hday')
    have hd := hdate'.day.2
    omega
  · intro hno t hread
    obtain ⟨y, m, d, hh, mm, ss, hy, hadm, rfl, hsecs⟩ := utcSecs_iff.1 hread
    obtain ⟨hhigh, hlow⟩ := days_range hadm hy
    have hclock := clock_lt hadm
    have hm := hadm.m
    have hd := hadm.d
    have hyear : 1970 ≤ y := hlow.1 (by omega)
    have hday : (d : Int) ≤ daysInMonth y m := by
      by_contra hlt
      exact hno ⟨y, m, d, hh, mm, ss, ⟨hyear, hy⟩, hadm, by omega, rfl⟩
    refine render_of_date hadm ⟨by omega, by omega, hday⟩ ?_ hsecs
    unfold endOfTime
    omega

/-- The thirtieth of February is read as the second of March. -/
theorem february_thirtieth : utcSecs "1970-02-30T00:00:00Z" = some 5184000 ∧
    utcString 5184000 = "1970-03-02T00:00:00Z" ∧
    ¬ ∀ s t, utcSecs s = some t → utcString t = s := by
  have hread : utcSecs "1970-02-30T00:00:00Z" = some 5184000 := by decide +kernel
  have hrender : utcString 5184000 = "1970-03-02T00:00:00Z" := by decide +kernel
  refine ⟨hread, hrender, fun hinv => ?_⟩
  have hsame := hinv _ _ hread
  rw [hrender] at hsame
  exact absurd hsame (by decide)

end SovereignCore.AienTest
