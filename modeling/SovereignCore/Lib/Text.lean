import Mathlib.Data.String.Basic
import Mathlib.Data.List.Sort
import Mathlib.Data.List.Flatten
import Mathlib.Data.List.Dedup

/-!
# Text

* `utf8`, `fromUtf8` : text as bytes and back (`fromUtf8_eq_some`, `utf8_inj`), and the cut of an encoding at a line
  feed (`utf8_cut`);
* `lines` : the lines of a text (`linesFrom_append`, `linesFrom_line`);
* `blank`, `trim`, `splitAfterLast` : white space at the ends of a text, and what follows the last match of a pattern;
* `lower`, `isHex` : ASCII lowercase, hexadecimal digits;
* `debug` : a text as a quoted literal;
* `sorted`, `sortedUnique` : the items of a list in order.
-/

namespace SovereignCore.Text

def lower (s : String) : String := String.ofList (s.toList.map Char.toLower)

def isHexDigit (c : Char) : Bool := c.isDigit ∨ ('a' ≤ c ∧ c ≤ 'f') ∨ ('A' ≤ c ∧ c ≤ 'F')

def isHex (s : String) : Bool := s ≠ "" ∧ s.toList.all isHexDigit

/-- A character of a quoted literal. Characters outside ASCII stand for themselves. -/
def debugChar (c : Char) : List Char :=
  if c = '\x00' then ['\\', '0']
  else if c = '\t' then ['\\', 't']
  else if c = '\n' then ['\\', 'n']
  else if c = '\r' then ['\\', 'r']
  else if c = '"' then ['\\', '"']
  else if c = '\\' then ['\\', '\\']
  else if c.toNat < 32 ∨ c.toNat = 127 then ['\\', 'u', '\x7b'] ++ Nat.toDigits 16 c.toNat ++ ['\x7d']
  else [c]

def debug (s : String) : String := String.ofList ('"' :: s.toList.flatMap debugChar ++ ['"'])

/-! ## Bytes -/

def utf8 (s : String) : List UInt8 := s.toList.flatMap String.utf8EncodeChar

def fromUtf8 (bs : List UInt8) : Option String := String.fromUTF8? bs.toByteArray

variable {s t : String} {bs : List UInt8}

theorem utf8_toByteArray (s : String) : (utf8 s).toByteArray = s.toByteArray := String.utf8Encode_toList

theorem utf8_inj : utf8 s = utf8 t ↔ s = t := by
  rw [← List.toByteArray_inj, utf8_toByteArray, utf8_toByteArray, String.toByteArray_inj]

theorem fromUtf8_eq_some : fromUtf8 bs = some s ↔ utf8 s = bs := by
  unfold fromUtf8 String.fromUTF8?
  constructor
  · intro h
    split_ifs at h with hv
    have hs := Option.some.inj h
    rw [← List.toByteArray_inj, utf8_toByteArray, ← hs]
    rfl
  · rintro rfl
    have hv : (utf8 s).toByteArray.IsValidUTF8 := ⟨s.toList, rfl⟩
    rw [dif_pos hv]
    apply congrArg some
    apply String.toByteArray_inj.1
    exact utf8_toByteArray s

@[simp] theorem fromUtf8_utf8 (s : String) : fromUtf8 (utf8 s) = some s := fromUtf8_eq_some.2 rfl

theorem utf8_ofList (cs : List Char) : utf8 (String.ofList cs) = cs.flatMap String.utf8EncodeChar := by
  simp [utf8]

def lineFeed : UInt8 := 10

theorem encode_lineFeed : String.utf8EncodeChar '\n' = [lineFeed] := rfl

theorem lineFeed_not_mem {c : Char} (h : c ≠ '\n') : lineFeed ∉ String.utf8EncodeChar c := by
  have hne : c.val.toNat ≠ 10 := by
    intro hv
    apply h
    apply Char.ext
    exact UInt32.toNat_inj.1 hv
  have hbyte : ∀ {n : Nat}, n < 256 → n ≠ 10 → lineFeed ≠ UInt8.ofNat n := by
    intro n hn hn10 he
    have := congrArg UInt8.toNat he
    rw [UInt8.toNat_ofNat', Nat.mod_eq_of_lt hn] at this
    exact hn10 this.symm
  unfold String.utf8EncodeChar
  dsimp only
  split_ifs with h1 h2 h3
  · simp only [List.mem_singleton]
    exact hbyte (by omega) hne
  · simp only [List.mem_cons, List.not_mem_nil, or_false, not_or]
    exact ⟨hbyte (by omega) (by omega), hbyte (by omega) (by omega)⟩
  · simp only [List.mem_cons, List.not_mem_nil, or_false, not_or]
    exact ⟨hbyte (by omega) (by omega), hbyte (by omega) (by omega), hbyte (by omega) (by omega)⟩
  · simp only [List.mem_cons, List.not_mem_nil, or_false, not_or]
    exact ⟨hbyte (by omega) (by omega), hbyte (by omega) (by omega), hbyte (by omega) (by omega),
      hbyte (by omega) (by omega)⟩

/-- The byte of a line feed stands for a line feed: an encoding can be cut there. -/
theorem utf8_cut {cs : List Char} {a b : List UInt8} (h : cs.flatMap String.utf8EncodeChar = a ++ lineFeed :: b) :
    ∃ as bs, cs = as ++ '\n' :: bs ∧ as.flatMap String.utf8EncodeChar = a ∧ bs.flatMap String.utf8EncodeChar = b := by
  induction cs generalizing a with
  | nil => simp at h
  | cons c cs ih =>
    rw [List.flatMap_cons] at h
    obtain ⟨a', rfl, hrest⟩ | ⟨a', hc, hrest⟩ := List.append_eq_append_iff.1 h
    · -- the line feed comes after `c`
      obtain ⟨as, bs, rfl, has, hbs⟩ := ih hrest
      exact ⟨c :: as, bs, rfl, by rw [List.flatMap_cons, has], hbs⟩
    · cases a' with
      | nil =>
        rw [List.append_nil] at hc
        obtain ⟨as, bs, rfl, has, hbs⟩ := ih (a := []) hrest.symm
        exact ⟨c :: as, bs, rfl, by rw [List.flatMap_cons, has, List.append_nil, hc], hbs⟩
      | cons x a' =>
        obtain ⟨rfl, hb⟩ := List.cons.inj hrest
        have hmem : lineFeed ∈ String.utf8EncodeChar c := by
          rw [hc]
          simp
        have hnl : c = '\n' := by
          by_contra hne
          exact lineFeed_not_mem hne hmem
        rw [hnl, encode_lineFeed] at hc
        have ha : a = [] ∧ a' = [] := by
          cases a with
          | nil => exact ⟨rfl, (List.cons.inj hc).2.symm⟩
          | cons y a => simp at hc
        refine ⟨[], cs, by rw [hnl]; rfl, ha.1.symm, ?_⟩
        rw [hb, ha.2]
        rfl

/-! ## Lines -/

def stripReturn (l : List Char) : List Char := if l.getLast? = some '\r' then l.dropLast else l

/-- The lines of a text that begins with what is read of its first line. -/
def linesFrom : List Char → List Char → List (List Char)
  | line, [] => if line = [] then [] else [line]
  | line, c :: cs => if c = '\n' then stripReturn line :: linesFrom [] cs else linesFrom (line ++ [c]) cs

/-- The lines of a text: each ends with a line feed, or a carriage return and a line feed; the last line need not. -/
def lines (s : String) : List String := (linesFrom [] s.toList).map String.ofList

theorem linesFrom_append (line a b : List Char) :
    linesFrom line (a ++ '\n' :: b) = linesFrom line (a ++ ['\n']) ++ linesFrom [] b := by
  induction a generalizing line with
  | nil => simp [linesFrom]
  | cons c a ih =>
    rw [List.cons_append, List.cons_append, linesFrom, linesFrom]
    by_cases hc : c = '\n'
    · rw [if_pos hc, if_pos hc, ih, List.cons_append]
    · rw [if_neg hc, if_neg hc, ih]

theorem linesFrom_line {a : List Char} (line : List Char) (h : '\n' ∉ a) :
    linesFrom line (a ++ ['\n']) = [stripReturn (line ++ a)] := by
  induction a generalizing line with
  | nil => simp [linesFrom]
  | cons c a ih =>
    have hc : c ≠ '\n' := fun he => h (he ▸ List.mem_cons_self)
    rw [List.cons_append, linesFrom, if_neg hc, ih _ (fun hm => h (List.mem_cons_of_mem _ hm)), List.append_assoc]
    rfl

def isWhitespace (c : Char) : Bool :=
  (9 ≤ c.toNat ∧ c.toNat ≤ 13) ∨ (0x2000 ≤ c.toNat ∧ c.toNat ≤ 0x200A) ∨
    c.toNat ∈ [0x20, 0x85, 0xA0, 0x1680, 0x2028, 0x2029, 0x202F, 0x205F, 0x3000]

def blank (s : String) : Bool := s.toList.all isWhitespace

def trim (l : List Char) : List Char := ((l.dropWhile isWhitespace).reverse.dropWhile isWhitespace).reverse

def splitAfterLast (pattern : List Char) : List Char → Option (List Char)
  | [] => if pattern = [] then some [] else none
  | c :: cs =>
    match splitAfterLast pattern cs with
    | some rest => some rest
    | none => if pattern.isPrefixOf (c :: cs) then some ((c :: cs).drop pattern.length) else none

/-! ## Order -/

def sorted (items : List String) : List String := items.insertionSort (· ≤ ·)

def sortedUnique (items : List String) : List String := sorted items.dedup

@[simp] theorem mem_sorted {items : List String} {s : String} : s ∈ sorted items ↔ s ∈ items :=
  (List.perm_insertionSort _ items).mem_iff

@[simp] theorem mem_sortedUnique {items : List String} {s : String} : s ∈ sortedUnique items ↔ s ∈ items := by
  unfold sortedUnique
  rw [mem_sorted, List.mem_dedup]

theorem length_sortedUnique (items : List String) : (sortedUnique items).length = items.dedup.length :=
  (List.perm_insertionSort _ _).length_eq

theorem sortedUnique_pairwise (items : List String) : (sortedUnique items).Pairwise (· < ·) := by
  have hle : (sortedUnique items).Pairwise (· ≤ ·) := List.pairwise_insertionSort _ _
  have hne : (sortedUnique items).Nodup := (List.perm_insertionSort _ _).nodup_iff.2 (List.nodup_dedup items)
  exact (List.pairwise_and_iff.2 ⟨hle, hne⟩).imp fun h => lt_of_le_of_ne h.1 h.2

theorem sortedUnique_of_pairwise {items : List String} (h : items.Pairwise (· < ·)) : sortedUnique items = items := by
  have hnodup : items.Nodup := h.imp ne_of_lt
  unfold sortedUnique sorted
  rw [List.dedup_eq_self.2 hnodup]
  exact (h.imp le_of_lt).insertionSort_eq

theorem sortedUnique_sortedUnique (items : List String) : sortedUnique (sortedUnique items) = sortedUnique items :=
  sortedUnique_of_pairwise (sortedUnique_pairwise items)

end SovereignCore.Text
