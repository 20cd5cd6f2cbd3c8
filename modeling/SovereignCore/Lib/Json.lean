import Mathlib

/-!
# JSON values, and a writer with its reader

`Value` is the tree that a JSON library hands to its callers. A `Codec` is such a library: a writer of values and a
reader of texts. `Codec.Lawful` is what a program that writes records and reads them back may expect of it: an object
whose members are plain comes back with the same members. Members that are not plain (floats, deep nesting) may come
back changed, or make the text unreadable, and the law does not say more about them.

* `Codec.Lawful.reads_back` : a plain object written and read answers every `get` as before;
* `compact`, `compact_lawful` : the compact writer on plain objects and its reader, a lawful codec that runs;
* `writeObject_cancel` : a compact object of scalars and arrays of scalars ends where it says: the text behind it cannot
  be taken for a part of it.
-/

namespace SovereignCore.Json

/-- A JSON value. Numbers are split as callers see them: those that are a `u64`, and the text of any other. -/
inductive Value
  | null
  | bool (b : Bool)
  | num (n : UInt64)
  | real (text : String)
  | str (s : String)
  | arr (items : List Value)
  | obj (fields : List (String × Value))
  deriving Inhabited

namespace Value

def get : Value → String → Option Value
  | .obj fs, k => fs.lookup k
  | _, _ => none

def asStr : Value → Option String
  | .str s => some s
  | _ => none

def asU64 : Value → Option UInt64
  | .num n => some n
  | _ => none

def isObject : Value → Bool
  | .obj _ => true
  | _ => false

def ofOption : Option String → Value
  | some s => .str s
  | none => .null

/-- `v[k] = w` on an object. The order of the members cannot be seen through `get`. -/
def set : Value → String → Value → Value
  | .obj fs, k, w => .obj ((k, w) :: fs.filter fun f => f.1 != k)
  | v, _, _ => v

/-- `entry(k).or_insert(w)` on an object. -/
def orInsert (v : Value) (k : String) (w : Value) : Value :=
  if (v.get k).isSome then v else v.set k w

def scalar : Value → Bool
  | .null => true
  | .bool _ => true
  | .num _ => true
  | .str _ => true
  | _ => false

def plain : Value → Bool
  | .obj fs => decide ((fs.map Prod.fst).Pairwise (· < ·)) && fs.all fun f => f.2.scalar
  | v => v.scalar

def Object (v : Value) : Prop := ∃ fs, v = .obj fs ∧ (fs.map Prod.fst).Nodup

def Flat (v : Value) : Prop := v.Object ∧ ∀ k w, v.get k = some w → w.plain = true

end Value

/-! ## Objects built member by member -/

section Members

variable {fs : List (String × Value)} {k k' : String} {v w : Value}

theorem lookup_filter_ne (h : k' ≠ k) : (fs.filter fun f => f.1 != k).lookup k' = fs.lookup k' := by
  induction fs with
  | nil => rfl
  | cons f fs ih =>
    obtain ⟨key, val⟩ := f
    by_cases hf : key = k
    · have hk : (k' == k) = false := by simpa using h
      simp [hf, List.lookup_cons, ih, hk]
    · simp [hf, List.lookup_cons, ih]

@[simp] theorem get_obj : (Value.obj fs).get k = fs.lookup k := rfl

theorem get_set (hv : v.Object) : (v.set k w).get k' = if k' = k then some w else v.get k' := by
  obtain ⟨fs, rfl, -⟩ := hv
  by_cases h : k' = k
  · simp [Value.set, h]
  · rw [if_neg h]
    simp only [Value.set, get_obj, List.lookup_cons, show (k' == k) = false by simpa using h]
    exact lookup_filter_ne h

theorem Value.Object.set (hv : v.Object) : (v.set k w).Object := by
  obtain ⟨fs, rfl, hd⟩ := hv
  refine ⟨_, rfl, ?_⟩
  rw [List.map_cons, List.nodup_cons]
  refine ⟨by simp, ?_⟩
  exact hd.sublist (List.filter_sublist.map _)

theorem Value.Flat.set (hv : v.Flat) (hw : w.plain = true) : (v.set k w).Flat := by
  refine ⟨hv.1.set, fun k' w' h => ?_⟩
  rw [get_set hv.1] at h
  split_ifs at h
  · exact Option.some.inj h ▸ hw
  · exact hv.2 _ _ h

theorem Value.Flat.orInsert (hv : v.Flat) (hw : w.plain = true) : (v.orInsert k w).Flat := by
  unfold Value.orInsert
  split_ifs
  · exact hv
  · exact hv.set hw

theorem lookup_mem (h : fs.lookup k = some w) : (k, w) ∈ fs := by
  induction fs with
  | nil => simp at h
  | cons f fs ih =>
    obtain ⟨key, val⟩ := f
    rw [List.lookup_cons] at h
    split at h
    · rename_i he
      have hk : k = key := by simpa using he
      cases Option.some.inj h
      simp [hk]
    · exact List.mem_cons_of_mem _ (ih h)

theorem lookup_of_mem (hd : (fs.map Prod.fst).Nodup) (h : (k, w) ∈ fs) : fs.lookup k = some w := by
  induction fs with
  | nil => simp at h
  | cons f fs ih =>
    obtain ⟨key, val⟩ := f
    rw [List.map_cons, List.nodup_cons] at hd
    rcases List.mem_cons.1 h with he | h
    · cases he
      simp
    · have hmem : k ∈ fs.map Prod.fst := List.mem_map.2 ⟨(k, w), h, rfl⟩
      have hne : k ≠ key := fun he => hd.1 (he ▸ hmem)
      rw [List.lookup_cons, show (k == key) = false by simpa using hne]
      exact ih hd.2 h

/-- A literal object is flat when its keys differ and its members are plain. -/
theorem flat_obj (hd : (fs.map Prod.fst).Nodup) (hp : ∀ f ∈ fs, f.2.plain = true) : (Value.obj fs).Flat :=
  ⟨⟨fs, rfl, hd⟩, fun _ _ h => hp _ (lookup_mem h)⟩

end Members

@[simp] theorem plain_null : Value.null.plain = true := rfl

@[simp] theorem plain_num (n : UInt64) : (Value.num n).plain = true := rfl

@[simp] theorem plain_str (s : String) : (Value.str s).plain = true := rfl

theorem plain_obj {fs : List (String × Value)} (ks : List String) (hk : fs.map Prod.fst = ks)
    (ho : ks.Pairwise (· < ·)) (hs : ∀ f ∈ fs, f.2.scalar = true) : (Value.obj fs).plain = true := by
  subst hk
  simp only [Value.plain, Bool.and_eq_true, decide_eq_true_eq, List.all_eq_true]
  exact ⟨ho, hs⟩

@[simp] theorem plain_ofOption (o : Option String) : (Value.ofOption o).plain = true := by
  cases o <;> rfl

/-! ## Codecs -/

/-- A JSON library: its writer and its reader. -/
structure Codec where
  print : Value → String
  parse : String → Option Value

structure Codec.Lawful (c : Codec) : Prop where
  reads : ∀ v : Value, v.Flat → ∃ r, c.parse (c.print v) = some r
  /-- What can be read back has the keys of what was written, and its plain members. -/
  keeps : ∀ v r : Value, v.Object → c.parse (c.print v) = some r → ∀ k,
    (∀ w, v.get k = some w → w.plain = true → r.get k = some w) ∧ (v.get k = none → r.get k = none)

theorem Codec.Lawful.reads_back {c : Codec} (hc : c.Lawful) {v : Value} (hv : v.Flat) :
    ∃ r, c.parse (c.print v) = some r ∧ ∀ k, r.get k = v.get k := by
  obtain ⟨r, hr⟩ := hc.reads v hv
  refine ⟨r, hr, fun k => ?_⟩
  have hk := hc.keeps v r hv.1 hr k
  rcases h : v.get k with _ | w
  · exact hk.2 h
  · exact hk.1 w h (hv.2 k w h)

/-! ## The compact writer and its reader -/

def escapeChar (c : Char) : List Char :=
  if c = '"' then ['\\', '"']
  else if c = '\\' then ['\\', '\\']
  else if c = '\n' then ['\\', 'n']
  else if c = '\r' then ['\\', 'r']
  else if c = '\t' then ['\\', 't']
  else if c = '\x08' then ['\\', 'b']
  else if c = '\x0c' then ['\\', 'f']
  else if c.toNat < 32 then ['\\', 'u', '0', '0', Nat.digitChar (c.toNat / 16), Nat.digitChar (c.toNat % 16)]
  else [c]

def hexValue (c : Char) : Nat :=
  if c.isDigit then c.toNat - 48 else c.toNat - 87

def readStr : List Char → Option (List Char × List Char)
  | [] => none
  | '"' :: cs => some ([], cs)
  | '\\' :: 'u' :: '0' :: '0' :: a :: b :: cs =>
    (readStr cs).map fun r => (Char.ofNat (16 * hexValue a + hexValue b) :: r.1, r.2)
  | '\\' :: 'n' :: cs => (readStr cs).map fun r => ('\n' :: r.1, r.2)
  | '\\' :: 'r' :: cs => (readStr cs).map fun r => ('\r' :: r.1, r.2)
  | '\\' :: 't' :: cs => (readStr cs).map fun r => ('\t' :: r.1, r.2)
  | '\\' :: 'b' :: cs => (readStr cs).map fun r => ('\x08' :: r.1, r.2)
  | '\\' :: 'f' :: cs => (readStr cs).map fun r => ('\x0c' :: r.1, r.2)
  | '\\' :: c :: cs => (readStr cs).map fun r => (c :: r.1, r.2)
  | c :: cs => (readStr cs).map fun r => (c :: r.1, r.2)

def writeStr (s : String) : List Char := '"' :: s.toList.flatMap escapeChar ++ ['"']

def writeScalar : Value → List Char
  | .null => ['n', 'u', 'l', 'l']
  | .bool true => ['t', 'r', 'u', 'e']
  | .bool false => ['f', 'a', 'l', 's', 'e']
  | .num n => Nat.toDigits 10 n.toNat
  | .str s => writeStr s
  | _ => []

def readScalar : List Char → Option (Value × List Char)
  | 'n' :: 'u' :: 'l' :: 'l' :: cs => some (.null, cs)
  | 't' :: 'r' :: 'u' :: 'e' :: cs => some (.bool true, cs)
  | 'f' :: 'a' :: 'l' :: 's' :: 'e' :: cs => some (.bool false, cs)
  | '"' :: cs => (readStr cs).map fun r => (.str (String.ofList r.1), r.2)
  | cs =>
    match cs.span Char.isDigit with
    | ([], _) => none
    | (ds, rest) => some (.num (UInt64.ofNat (Nat.ofDigitChars 10 ds 0)), rest)

section Fields

variable (write : Value → List Char) (read : List Char → Option (Value × List Char))

def writeField (f : String × Value) : List Char := writeStr f.1 ++ ':' :: write f.2

def writeFields : List (String × Value) → List Char
  | [] => ['\x7d']
  | [f] => writeField write f ++ ['\x7d']
  | f :: fs => writeField write f ++ ',' :: writeFields fs

def readField : List Char → Option ((String × Value) × List Char)
  | '"' :: cs =>
    match readStr cs with
    | some (k, ':' :: cs) => (read cs).map fun r => ((String.ofList k, r.1), r.2)
    | _ => none
  | _ => none

def readFields : Nat → List Char → Option (List (String × Value) × List Char)
  | 0, _ => none
  | n + 1, cs =>
    match readField read cs with
    | some (f, ',' :: cs) => (readFields n cs).map fun r => (f :: r.1, r.2)
    | some (f, '\x7d' :: cs) => some ([f], cs)
    | _ => none

def writeObject (fs : List (String × Value)) : List Char := '\x7b' :: writeFields write fs

def readObject : List Char → Option (Value × List Char)
  | '\x7b' :: '\x7d' :: cs => some (.obj [], cs)
  | '\x7b' :: cs => (readFields read cs.length cs).map fun r => (.obj r.1, r.2)
  | _ => none

end Fields

def writePlain : Value → List Char
  | .obj fs => writeObject writeScalar fs
  | v => writeScalar v

def readPlain (cs : List Char) : Option (Value × List Char) :=
  match readScalar cs with
  | some r => some r
  | none => readObject readScalar cs

/-- The compact writer on objects of plain members. Other values are outside this codec: it writes no text for them. -/
def compact : Codec where
  print
    | .obj fs => if fs.all fun f => f.2.plain then String.ofList (writeObject writePlain fs) else ""
    | _ => ""
  parse t :=
    match readObject readPlain t.toList with
    | some (v, []) => some v
    | _ => none

theorem ofNat_hex {c : Char} (h : c.toNat < 32) : Char.ofNat (16 * hexValue (Nat.digitChar (c.toNat / 16)) +
    hexValue (Nat.digitChar (c.toNat % 16))) = c := by
  have hall : ∀ n < 32, 16 * hexValue (Nat.digitChar (n / 16)) + hexValue (Nat.digitChar (n % 16)) = n := by decide
  rw [hall _ h]
  exact Char.ofNat_toNat c

theorem readStr_escapeChar (c : Char) (cs : List Char) :
    readStr (escapeChar c ++ cs) = (readStr cs).map fun r => (c :: r.1, r.2) := by
  unfold escapeChar
  split_ifs with h1 h2 h3 h4 h5 h6 h7 h8
  · subst h1; simp [readStr]
  · subst h2; simp [readStr]
  · subst h3; simp [readStr]
  · subst h4; simp [readStr]
  · subst h5; simp [readStr]
  · subst h6; simp [readStr]
  · subst h7; simp [readStr]
  · simp [readStr, ofNat_hex h8]
  · rw [List.singleton_append, readStr]
    all_goals simp_all

theorem readStr_escape (s rest : List Char) : readStr (s.flatMap escapeChar ++ '"' :: rest) = some (s, rest) := by
  induction s with
  | nil => rfl
  | cons c s ih => rw [List.flatMap_cons, List.append_assoc, readStr_escapeChar, ih, Option.map_some]

def Ends (rest : List Char) : Prop := ∃ c cs, rest = c :: cs ∧ (c = ',' ∨ c = '\x7d')

theorem Ends.not_digit {rest : List Char} (h : Ends rest) : rest.takeWhile Char.isDigit = [] := by
  obtain ⟨c, cs, rfl, rfl | rfl⟩ := h
  · rfl
  · rfl

theorem writeStr_append (s : String) (rest : List Char) :
    writeStr s ++ rest = '"' :: (s.toList.flatMap escapeChar ++ '"' :: rest) := by
  simp [writeStr]

theorem readScalar_digit {c : Char} (cs : List Char) (hc : c.isDigit = true) : readScalar (c :: cs) =
    some (.num (UInt64.ofNat (Nat.ofDigitChars 10 ((c :: cs).takeWhile Char.isDigit) 0)),
      (c :: cs).dropWhile Char.isDigit) := by
  rw [readScalar]
  · simp [List.span_eq_takeWhile_dropWhile, hc]
  all_goals
    intro cs' he
    cases he
    exact absurd hc (by decide)

theorem readScalar_num {n : UInt64} {rest : List Char} (h : rest.takeWhile Char.isDigit = []) :
    readScalar (Nat.toDigits 10 n.toNat ++ rest) = some (.num n, rest) := by
  have hdig : ∀ c ∈ Nat.toDigits 10 n.toNat, c.isDigit = true :=
    fun c hc => Nat.isDigit_of_mem_toDigits (by decide) (by decide) hc
  have htake : (Nat.toDigits 10 n.toNat ++ rest).takeWhile Char.isDigit = Nat.toDigits 10 n.toNat := by
    rw [List.takeWhile_append_of_pos hdig, h, List.append_nil]
  have hdrop : (Nat.toDigits 10 n.toNat ++ rest).dropWhile Char.isDigit = rest := by
    have hsplit := List.takeWhile_append_dropWhile (p := Char.isDigit) (l := rest)
    rw [h, List.nil_append] at hsplit
    rw [List.dropWhile_append_of_pos hdig, hsplit]
  obtain ⟨d, ds, hds⟩ := List.exists_cons_of_ne_nil (Nat.toDigits_ne_nil (n := n.toNat) (b := 10))
  have hread := readScalar_digit (ds ++ rest) (hdig d (by simp [hds]))
  rw [← List.cons_append, ← hds, htake, hdrop, Nat.ofDigitChars_ten_toDigits] at hread
  rw [hread]
  simp

theorem readScalar_write {v : Value} (hv : v.scalar = true) {rest : List Char}
    (h : rest.takeWhile Char.isDigit = []) : readScalar (writeScalar v ++ rest) = some (v, rest) := by
  cases v with
  | null => rfl
  | bool b => cases b <;> rfl
  | num n => exact readScalar_num h
  | str s =>
    rw [writeScalar, writeStr_append, readScalar, readStr_escape]
    simp
  | real t => simp [Value.scalar] at hv
  | arr l => simp [Value.scalar] at hv
  | obj fs => simp [Value.scalar] at hv

section FieldsRead

variable {write : Value → List Char} {read : List Char → Option (Value × List Char)} {fs : List (String × Value)}

/-- `read` takes back what `write` wrote of the value. -/
def TakesBack (write : Value → List Char) (read : List Char → Option (Value × List Char)) (v : Value) : Prop :=
  ∀ rest, Ends rest → read (write v ++ rest) = some (v, rest)

theorem readField_write {f : String × Value} (hf : TakesBack write read f.2) {rest : List Char} (h : Ends rest) :
    readField read (writeField write f ++ rest) = some (f, rest) := by
  have hcons : writeField write f ++ rest =
      '"' :: (f.1.toList.flatMap escapeChar ++ '"' :: ':' :: (write f.2 ++ rest)) := by
    simp [writeField, writeStr]
  rw [hcons, readField, readStr_escape]
  simp [hf rest h]

theorem readFields_write (hfs : ∀ f ∈ fs, TakesBack write read f.2) (hne : fs ≠ []) {n : Nat} (hn : fs.length ≤ n)
    (rest : List Char) : readFields read n (writeFields write fs ++ rest) = some (fs, rest) := by
  induction fs generalizing n with
  | nil => exact absurd rfl hne
  | cons f fs ih =>
    obtain ⟨m, rfl⟩ : ∃ m, n = m + 1 := ⟨n - 1, by simp at hn; omega⟩
    cases fs with
    | nil =>
      rw [writeFields, List.append_assoc, List.singleton_append, readFields,
        readField_write (hfs f (by simp)) ⟨_, _, rfl, Or.inr rfl⟩]
      simp
    | cons g gs =>
      have hrest := ih (fun f' hf' => hfs f' (by simp [hf'])) (by simp) (n := m) (by simpa using hn)
      rw [writeFields, List.append_assoc, List.cons_append, readFields,
        readField_write (hfs f (by simp)) ⟨_, _, rfl, Or.inl rfl⟩]
      · simp only [hrest, Option.map_some]
      · simp

theorem length_le_writeFields : fs.length ≤ (writeFields write fs).length := by
  induction fs with
  | nil => simp
  | cons f fs ih =>
    cases fs with
    | nil =>
      simp only [writeFields, writeField, List.length_append, List.length_cons]
      omega
    | cons g gs =>
      rw [writeFields, List.length_append, List.length_cons, List.length_cons (a := ',')]
      · omega
      · simp

theorem writeFields_head (write : Value → List Char) (f : String × Value) (fs : List (String × Value)) :
    ∃ cs, writeFields write (f :: fs) = '"' :: cs := by
  cases fs with
  | nil => exact ⟨_, rfl⟩
  | cons g gs => exact ⟨_, rfl⟩

theorem readObject_write (hfs : ∀ f ∈ fs, TakesBack write read f.2) (rest : List Char) :
    readObject read (writeObject write fs ++ rest) = some (.obj fs, rest) := by
  cases fs with
  | nil => rfl
  | cons f fs =>
    have hread := readFields_write hfs (by simp) (n := (writeFields write (f :: fs) ++ rest).length)
      (by rw [List.length_append]; exact le_trans length_le_writeFields (Nat.le_add_right _ _)) rest
    obtain ⟨cs, hcs⟩ := writeFields_head write f fs
    rw [writeObject, List.cons_append, readObject]
    · rw [hread, Option.map_some]
    · intro cs' he
      rw [hcs] at he
      exact absurd he (by simp)

end FieldsRead

theorem readPlain_write {v : Value} (hv : v.plain = true) : TakesBack writePlain readPlain v := by
  intro rest hrest
  by_cases hs : v.scalar = true
  · have hw : writePlain v = writeScalar v := by
      cases v with
      | obj fs => simp [Value.scalar] at hs
      | _ => rfl
    rw [hw, readPlain, readScalar_write hs hrest.not_digit]
  · cases v with
    | obj fs =>
      have hfs : ∀ f ∈ fs, TakesBack writeScalar readScalar f.2 := by
        intro f hf rest' hrest'
        have hall : ∀ f ∈ fs, f.2.scalar = true := by
          simp only [Value.plain, Bool.and_eq_true, List.all_eq_true] at hv
          exact hv.2
        exact readScalar_write (hall f hf) hrest'.not_digit
      rw [writePlain, readPlain, readObject_write hfs]
      simp [writeObject, readScalar]
    | _ => simp_all [Value.plain]

/-- The compact codec takes an object of plain members back as it was. -/
theorem compact_parse_print {fs : List (String × Value)} (h : ∀ f ∈ fs, f.2.plain = true) :
    compact.parse (compact.print (.obj fs)) = some (.obj fs) := by
  have hall : (fs.all fun f => f.2.plain) = true := by simpa using h
  have hread := readObject_write (fun f hf => readPlain_write (h f hf)) []
  rw [List.append_nil] at hread
  simp only [compact, hall, if_true, String.toList_ofList, hread]

theorem compact_lawful : compact.Lawful where
  reads v hv := by
    obtain ⟨⟨fs, rfl, hd⟩, hp⟩ := hv
    have hall : ∀ f ∈ fs, f.2.plain = true := fun f hf => hp f.1 f.2 (lookup_of_mem hd hf)
    exact ⟨_, compact_parse_print hall⟩
  keeps v r hv hr k := by
    obtain ⟨fs, rfl, hd⟩ := hv
    by_cases hall : ∀ f ∈ fs, f.2.plain = true
    · rw [compact_parse_print hall] at hr
      cases Option.some.inj hr
      exact ⟨fun w hw _ => hw, fun h => h⟩
    · have hprint : compact.print (.obj fs) = "" := by
        have hfalse : (fs.all fun f => f.2.plain) = false := by simpa using hall
        simp [compact, hfalse]
      have hnone : compact.parse "" = none := rfl
      rw [hprint, hnone] at hr
      cases hr

/-! ## Arrays of scalars -/

def writeItems : List Value → List Char
  | [] => [']']
  | [v] => writeScalar v ++ [']']
  | v :: vs => writeScalar v ++ ',' :: writeItems vs

def readItems : Nat → List Char → Option (List Value × List Char)
  | 0, _ => none
  | n + 1, cs =>
    match readScalar cs with
    | some (v, ',' :: cs) => (readItems n cs).map fun r => (v :: r.1, r.2)
    | some (v, ']' :: cs) => some ([v], cs)
    | _ => none

def writeRow : Value → List Char
  | .arr vs => '[' :: writeItems vs
  | v => writeScalar v

def readRow : List Char → Option (Value × List Char)
  | '[' :: ']' :: cs => some (.arr [], cs)
  | '[' :: cs => (readItems cs.length cs).map fun r => (.arr r.1, r.2)
  | cs => readScalar cs

def Value.row : Value → Bool
  | .arr vs => vs.all Value.scalar
  | v => v.scalar

theorem readItems_write {vs : List Value} (hvs : ∀ v ∈ vs, v.scalar = true) (hne : vs ≠ []) {n : Nat}
    (hn : vs.length ≤ n) (rest : List Char) : readItems n (writeItems vs ++ rest) = some (vs, rest) := by
  induction vs generalizing n with
  | nil => exact absurd rfl hne
  | cons v vs ih =>
    obtain ⟨m, rfl⟩ : ∃ m, n = m + 1 := ⟨n - 1, by simp at hn; omega⟩
    cases vs with
    | nil =>
      rw [writeItems, List.append_assoc, List.singleton_append, readItems, readScalar_write (hvs v (by simp)) (by rfl)]
      simp
    | cons w ws =>
      have hrest := ih (fun v' hv' => hvs v' (by simp [hv'])) (by simp) (n := m) (by simpa using hn)
      rw [writeItems, List.append_assoc, List.cons_append, readItems, readScalar_write (hvs v (by simp)) (by rfl)]
      · simp only [hrest, Option.map_some]
      · simp

theorem length_le_writeItems (vs : List Value) : vs.length ≤ (writeItems vs).length := by
  induction vs with
  | nil => simp
  | cons v vs ih =>
    cases vs with
    | nil => simp [writeItems]
    | cons w ws =>
      rw [writeItems, List.length_append, List.length_cons, List.length_cons (a := ',')]
      · omega
      · simp

theorem writeScalar_head {v : Value} (hv : v.scalar = true) :
    ∃ c cs, writeScalar v = c :: cs ∧ c ≠ '[' ∧ c ≠ ']' := by
  cases v with
  | null => exact ⟨_, _, rfl, by decide, by decide⟩
  | bool b => cases b <;> exact ⟨_, _, rfl, by decide, by decide⟩
  | num n =>
    obtain ⟨d, ds, hds⟩ := List.exists_cons_of_ne_nil (Nat.toDigits_ne_nil (n := n.toNat) (b := 10))
    have hd : d.isDigit = true := Nat.isDigit_of_mem_toDigits (b := 10) (by decide) (by decide) (by rw [hds]; simp)
    refine ⟨d, ds, hds, ?_, ?_⟩
    · rintro rfl
      exact absurd hd (by decide)
    · rintro rfl
      exact absurd hd (by decide)
  | str s => exact ⟨_, _, rfl, by decide, by decide⟩
  | real t => simp [Value.scalar] at hv
  | arr l => simp [Value.scalar] at hv
  | obj fs => simp [Value.scalar] at hv

theorem readRow_write {v : Value} (hv : v.row = true) : TakesBack writeRow readRow v := by
  intro rest hrest
  by_cases hs : v.scalar = true
  · have hw : writeRow v = writeScalar v := by
      cases v with
      | arr vs => simp [Value.scalar] at hs
      | _ => rfl
    obtain ⟨c, cs, hc, hopen, -⟩ := writeScalar_head hs
    have hread : readRow (writeScalar v ++ rest) = readScalar (writeScalar v ++ rest) := by
      rw [hc, List.cons_append, readRow]
      all_goals
        intro cs' he
        exact hopen (List.cons.inj he).1
    rw [hw, hread, readScalar_write hs hrest.not_digit]
  · cases v with
    | arr vs =>
      have hvs : ∀ v ∈ vs, v.scalar = true := by simpa [Value.row] using hv
      cases vs with
      | nil => rfl
      | cons v vs =>
        have hread := readItems_write hvs (by simp) (n := (writeItems (v :: vs) ++ rest).length)
          (by rw [List.length_append]; exact le_trans (length_le_writeItems _) (Nat.le_add_right _ _)) rest
        obtain ⟨c, cs, hc, -, hclose⟩ := writeScalar_head (hvs v (by simp))
        rw [writeRow, List.cons_append, readRow]
        · rw [hread, Option.map_some]
        · intro cs' he
          cases vs with
          | nil =>
            rw [writeItems, hc] at he
            exact hclose (List.cons.inj he).1
          | cons w ws =>
            rw [writeItems, hc] at he
            · exact hclose (List.cons.inj he).1
            · simp
    | _ => simp_all [Value.row]

/-- A written object, followed by any text, determines its members and that text. -/
theorem writeObject_cancel {fs fs' : List (String × Value)} {rest rest' : List Char} (h : ∀ f ∈ fs, f.2.row = true)
    (h' : ∀ f ∈ fs', f.2.row = true) (he : writeObject writeRow fs ++ rest = writeObject writeRow fs' ++ rest') :
    fs = fs' ∧ rest = rest' := by
  have hread := readObject_write (fun f hf => readRow_write (h f hf)) rest
  rw [he, readObject_write (fun f hf => readRow_write (h' f hf)) rest'] at hread
  cases Option.some.inj hread
  exact ⟨rfl, rfl⟩

end SovereignCore.Json
