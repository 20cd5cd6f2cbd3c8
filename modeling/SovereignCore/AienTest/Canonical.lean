import SovereignCore.Lib.Json
import SovereignCore.Lib.Result

/-!
# Canonical bytes

`canonical` writes a JSON value with sorted keys, integers only and minimal escapes. The text stands for its UTF-8 bytes.

* `Value`, `writeValue`, `canonical` : the encoding; a float is refused;
* `Value.normal` : the value with the members of each object in the order of their keys;
* `Cancels` : a written value ends where it says, whatever follows; `cancels` : every value does;
* `normal_of_canonical` : values with the same bytes are the same up to the order of members.
-/

namespace SovereignCore.AienTest

open Result

/-- A JSON value, its numbers split as the writer sees them. -/
inductive Value
  | null
  | bool (b : Bool)
  | int (n : Int)
  | float (text : String)
  | str (s : String)
  | arr (items : List Value)
  | obj (members : List (String × Value))

def Value.ofOption : Option String → Value
  | some s => .str s
  | none => .null

def escape (c : Char) : List Char :=
  if c = '"' then ['\\', '"']
  else if c = '\\' then ['\\', '\\']
  else if c = '\n' then ['\\', 'n']
  else if c = '\r' then ['\\', 'r']
  else if c = '\t' then ['\\', 't']
  else if c.toNat < 32 then ['\\', 'u', '0', '0', Nat.digitChar (c.toNat / 16), Nat.digitChar (c.toNat % 16)]
  else [c]

def writeStr (s : String) : List Char := '"' :: s.toList.flatMap escape ++ ['"']

def writeInt : Int → List Char
  | .ofNat n => Nat.toDigits 10 n
  | .negSucc n => '-' :: Nat.toDigits 10 (n + 1)

def sortByKey {β : Type} (members : List (String × β)) : List (String × β) :=
  members.insertionSort fun f g => f.1 ≤ g.1

def enclose (opening closing : Char) (texts : List (List Char)) : List Char :=
  opening :: [','].intercalate texts ++ [closing]

def writeMember (f : String × Except String (List Char)) : Except String (List Char) := do
  let text ← f.2
  .ok (writeStr f.1 ++ ':' :: text)

mutual

def writeValue : Value → Except String (List Char)
  | .null => .ok ['n', 'u', 'l', 'l']
  | .bool true => .ok ['t', 'r', 'u', 'e']
  | .bool false => .ok ['f', 'a', 'l', 's', 'e']
  | .int n => .ok (writeInt n)
  | .float text => .error s!"floating point not allowed: {text}"
  | .str s => .ok (writeStr s)
  | .arr items => do
    let texts ← writeItems items
    .ok (enclose '[' ']' texts)
  | .obj members => do
    let texts ← (sortByKey (writeMembers members)).mapM writeMember
    .ok (enclose '\x7b' '\x7d' texts)

def writeItems : List Value → Except String (List (List Char))
  | [] => .ok []
  | v :: vs => do
    let text ← writeValue v
    let texts ← writeItems vs
    .ok (text :: texts)

/-- The texts of the values, each under its key, before they are sorted. -/
def writeMembers : List (String × Value) → List (String × Except String (List Char))
  | [] => []
  | (k, v) :: fs => (k, writeValue v) :: writeMembers fs

end

def canonical (v : Value) : Except String String := do
  let text ← writeValue v
  .ok (String.ofList text)

mutual

def Value.normal : Value → Value
  | .arr items => .arr (normalItems items)
  | .obj members => .obj (sortByKey (normalMembers members))
  | v => v

def normalItems : List Value → List Value
  | [] => []
  | v :: vs => v.normal :: normalItems vs

def normalMembers : List (String × Value) → List (String × Value)
  | [] => []
  | (k, v) :: fs => (k, v.normal) :: normalMembers fs

end

mutual

def Value.exact : Value → Bool
  | .float _ => false
  | .arr items => exactItems items
  | .obj members => exactMembers members
  | _ => true

def exactItems : List Value → Bool
  | [] => true
  | v :: vs => v.exact && exactItems vs

def exactMembers : List (String × Value) → Bool
  | [] => true
  | (_, v) :: fs => v.exact && exactMembers fs

end

theorem Value.induction {P : Value → Prop} (null : P .null) (bool : ∀ b, P (.bool b)) (int : ∀ n, P (.int n))
    (float : ∀ text, P (.float text)) (str : ∀ s, P (.str s)) (arr : ∀ items, (∀ v ∈ items, P v) → P (.arr items))
    (obj : ∀ members, (∀ f ∈ members, P f.2) → P (.obj members)) (v : Value) : P v := by
  refine @Value.rec P (fun vs => ∀ v ∈ vs, P v) (fun fs => ∀ f ∈ fs, P f.2) (fun f => P f.2) null bool int float str
    arr obj ?_ ?_ ?_ ?_ ?_ v
  · exact fun v hv => absurd hv List.not_mem_nil
  · exact fun v vs hv hvs => List.forall_mem_cons.2 ⟨hv, hvs⟩
  · exact fun f hf => absurd hf List.not_mem_nil
  · exact fun f fs hf hfs => List.forall_mem_cons.2 ⟨hf, hfs⟩
  · exact fun k v hv => hv

section Equations

variable {items : List Value} {members : List (String × Value)}

theorem writeItems_eq : writeItems items = items.mapM writeValue := by
  induction items with
  | nil => rfl
  | cons v vs ih =>
    rw [writeItems, ih, List.mapM_cons]
    rfl

theorem writeMembers_eq : writeMembers members = members.map fun f => (f.1, writeValue f.2) := by
  induction members with
  | nil => rfl
  | cons f fs ih => rw [writeMembers, ih, List.map_cons]

theorem normalItems_eq : normalItems items = items.map Value.normal := by
  induction items with
  | nil => rfl
  | cons v vs ih => rw [normalItems, ih, List.map_cons]

theorem normalMembers_eq : normalMembers members = members.map fun f => (f.1, f.2.normal) := by
  induction members with
  | nil => rfl
  | cons f fs ih => rw [normalMembers, ih, List.map_cons]

theorem sortByKey_map {β γ : Type} (h : β → γ) (fs : List (String × β)) :
    sortByKey (fs.map fun f => (f.1, h f.2)) = (sortByKey fs).map fun f => (f.1, h f.2) := by
  have hmap := List.map_insertionSort (fun f g : String × β => f.1 ≤ g.1) (fun f g : String × γ => f.1 ≤ g.1)
    (fun f => (f.1, h f.2)) fs fun _ _ _ _ => Iff.rfl
  exact hmap.symm

theorem perm_sortByKey {β : Type} (fs : List (String × β)) : (sortByKey fs).Perm fs := List.perm_insertionSort _ _

theorem normal_arr : (Value.arr items).normal = .arr (items.map Value.normal) := by
  rw [Value.normal, normalItems_eq]

theorem normal_obj : (Value.obj members).normal = .obj ((sortByKey members).map fun f => (f.1, f.2.normal)) := by
  rw [Value.normal, normalMembers_eq, sortByKey_map]

theorem exactItems_eq : exactItems items = items.all Value.exact := by
  induction items with
  | nil => rfl
  | cons v vs ih => rw [exactItems, ih, List.all_cons]

theorem exactMembers_eq : exactMembers members = members.all fun f => f.2.exact := by
  induction members with
  | nil => rfl
  | cons f fs ih => rw [exactMembers, ih, List.all_cons]

theorem writeValue_arr : writeValue (.arr items) = (do
    let texts ← items.mapM writeValue
    .ok (enclose '[' ']' texts)) := by
  rw [writeValue, writeItems_eq]

theorem writeValue_obj : writeValue (.obj members) = (do
    let texts ← (sortByKey members).mapM fun f => writeMember (f.1, writeValue f.2)
    .ok (enclose '\x7b' '\x7d' texts)) := by
  rw [writeValue, writeMembers_eq, sortByKey_map, List.mapM_map]
  rfl

end Equations

/-! ## What follows a value, and what it starts with -/

def Ends (rest : List Char) : Prop := ∀ c ∈ rest.head?, c = ',' ∨ c = ']' ∨ c = '\x7d'

def kindOf (c : Char) : Nat :=
  if c = 'n' then 0 else if c = 't' then 1 else if c = 'f' then 2 else if c = '"' then 3 else if c = '[' then 4
  else if c = '\x7b' then 5 else if c.isDigit ∨ c = '-' then 6 else 7

def Value.kind : Value → Nat
  | .null => 0
  | .bool true => 1
  | .bool false => 2
  | .str _ => 3
  | .arr _ => 4
  | .obj _ => 5
  | .int _ => 6
  | .float _ => 7

theorem kindOf_number {c : Char} (h : c.isDigit ∨ c = '-') : kindOf c = 6 := by
  have hne : ∀ d : Char, ¬ (d.isDigit ∨ d = '-') → c ≠ d := by
    rintro d hd rfl
    exact hd h
  unfold kindOf
  rw [if_neg (hne 'n' (by decide)), if_neg (hne 't' (by decide)), if_neg (hne 'f' (by decide)),
    if_neg (hne '"' (by decide)), if_neg (hne '[' (by decide)), if_neg (hne '\x7b' (by decide)), if_pos h]

theorem writeInt_chars (n : Int) : ∀ c ∈ writeInt n, c.isDigit ∨ c = '-' := by
  have hdigits : ∀ k : Nat, ∀ c ∈ Nat.toDigits 10 k, c.isDigit = true := fun k c hc =>
    Nat.isDigit_of_mem_toDigits (by decide) (by decide) hc
  intro c hc
  cases n with
  | ofNat k => exact Or.inl (hdigits k c hc)
  | negSucc k =>
    rcases List.mem_cons.1 hc with rfl | hc
    · exact Or.inr rfl
    · exact Or.inl (hdigits _ c hc)

theorem writeInt_ne_nil (n : Int) : writeInt n ≠ [] := by
  cases n with
  | ofNat k => exact Nat.toDigits_ne_nil
  | negSucc k => exact List.cons_ne_nil _ _

theorem writeInt_injective {n m : Int} (h : writeInt n = writeInt m) : n = m := by
  have hdigits : ∀ {k l : Nat}, Nat.toDigits 10 k = Nat.toDigits 10 l → k = l := by
    intro k l hkl
    rw [← Nat.ofDigitChars_ten_toDigits (n := k), hkl, Nat.ofDigitChars_ten_toDigits]
  have hsign : ∀ k cs, Nat.toDigits 10 k ≠ '-' :: cs := by
    intro k cs hk
    have hminus : ('-' : Char).isDigit = true :=
      Nat.isDigit_of_mem_toDigits (b := 10) (n := k) (by decide) (by decide) (by rw [hk]; exact List.mem_cons_self)
    exact absurd hminus (by decide)
  cases n with
  | ofNat k =>
    cases m with
    | ofNat l => rw [hdigits h]
    | negSucc l => exact absurd h (hsign k _)
  | negSucc k =>
    cases m with
    | ofNat l => exact absurd h.symm (hsign l _)
    | negSucc l => rw [Nat.succ.inj (hdigits (List.cons.inj h).2)]

theorem head_writeValue {v : Value} {text : List Char} (h : writeValue v = .ok text) :
    ∃ c cs, text = c :: cs ∧ kindOf c = v.kind := by
  cases v with
  | null =>
    obtain rfl := Except.ok.inj h
    exact ⟨_, _, rfl, rfl⟩
  | bool b =>
    cases b <;>
    · obtain rfl := Except.ok.inj h
      exact ⟨_, _, rfl, rfl⟩
  | int n =>
    obtain rfl := Except.ok.inj h
    obtain ⟨c, cs, hcs⟩ := List.exists_cons_of_ne_nil (writeInt_ne_nil n)
    exact ⟨c, cs, hcs, kindOf_number (writeInt_chars n c (hcs ▸ List.mem_cons_self))⟩
  | float text => cases h
  | str s =>
    obtain rfl := Except.ok.inj h
    exact ⟨_, _, rfl, rfl⟩
  | arr items =>
    rw [writeValue_arr, bind_ok] at h
    obtain ⟨texts, _, h⟩ := h
    obtain rfl := Except.ok.inj h
    exact ⟨_, _, rfl, rfl⟩
  | obj members =>
    rw [writeValue_obj, bind_ok] at h
    obtain ⟨texts, _, h⟩ := h
    obtain rfl := Except.ok.inj h
    exact ⟨_, _, rfl, rfl⟩

/-! ## Strings and lists -/

theorem readStr_escape_char (c : Char) (cs : List Char) :
    Json.readStr (escape c ++ cs) = (Json.readStr cs).map fun r => (c :: r.1, r.2) := by
  unfold escape
  split_ifs with h1 h2 h3 h4 h5 h6
  · subst h1; simp [Json.readStr]
  · subst h2; simp [Json.readStr]
  · subst h3; simp [Json.readStr]
  · subst h4; simp [Json.readStr]
  · subst h5; simp [Json.readStr]
  · simp [Json.readStr, Json.ofNat_hex h6]
  · rw [List.singleton_append, Json.readStr]
    all_goals simp_all

theorem readStr_writeStr (s : List Char) (rest : List Char) :
    Json.readStr (s.flatMap escape ++ '"' :: rest) = some (s, rest) := by
  induction s with
  | nil => rfl
  | cons c s ih => rw [List.flatMap_cons, List.append_assoc, readStr_escape_char, ih, Option.map_some]

theorem writeStr_cancel {s t : String} {r r' : List Char} (h : writeStr s ++ r = writeStr t ++ r') : s = t ∧ r = r' := by
  have hopen : ∀ (u : String) (x : List Char), writeStr u ++ x = '"' :: (u.toList.flatMap escape ++ '"' :: x) := by
    intro u x
    simp [writeStr]
  rw [hopen, hopen] at h
  have hread := congrArg Json.readStr (List.cons.inj h).2
  rw [readStr_writeStr, readStr_writeStr, Option.some.injEq, Prod.mk.injEq] at hread
  exact ⟨String.ext hread.1, hread.2⟩

theorem mapM_ok {α β : Type} {g : α → Except String β} {l : List α} {bs : List β} :
    l.mapM g = .ok bs ↔ List.Forall₂ (fun a b => g a = .ok b) l bs := by
  induction l generalizing bs with
  | nil =>
    rw [List.mapM_nil, pure_ok, List.forall₂_nil_left_iff, eq_comm]
  | cons a l ih =>
    rw [List.mapM_cons, bind_ok, List.forall₂_cons_left_iff]
    refine exists_congr fun b => ?_
    rw [bind_ok]
    constructor
    · rintro ⟨ha, bs', hbs, h⟩
      obtain rfl := pure_ok.1 h
      exact ⟨bs', ha, ih.1 hbs, rfl⟩
    · rintro ⟨bs', ha, hbs, rfl⟩
      exact ⟨ha, bs', ih.2 hbs, rfl⟩

section Lists

variable {α γ : Type} {write : α → Except String (List Char)} {norm : α → γ}

/-- A written item ends where it says: what follows it cannot be taken for a part of it. -/
def Cancels (write : α → Except String (List Char)) (norm : α → γ) (a : α) : Prop :=
  ∀ b t t' r r', write a = .ok t → write b = .ok t' → Ends r → Ends r' → t ++ r = t' ++ r' → norm a = norm b ∧ r = r'

variable {closing : Char} {as bs : List α} {ts ts' : List (List Char)} {r r' : List Char}

theorem ends_tail (hclosing : closing = ']' ∨ closing = '\x7d') (ts : List (List Char)) (r : List Char) :
    Ends (ts.flatMap (',' :: ·) ++ closing :: r) := by
  cases ts with
  | nil =>
    intro c hc
    obtain rfl : closing = c := Option.some.inj hc
    exact Or.inr hclosing
  | cons t ts =>
    intro c hc
    obtain rfl : ',' = c := Option.some.inj hc
    exact Or.inl rfl

theorem tails_cancel (hclosing : closing = ']' ∨ closing = '\x7d') (has : List.Forall₂ (fun a t => write a = .ok t) as ts)
    (hbs : List.Forall₂ (fun a t => write a = .ok t) bs ts') (hcancel : ∀ a ∈ as, Cancels write norm a)
    (h : ts.flatMap (',' :: ·) ++ closing :: r = ts'.flatMap (',' :: ·) ++ closing :: r') :
    as.map norm = bs.map norm ∧ r = r' := by
  have hcomma : closing ≠ ',' := by
    rintro rfl
    exact absurd hclosing (by decide)
  induction has generalizing bs ts' with
  | nil =>
    cases hbs with
    | nil => exact ⟨rfl, (List.cons.inj h).2⟩
    | cons => exact absurd (List.cons.inj h).1 hcomma
  | @cons a t as ts ha _ ih =>
    cases hbs with
    | nil => exact absurd (List.cons.inj h).1.symm hcomma
    | @cons b t' bs ts' hb hbs =>
      rw [List.flatMap_cons, List.flatMap_cons, List.cons_append, List.cons_append, List.cons_append, List.cons_append,
        List.append_assoc, List.append_assoc] at h
      obtain ⟨hnorm, htail⟩ := hcancel a List.mem_cons_self b t t' _ _ ha hb (ends_tail hclosing ts r)
        (ends_tail hclosing ts' r') (List.cons.inj h).2
      obtain ⟨hmap, hr⟩ := ih hbs (fun a ha => hcancel a (List.mem_cons_of_mem _ ha)) htail
      exact ⟨by rw [List.map_cons, List.map_cons, hnorm, hmap], hr⟩

theorem enclose_cons (opening closing : Char) (t : List Char) (ts : List (List Char)) (r : List Char) :
    enclose opening closing (t :: ts) ++ r = opening :: (t ++ (ts.flatMap (',' :: ·) ++ closing :: r)) := by
  have hjoin : ∀ (t : List Char) ts, [','].intercalate (t :: ts) = t ++ ts.flatMap (',' :: ·) := by
    intro t ts
    induction ts generalizing t with
    | nil => simp
    | cons u ts ih => rw [List.intercalate_cons_cons, ih, List.flatMap_cons, List.append_assoc, List.singleton_append, List.cons_append]
  unfold enclose
  rw [hjoin]
  simp

theorem enclose_nil (opening closing : Char) (r : List Char) : enclose opening closing [] ++ r = opening :: closing :: r := by
  unfold enclose
  simp

def Starts (write : α → Except String (List Char)) : Prop := ∀ a t, write a = .ok t → ∃ c cs, t = c :: cs ∧ c ≠ ']' ∧ c ≠ '\x7d'

theorem enclose_cancel {opening : Char} (hclosing : closing = ']' ∨ closing = '\x7d') (hstarts : Starts write)
    (has : List.Forall₂ (fun a t => write a = .ok t) as ts) (hbs : List.Forall₂ (fun a t => write a = .ok t) bs ts')
    (hcancel : ∀ a ∈ as, Cancels write norm a)
    (h : enclose opening closing ts ++ r = enclose opening closing ts' ++ r') : as.map norm = bs.map norm ∧ r = r' := by
  have hstart : ∀ a t x y, write a = .ok t → closing :: x ≠ t ++ y := by
    intro a t x y ha heq
    obtain ⟨c, cs, rfl, hbracket, hbrace⟩ := hstarts a t ha
    have hc : closing = c := (List.cons.inj heq).1
    exact hclosing.elim (fun h => hbracket (hc ▸ h)) fun h => hbrace (hc ▸ h)
  cases has with
  | nil =>
    cases hbs with
    | nil =>
      rw [enclose_nil, enclose_nil] at h
      exact ⟨rfl, (List.cons.inj (List.cons.inj h).2).2⟩
    | cons hb _ =>
      rw [enclose_nil, enclose_cons] at h
      exact absurd (List.cons.inj h).2 (hstart _ _ _ _ hb)
  | @cons a t as ts ha has =>
    cases hbs with
    | nil =>
      rw [enclose_nil, enclose_cons] at h
      exact absurd (List.cons.inj h).2.symm (hstart _ _ _ _ ha)
    | @cons b t' bs ts' hb hbs =>
      rw [enclose_cons, enclose_cons] at h
      obtain ⟨hnorm, htail⟩ := hcancel a List.mem_cons_self b t t' _ _ ha hb (ends_tail hclosing ts r)
        (ends_tail hclosing ts' r') (List.cons.inj h).2
      obtain ⟨hmap, hr⟩ := tails_cancel hclosing has hbs (fun a ha => hcancel a (List.mem_cons_of_mem _ ha)) htail
      exact ⟨by rw [List.map_cons, List.map_cons, hnorm, hmap], hr⟩

end Lists

/-! ## Values -/

theorem starts_value : Starts writeValue := by
  intro v t h
  obtain ⟨c, cs, rfl, hkind⟩ := head_writeValue h
  have hfloat : v.kind ≠ 7 := by
    cases v with
    | float text => cases h
    | bool b => cases b <;> decide
    | _ => simp [Value.kind]
  refine ⟨c, cs, rfl, ?_, ?_⟩
  · rintro rfl
    exact hfloat (hkind ▸ rfl)
  · rintro rfl
    exact hfloat (hkind ▸ rfl)

theorem starts_member : Starts fun f : String × Value => writeMember (f.1, writeValue f.2) := by
  intro f t h
  unfold writeMember at h
  obtain ⟨text, _, h⟩ := bind_ok.1 h
  obtain rfl := Except.ok.inj h
  exact ⟨'"', _, rfl, by decide, by decide⟩

theorem cancels_member {f : String × Value} (h : Cancels writeValue Value.normal f.2) :
    Cancels (fun f : String × Value => writeMember (f.1, writeValue f.2)) (fun f => (f.1, f.2.normal)) f := by
  intro g t t' r r' hf hg hr hr' heq
  obtain ⟨text, htext, hf⟩ := bind_ok.1 hf
  obtain ⟨text', htext', hg⟩ := bind_ok.1 hg
  obtain rfl := Except.ok.inj hf
  obtain rfl := Except.ok.inj hg
  rw [List.append_assoc, List.append_assoc, List.cons_append, List.cons_append] at heq
  obtain ⟨hkey, hrest⟩ := writeStr_cancel heq
  obtain ⟨hnorm, hr⟩ := h g.2 text text' r r' htext htext' hr hr' (List.cons.inj hrest).2
  have hkey : f.1 = g.1 := hkey
  exact ⟨Prod.ext hkey hnorm, hr⟩

theorem writeInt_cancel {n m : Int} {r r' : List Char} (hr : Ends r) (hr' : Ends r')
    (h : writeInt n ++ r = writeInt m ++ r') : n = m ∧ r = r' := by
  have htake : ∀ (n : Int) (r : List Char), Ends r →
      (writeInt n ++ r).takeWhile (fun c => c.isDigit ∨ c = '-') = writeInt n := by
    intro n r hr
    rw [List.takeWhile_append_of_pos fun c hc => decide_eq_true (writeInt_chars n c hc)]
    cases r with
    | nil => exact List.append_nil _
    | cons c cs =>
      rw [List.takeWhile_cons_of_neg, List.append_nil]
      rcases hr c rfl with rfl | rfl | rfl <;> decide
  have htext : writeInt n = writeInt m := by rw [← htake n r hr, h, htake m r' hr']
  rw [htext] at h
  exact ⟨writeInt_injective htext, List.append_cancel_left h⟩

theorem same_kind {v w : Value} {t t' r r' : List Char} (hv : writeValue v = .ok t) (hw : writeValue w = .ok t')
    (h : t ++ r = t' ++ r') : v.kind = w.kind := by
  obtain ⟨c, cs, rfl, hc⟩ := head_writeValue hv
  obtain ⟨c', cs', rfl, hc'⟩ := head_writeValue hw
  rw [List.cons_append, List.cons_append] at h
  rw [← hc, ← hc', (List.cons.inj h).1]

/-- The text of a value and what follows it determine the value, up to the order of members, and what follows. -/
theorem cancels (v : Value) : Cancels writeValue Value.normal v := by
  induction v using Value.induction with
  | null =>
    intro w t t' r r' hv hw hr hr' heq
    have hkind := same_kind hv hw heq
    cases w with
    | null =>
      rw [Except.ok.inj (hv.symm.trans hw)] at heq
      exact ⟨rfl, List.append_cancel_left heq⟩
    | bool b => cases b <;> simp [Value.kind] at hkind
    | _ => simp [Value.kind] at hkind
  | bool b =>
    intro w t t' r r' hv hw hr hr' heq
    have hkind := same_kind hv hw heq
    cases w with
    | bool b' =>
      obtain rfl : b = b' := by
        cases b <;> cases b' <;> simp [Value.kind] at hkind ⊢
      rw [Except.ok.inj (hv.symm.trans hw)] at heq
      exact ⟨rfl, List.append_cancel_left heq⟩
    | _ => cases b <;> simp [Value.kind] at hkind
  | int n =>
    intro w t t' r r' hv hw hr hr' heq
    have hkind := same_kind hv hw heq
    cases w with
    | int m =>
      obtain rfl := Except.ok.inj hv
      obtain rfl := Except.ok.inj hw
      obtain ⟨rfl, hrest⟩ := writeInt_cancel hr hr' heq
      exact ⟨rfl, hrest⟩
    | bool b => cases b <;> simp [Value.kind] at hkind
    | _ => simp [Value.kind] at hkind
  | float text =>
    intro w t t' r r' hv
    cases hv
  | str s =>
    intro w t t' r r' hv hw hr hr' heq
    have hkind := same_kind hv hw heq
    cases w with
    | str s' =>
      obtain rfl := Except.ok.inj hv
      obtain rfl := Except.ok.inj hw
      obtain ⟨rfl, hrest⟩ := writeStr_cancel heq
      exact ⟨rfl, hrest⟩
    | bool b => cases b <;> simp [Value.kind] at hkind
    | _ => simp [Value.kind] at hkind
  | arr items ih =>
    intro w t t' r r' hv hw hr hr' heq
    have hkind := same_kind hv hw heq
    cases w with
    | arr items' =>
      rw [writeValue_arr, bind_ok] at hv hw
      obtain ⟨ts, hts, hv⟩ := hv
      obtain ⟨ts', hts', hw⟩ := hw
      obtain rfl := Except.ok.inj hv
      obtain rfl := Except.ok.inj hw
      obtain ⟨hmap, hrest⟩ := enclose_cancel (Or.inl rfl) starts_value (mapM_ok.1 hts) (mapM_ok.1 hts') ih heq
      exact ⟨by rw [normal_arr, normal_arr, hmap], hrest⟩
    | bool b => cases b <;> simp [Value.kind] at hkind
    | _ => simp [Value.kind] at hkind
  | obj members ih =>
    intro w t t' r r' hv hw hr hr' heq
    have hkind := same_kind hv hw heq
    cases w with
    | obj members' =>
      rw [writeValue_obj, bind_ok] at hv hw
      obtain ⟨ts, hts, hv⟩ := hv
      obtain ⟨ts', hts', hw⟩ := hw
      obtain rfl := Except.ok.inj hv
      obtain rfl := Except.ok.inj hw
      have hmembers : ∀ f ∈ sortByKey members, Cancels (fun f : String × Value => writeMember (f.1, writeValue f.2))
          (fun f => (f.1, f.2.normal)) f := fun f hf => cancels_member (ih f ((perm_sortByKey members).mem_iff.1 hf))
      obtain ⟨hmap, hrest⟩ := enclose_cancel (Or.inr rfl) starts_member (mapM_ok.1 hts) (mapM_ok.1 hts') hmembers heq
      exact ⟨by rw [normal_obj, normal_obj, hmap], hrest⟩
    | bool b => cases b <;> simp [Value.kind] at hkind
    | _ => simp [Value.kind] at hkind

theorem normal_of_canonical {v w : Value} {text : String} (hv : canonical v = .ok text) (hw : canonical w = .ok text) :
    v.normal = w.normal := by
  obtain ⟨t, ht, hv⟩ := bind_ok.1 hv
  obtain ⟨t', ht', hw⟩ := bind_ok.1 hw
  have htext : t = t' := String.ofList_injective (Except.ok.inj (hv.trans hw.symm))
  have hnil : Ends [] := fun c hc => absurd hc (by simp)
  exact (cancels v w t t' [] [] ht ht' hnil hnil (by rw [htext])).1

theorem mapM_total {α β : Type} {g : α → Except String β} {l : List α} (h : ∀ a ∈ l, ∃ b, g a = .ok b) :
    ∃ bs, l.mapM g = .ok bs := by
  induction l with
  | nil => exact ⟨[], rfl⟩
  | cons a l ih =>
    obtain ⟨b, hb⟩ := h a List.mem_cons_self
    obtain ⟨bs, hbs⟩ := ih fun a ha => h a (List.mem_cons_of_mem _ ha)
    exact ⟨b :: bs, mapM_ok.2 (.cons hb (mapM_ok.1 hbs))⟩

theorem canonical_total {v : Value} (h : v.exact = true) : ∃ text, canonical v = .ok text := by
  have hwrite : ∃ t, writeValue v = .ok t := by
    induction v using Value.induction with
    | null => exact ⟨_, rfl⟩
    | bool b => cases b <;> exact ⟨_, rfl⟩
    | int n => exact ⟨_, rfl⟩
    | float text => cases h
    | str s => exact ⟨_, rfl⟩
    | arr items ih =>
      rw [Value.exact, exactItems_eq, List.all_eq_true] at h
      obtain ⟨ts, hts⟩ := mapM_total fun v hv => ih v hv (h v hv)
      exact ⟨_, writeValue_arr.trans (bind_ok.2 ⟨ts, hts, rfl⟩)⟩
    | obj members ih =>
      rw [Value.exact, exactMembers_eq, List.all_eq_true] at h
      have hmembers : ∀ f ∈ sortByKey members, ∃ t, writeMember (f.1, writeValue f.2) = .ok t := by
        intro f hf
        have hf := (perm_sortByKey members).mem_iff.1 hf
        obtain ⟨t, ht⟩ := ih f hf (h f hf)
        exact ⟨_, bind_ok.2 ⟨t, ht, rfl⟩⟩
      obtain ⟨ts, hts⟩ := mapM_total hmembers
      exact ⟨_, writeValue_obj.trans (bind_ok.2 ⟨ts, hts, rfl⟩)⟩
  obtain ⟨t, ht⟩ := hwrite
  exact ⟨String.ofList t, bind_ok.2 ⟨t, ht, rfl⟩⟩

/-- Objects with one normal form have, under each key, values with one normal form. -/
theorem normal_value {fs gs : List (String × Value)} {k : String} {v w : Value}
    (h : (Value.obj fs).normal = (Value.obj gs).normal) (hd : (gs.map Prod.fst).Nodup) (hv : (k, v) ∈ fs)
    (hw : (k, w) ∈ gs) : v.normal = w.normal := by
  rw [normal_obj, normal_obj, Value.obj.injEq] at h
  have hmem : (k, v.normal) ∈ (sortByKey fs).map fun f => (f.1, f.2.normal) :=
    List.mem_map.2 ⟨(k, v), (perm_sortByKey fs).mem_iff.2 hv, rfl⟩
  rw [h] at hmem
  obtain ⟨g, hg, heq⟩ := List.mem_map.1 hmem
  obtain ⟨hkey, hval⟩ := Prod.mk.inj heq
  have hgw : g = (k, w) := List.inj_on_of_nodup_map hd ((perm_sortByKey gs).mem_iff.1 hg) hw hkey
  rw [← hval, hgw]

end SovereignCore.AienTest
