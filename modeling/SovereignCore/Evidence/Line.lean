import SovereignCore.Evidence.Ledger
import SovereignCore.Lib.Json

/-!
# The line of a ledger event

The text that the JSON library writes for an event, member after member in the order of the fields, and a reader of such
texts.

* `writeLine`, `readLine`, `serde` : the codec;
* `serde_lawful` : it is lawful.
-/

namespace SovereignCore.Evidence

open Text Wire Json

/-! ## Writing -/

def writeNumber (n : Nat) : List Char := Nat.toDigits 10 n

/-- Numbers with commas between them, and the bracket that ends them. -/
def writeBytes : List UInt8 → List Char
  | [] => [']']
  | [b] => writeNumber b.toNat ++ [']']
  | b :: bs => writeNumber b.toNat ++ ',' :: writeBytes bs

def writeHashes (e : LedgerEvent) : List Char :=
  ",\"payload_hash\":[".toList ++ (writeBytes e.payloadHash.toList ++ (",\"parent_hash\":[".toList ++
    (writeBytes e.parentHash.toList ++ (",\"hash\":[".toList ++ (writeBytes e.hash.toList ++ ['\x7d'])))))

def writeLine (e : LedgerEvent) : List Char :=
  "\x7b\"index\":".toList ++ ((writeNumber e.index.toNat ++ [',']) ++ ("\"timestamp\":".toList ++
    ((writeNumber e.timestamp.toNat ++ [',']) ++ ("\"agent\":".toList ++ (writeStr e.agent ++ (",\"action\":".toList ++
      (writeStr e.action ++ (",\"target\":".toList ++ (writeStr e.target ++ (",\"intent\":".toList ++
        (writeStr e.intent ++ writeHashes e)))))))))))

/-! ## Reading -/

def expect (cs : List Char) : Reader Char String Unit := do
  let x ← take "EOF while parsing a value" cs.length
  refuseIf (x ≠ cs) "expected value"

def readNumber (stop : Char) : Reader Char String Nat := fun s =>
  match s.span Char.isDigit with
  | (ds, c :: cs) => if ds ≠ [] ∧ c = stop then .ok (Nat.ofDigitChars 10 ds 0, cs) else .error "invalid number"
  | _ => .error "invalid number"

def readText : Reader Char String String := fun s =>
  match s with
  | '"' :: cs =>
    match readStr cs with
    | some (t, rest) => .ok (String.ofList t, rest)
    | none => .error "EOF while parsing a string"
  | _ => .error "expected value"

def readBytes : Nat → Reader Char String (List UInt8)
  | 0 => do
    expect [']']
    pure []
  | 1 => do
    let b ← readNumber ']'
    pure [UInt8.ofNat b]
  | n + 2 => do
    let b ← readNumber ','
    let bs ← readBytes (n + 1)
    pure (UInt8.ofNat b :: bs)

def digestOf (bs : List UInt8) : Digest := Vector.ofFn fun i => bs.getD i 0

def readLine : Reader Char String LedgerEvent := do
  expect "\x7b\"index\":".toList
  let index ← readNumber ','
  expect "\"timestamp\":".toList
  let timestamp ← readNumber ','
  expect "\"agent\":".toList
  let agent ← readText
  expect ",\"action\":".toList
  let action ← readText
  expect ",\"target\":".toList
  let target ← readText
  expect ",\"intent\":".toList
  let intent ← readText
  expect ",\"payload_hash\":[".toList
  let payloadHash ← readBytes 32
  expect ",\"parent_hash\":[".toList
  let parentHash ← readBytes 32
  expect ",\"hash\":[".toList
  let hash ← readBytes 32
  expect ['\x7d']
  pure ⟨UInt64.ofNat index, UInt64.ofNat timestamp, agent, action, target, intent, digestOf payloadHash,
    digestOf parentHash, digestOf hash⟩

def serde : LineCodec where
  render e := String.ofList (writeLine e)
  parse s :=
    match readLine s.toList with
    | .ok (e, []) => .ok e
    | .ok _ => .error "trailing characters"
    | .error e => .error e

/-! ## Reading back -/

theorem reads_expect (cs : List Char) : ReadsTo (expect cs) () cs := by
  unfold expect
  rw [← List.append_nil cs]
  exact (ReadsTo.take (by rw [List.append_nil])).bind (ReadsTo.refuseIf (by simp))

theorem reads_number {n : Nat} {stop : Char} (h : stop.isDigit = false) :
    ReadsTo (readNumber stop) n (writeNumber n ++ [stop]) := by
  intro rest
  have hdig : ∀ c ∈ writeNumber n, c.isDigit = true :=
    fun c hc => Nat.isDigit_of_mem_toDigits (by decide) (by decide) hc
  have hspan : (writeNumber n ++ [stop] ++ rest).span Char.isDigit = (writeNumber n, stop :: rest) := by
    rw [List.append_assoc, List.span_eq_takeWhile_dropWhile, List.takeWhile_append_of_pos hdig,
      List.dropWhile_append_of_pos hdig]
    simp [h]
  have hne : writeNumber n ≠ [] := Nat.toDigits_ne_nil
  unfold readNumber
  rw [hspan]
  dsimp only
  rw [if_pos ⟨hne, rfl⟩]
  unfold writeNumber
  rw [Nat.ofDigitChars_ten_toDigits]

theorem reads_text (s : String) : ReadsTo readText s (writeStr s) := by
  intro rest
  rw [writeStr_append]
  simp [readText, readStr_escape]

theorem reads_bytes (bs : List UInt8) : ReadsTo (readBytes bs.length) bs (writeBytes bs) := by
  induction bs with
  | nil =>
    rw [← List.append_nil (writeBytes [])]
    exact (reads_expect _).bind (ReadsTo.pure [])
  | cons b bs ih =>
    have hb : UInt8.ofNat b.toNat = b := by simp
    cases bs with
    | nil =>
      rw [← List.append_nil (writeBytes [b])]
      apply (reads_number rfl).bind
      rw [hb]
      exact ReadsTo.pure _
    | cons b' bs =>
      have hw : writeBytes (b :: b' :: bs) = (writeNumber b.toNat ++ [',']) ++ writeBytes (b' :: bs) := by
        simp [writeBytes]
      rw [hw, ← List.append_nil (writeBytes (b' :: bs))]
      apply (reads_number rfl).bind
      apply ih.bind
      rw [hb]
      exact ReadsTo.pure _

theorem digestOf_toList (d : Digest) : digestOf d.toList = d := by
  apply Vector.ext
  intro i hi
  simp [digestOf]

theorem reads_digest (d : Digest) : ReadsTo (readBytes 32) d.toList (writeBytes d.toList) := by
  have hlen : d.toList.length = 32 := by simp
  have hreads := reads_bytes d.toList
  rwa [hlen] at hreads

theorem reads_line (e : LedgerEvent) : ReadsTo readLine e (writeLine e) := by
  unfold readLine writeLine writeHashes
  apply (reads_expect _).bind
  apply (reads_number rfl).bind
  apply (reads_expect _).bind
  apply (reads_number rfl).bind
  apply (reads_expect _).bind
  apply (reads_text _).bind
  apply (reads_expect _).bind
  apply (reads_text _).bind
  apply (reads_expect _).bind
  apply (reads_text _).bind
  apply (reads_expect _).bind
  apply (reads_text _).bind
  apply (reads_expect _).bind
  apply (reads_digest _).bind
  apply (reads_expect _).bind
  apply (reads_digest _).bind
  apply (reads_expect _).bind
  apply (reads_digest _).bind
  rw [← List.append_nil ['\x7d']]
  apply (reads_expect _).bind
  rw [digestOf_toList, digestOf_toList, digestOf_toList, UInt64.ofNat_toNat, UInt64.ofNat_toNat]
  exact ReadsTo.pure e

/-! ## No control characters -/

def Printable (cs : List Char) : Prop := ∀ ch ∈ cs, 32 ≤ ch.toNat

theorem Printable.append {a b : List Char} (ha : Printable a) (hb : Printable b) : Printable (a ++ b) := by
  intro ch hch
  obtain hch | hch := List.mem_append.1 hch
  · exact ha ch hch
  · exact hb ch hch

theorem printable_number (n : Nat) : Printable (writeNumber n) := by
  intro ch hch
  have hdig : ch.isDigit = true := Nat.isDigit_of_mem_toDigits (by decide) (by decide) hch
  simp only [Char.isDigit, ge_iff_le, Bool.and_eq_true, decide_eq_true_eq] at hdig
  have hle : 48 ≤ ch.toNat := hdig.1
  omega

theorem printable_bytes (bs : List UInt8) : Printable (writeBytes bs) := by
  induction bs with
  | nil => exact fun ch hch => by simp [List.mem_singleton.1 hch]
  | cons b bs ih =>
    cases bs with
    | nil => exact (printable_number _).append fun ch hch => by simp [List.mem_singleton.1 hch]
    | cons b' bs =>
      apply (printable_number _).append
      intro ch hch
      obtain rfl | hch := List.mem_cons.1 hch
      · decide
      · exact ih ch hch

theorem printable_escape (c : Char) : Printable (escapeChar c) := by
  have hdigit : ∀ n < 16, 32 ≤ (Nat.digitChar n).toNat := by decide
  unfold escapeChar
  split_ifs with h1 h2 h3 h4 h5 h6 h7 h8
  all_goals
    intro ch hch
    simp only [List.mem_cons, List.not_mem_nil, or_false] at hch
  · obtain rfl | rfl := hch <;> decide
  · obtain rfl | rfl := hch <;> decide
  · obtain rfl | rfl := hch <;> decide
  · obtain rfl | rfl := hch <;> decide
  · obtain rfl | rfl := hch <;> decide
  · obtain rfl | rfl := hch <;> decide
  · obtain rfl | rfl := hch <;> decide
  · obtain rfl | rfl | rfl | rfl | rfl | rfl := hch
    · decide
    · decide
    · decide
    · decide
    · exact hdigit _ (by omega)
    · exact hdigit _ (by omega)
  · rw [hch]
    omega

theorem printable_str (s : String) : Printable (writeStr s) := by
  have hquote : Printable ['"'] := by
    intro ch hch
    rw [List.mem_singleton.1 hch]
    decide
  unfold writeStr
  apply Printable.append _ hquote
  intro ch hch
  obtain rfl | hch := List.mem_cons.1 hch
  · decide
  · obtain ⟨c, -, hc⟩ := List.mem_flatMap.1 hch
    exact printable_escape c ch hc

theorem printable_line (e : LedgerEvent) : Printable (writeLine e) := by
  have hlit : ∀ cs ∈ ["\x7b\"index\":".toList, "\"timestamp\":".toList, "\"agent\":".toList, ",\"action\":".toList,
      ",\"target\":".toList, ",\"intent\":".toList, ",\"payload_hash\":[".toList, ",\"parent_hash\":[".toList,
      ",\"hash\":[".toList, [','], ['\x7d']], Printable cs := by
    simp [Printable]
  unfold writeLine writeHashes
  apply (hlit _ (by simp)).append
  apply ((printable_number _).append (hlit _ (by simp))).append
  apply (hlit _ (by simp)).append
  apply ((printable_number _).append (hlit _ (by simp))).append
  apply (hlit _ (by simp)).append
  apply (printable_str _).append
  apply (hlit _ (by simp)).append
  apply (printable_str _).append
  apply (hlit _ (by simp)).append
  apply (printable_str _).append
  apply (hlit _ (by simp)).append
  apply (printable_str _).append
  apply (hlit _ (by simp)).append
  apply (printable_bytes _).append
  apply (hlit _ (by simp)).append
  apply (printable_bytes _).append
  apply (hlit _ (by simp)).append
  apply (printable_bytes _).append
  exact hlit _ (by simp)

theorem serde_lawful : serde.Lawful where
  reads e := by
    simp only [serde, String.toList_ofList, (reads_line e).all]
  opens e := by
    refine ⟨(writeLine e).tail, ?_⟩
    simp only [serde, String.toList_ofList]
    rfl
  plain e := by
    simp only [serde, String.toList_ofList]
    exact printable_line e

end SovereignCore.Evidence
