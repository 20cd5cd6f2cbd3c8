import SovereignCore.Evidence.Line
import Mathlib.Data.List.Infix

/-!
# Appending to the ledger

`appendAction` finds the last event in the last 64 KiB of the file only.

* `Chained`, `fileOf` : events that follow each other, and the file that holds them;
* `Readable` : the last event can be found;
* `ledger_appends_verify` : as long as that is so, every append succeeds and `verify` finds every event;
* `ledger_append_refused` : after a long line every append fails.
-/

namespace SovereignCore.Evidence

open Text

/-! ## Files of events -/

variable {blake : List UInt8 → Digest} {c : LineCodec} {es : List LedgerEvent} {e : LedgerEvent}

def lineOf (c : LineCodec) (e : LedgerEvent) : List Char := (c.render e).toList ++ ['\n']

def textOf (c : LineCodec) (es : List LedgerEvent) : String := String.ofList (es.flatMap (lineOf c))

def fileOf (c : LineCodec) (es : List LedgerEvent) : List UInt8 := utf8 (textOf c es)

theorem utf8_line (c : LineCodec) (e : LedgerEvent) :
    utf8 (String.ofList (lineOf c e)) = utf8 (c.render e) ++ [lineFeed] := by
  unfold lineOf
  rw [utf8_ofList, List.flatMap_append]
  rfl

theorem fileOf_append (c : LineCodec) (es : List LedgerEvent) (e : LedgerEvent) :
    fileOf c (es ++ [e]) = fileOf c es ++ (utf8 (c.render e) ++ [lineFeed]) := by
  rw [← utf8_line]
  unfold fileOf textOf
  rw [utf8_ofList, utf8_ofList, utf8_ofList, List.flatMap_append, List.flatMap_append]
  simp

namespace LineCodec.Lawful

theorem no_lineFeed (hc : c.Lawful) (e : LedgerEvent) : '\n' ∉ (c.render e).toList := by
  intro h
  have := hc.plain e _ h
  simp at this

theorem stripReturn_render (hc : c.Lawful) (e : LedgerEvent) :
    stripReturn (c.render e).toList = (c.render e).toList := by
  unfold stripReturn
  rw [if_neg]
  intro h
  have := hc.plain e _ (List.mem_of_getLast? h)
  simp at this

theorem linesFrom_line (hc : c.Lawful) (e : LedgerEvent) : linesFrom [] (lineOf c e) = [(c.render e).toList] := by
  unfold lineOf
  rw [Text.linesFrom_line [] (hc.no_lineFeed e), List.nil_append, hc.stripReturn_render]

theorem not_blank (hc : c.Lawful) (e : LedgerEvent) : blank (c.render e) = false := by
  obtain ⟨cs, hcs⟩ := hc.opens e
  unfold blank
  rw [hcs, List.all_cons]
  rfl

theorem linesFrom_events (hc : c.Lawful) (es : List LedgerEvent) :
    linesFrom [] (es.flatMap (lineOf c)) = es.map fun e => (c.render e).toList := by
  induction es with
  | nil => rfl
  | cons e es ih =>
    have hcut : (e :: es).flatMap (lineOf c) = (c.render e).toList ++ '\n' :: es.flatMap (lineOf c) := by
      rw [List.flatMap_cons, lineOf, List.append_assoc]
      rfl
    rw [hcut, linesFrom_append, ih]
    exact congrArg (· ++ _) (hc.linesFrom_line e)

theorem eventLines_textOf (hc : c.Lawful) (es : List LedgerEvent) : eventLines (textOf c es) = es.map c.render := by
  have hlines : lines (textOf c es) = es.map c.render := by
    unfold lines textOf
    rw [String.toList_ofList, hc.linesFrom_events, List.map_map]
    apply List.map_congr_left
    intro e _
    exact String.ofList_toList
  unfold eventLines
  rw [hlines, List.filter_eq_self]
  intro l hl
  obtain ⟨e, -, rfl⟩ := List.mem_map.1 hl
  simp [hc.not_blank e]

end LineCodec.Lawful

/-! ## The chain -/

/-- Events that follow each other, from index `i`, parent `parent` and timestamp `ts` on. -/
def Chained (blake : List UInt8 → Digest) : UInt64 → Digest → UInt64 → List LedgerEvent → Prop
  | _, _, _, [] => True
  | i, parent, ts, e :: es => e.index = i ∧ e.parentHash = parent ∧ ts ≤ e.timestamp ∧ e.recompute blake = e.hash ∧
      Chained blake (i + 1) e.hash e.timestamp es

def headOf (parent : Digest) (es : List LedgerEvent) : Digest := (es.getLast?.map LedgerEvent.hash).getD parent

theorem verifyLines_chained (hc : c.Lawful) {i ts : UInt64} {parent : Digest} (h : Chained blake i parent ts es)
    (n : Nat) : verifyLines blake c n i parent ts (es.map c.render) =
      .ok (i + UInt64.ofNat es.length, headOf parent es) := by
  induction es generalizing i parent ts n with
  | nil => simp [verifyLines, headOf]
  | cons e es ih =>
    obtain ⟨hi, hp, ht, hh, hes⟩ := h
    rw [List.map_cons, verifyLines, hc.reads e]
    show (if _ then _ else _) = _
    rw [if_neg (not_not.2 hi), if_neg (not_not.2 hp), if_neg (UInt64.not_lt.2 ht), if_neg (not_not.2 hh), ih hes]
    have hcount : i + 1 + UInt64.ofNat es.length = i + UInt64.ofNat (es.length + 1) := by
      rw [UInt64.ofNat_add, UInt64.add_assoc, UInt64.add_comm 1]
      rfl
    have hhead : headOf e.hash es = headOf parent (e :: es) := by
      unfold headOf
      rw [List.getLast?_cons]
      cases es.getLast? <;> rfl
    rw [hcount, hhead, List.length_cons]

/-- `verify` counts the events of a chain. -/
theorem verify_fileOf (hc : c.Lawful) (h : Chained blake 0 noParent 0 es) :
    verify blake c (some (fileOf c es)) = .ok (UInt64.ofNat es.length, headOf noParent es) := by
  unfold verify fileOf
  dsimp only
  rw [fromUtf8_utf8]
  dsimp only
  rw [hc.eventLines_textOf, verifyLines_chained hc h, UInt64.zero_add]

theorem Chained.append {i ts : UInt64} {parent : Digest} {x : LedgerEvent} (h : Chained blake i parent ts es)
    (hi : x.index = i + UInt64.ofNat es.length) (hp : x.parentHash = headOf parent es)
    (ht : (es.getLast?.map LedgerEvent.timestamp).getD ts ≤ x.timestamp) (hh : x.recompute blake = x.hash) :
    Chained blake i parent ts (es ++ [x]) := by
  induction es generalizing i parent ts with
  | nil => exact ⟨by simpa using hi, hp, ht, hh, trivial⟩
  | cons e es ih =>
    obtain ⟨h1, h2, h3, h4, hes⟩ := h
    refine ⟨h1, h2, h3, h4, ih hes ?_ ?_ ?_⟩
    · rw [hi, List.length_cons, UInt64.ofNat_add, UInt64.add_assoc, UInt64.add_comm 1]
      rfl
    · rw [hp]
      unfold headOf
      rw [List.getLast?_cons]
      cases es.getLast? <;> rfl
    · rw [List.getLast?_cons] at ht
      cases hl : es.getLast? with
      | none =>
        rw [hl] at ht
        exact ht
      | some l =>
        rw [hl] at ht
        exact ht

/-! ## The last event -/

def lastLineLen (bytes : List UInt8) : Nat := (bytes.dropLast.reverse.takeWhile (· ≠ lineFeed)).length + 1

/-- The tail that `lastEvent` reads is text, and holds the whole last line. -/
def Readable (file : Option (List UInt8)) : Prop :=
  ∀ bytes, file = some bytes → (fromUtf8 (tailOf bytes)).isSome = true ∧ lastLineLen bytes ≤ tailLen

/-- A part of a file before the last line is empty or ends with a line feed. -/
theorem fileOf_ends (c : LineCodec) (es : List LedgerEvent) : fileOf c es = [] ∨ ∃ a, fileOf c es = a ++ [lineFeed] := by
  cases es using List.reverseRec with
  | nil => exact Or.inl rfl
  | append_singleton es e =>
    right
    rw [fileOf_append]
    exact ⟨fileOf c es ++ utf8 (c.render e), by rw [List.append_assoc]⟩

theorem lineFeed_not_mem_utf8 {t : String} (h : '\n' ∉ t.toList) : lineFeed ∉ utf8 t := by
  unfold utf8
  rw [List.mem_flatMap]
  rintro ⟨ch, hch, hmem⟩
  have hne : ch ≠ '\n' := fun he => h (he ▸ hch)
  exact lineFeed_not_mem hne hmem

theorem lastLineLen_append {a l : List UInt8} (ha : a = [] ∨ ∃ a', a = a' ++ [lineFeed]) (hl : lineFeed ∉ l) :
    lastLineLen (a ++ (l ++ [lineFeed])) = l.length + 1 := by
  unfold lastLineLen
  rw [← List.append_assoc, List.dropLast_concat, List.reverse_append]
  have hall : ∀ x ∈ l.reverse, decide (x ≠ lineFeed) = true := by
    intro x hx
    have hne : x ≠ lineFeed := fun he => hl (he ▸ List.mem_reverse.1 hx)
    simp [hne]
  rw [List.takeWhile_append_of_pos hall]
  obtain rfl | ⟨a', rfl⟩ := ha
  · simp
  · simp

theorem find_last_line (hc : c.Lawful) {t : String} {cs : List Char} (h : t.toList = cs ++ lineOf c e)
    (hcs : cs = [] ∨ ∃ as, cs = as ++ ['\n']) :
    ((lines t).reverse.find? fun l => ¬ blank l) = some (c.render e) := by
  have hlines : ∃ ls, lines t = ls ++ [c.render e] := by
    unfold lines
    rw [h]
    obtain rfl | ⟨as, rfl⟩ := hcs
    · refine ⟨[], ?_⟩
      rw [List.nil_append, hc.linesFrom_line]
      simp
    · refine ⟨(linesFrom [] (as ++ ['\n'])).map String.ofList, ?_⟩
      rw [List.append_assoc, List.singleton_append, linesFrom_append, hc.linesFrom_line]
      simp
  obtain ⟨ls, hls⟩ := hlines
  rw [hls, List.reverse_append]
  simp [hc.not_blank e]

/-- The tail of a file is the end of its earlier lines, then the last line, when this one fits. -/
theorem tailOf_append {a l : List UInt8} (h : l.length ≤ tailLen) :
    tailOf (a ++ l) = a.drop ((a ++ l).length - tailLen) ++ l := by
  unfold tailOf
  rw [List.drop_append_of_le_length]
  rw [List.length_append]
  omega

/-- What is left of the earlier lines is empty or ends with a line feed. -/
theorem drop_ends {a : List UInt8} (ha : a = [] ∨ ∃ a', a = a' ++ [lineFeed]) (n : Nat) :
    a.drop n = [] ∨ ∃ a', a.drop n = a' ++ [lineFeed] := by
  obtain rfl | ⟨a', rfl⟩ := ha
  · exact Or.inl List.drop_nil
  · by_cases hn : n ≤ a'.length
    · exact Or.inr ⟨a'.drop n, List.drop_append_of_le_length hn⟩
    · left
      apply List.drop_eq_nil_of_le
      rw [List.length_append, List.length_singleton]
      omega

theorem ends_with_line {t : String} {d : List UInt8} (h : utf8 t = d ++ utf8 (String.ofList (lineOf c e)))
    (hd : d = [] ∨ ∃ a, d = a ++ [lineFeed]) :
    ∃ cs, t.toList = cs ++ lineOf c e ∧ (cs = [] ∨ ∃ as, cs = as ++ ['\n']) := by
  obtain rfl | ⟨a, rfl⟩ := hd
  · refine ⟨[], ?_, Or.inl rfl⟩
    rw [List.nil_append, utf8_inj] at h
    rw [h, List.nil_append, String.toList_ofList]
  · rw [List.append_assoc, List.singleton_append] at h
    obtain ⟨as, bs, hts, -, hbs⟩ := utf8_cut h
    refine ⟨as ++ ['\n'], ?_, Or.inr ⟨as, rfl⟩⟩
    have hline : bs = lineOf c e := by
      rw [← utf8_ofList, utf8_inj] at hbs
      have hlist := congrArg String.toList hbs
      rwa [String.toList_ofList, String.toList_ofList] at hlist
    rw [hts, hline, List.append_assoc]
    rfl

theorem lastOfTail_of_line {tail line : String} (hl : ((lines tail).reverse.find? fun l => ¬ blank l) = some line) :
    lastOfTail c (some tail) = (c.parse line).map some := by
  unfold lastOfTail
  dsimp only
  rw [hl]

theorem lastEvent_some (c : LineCodec) (bytes : List UInt8) :
    lastEvent c (some bytes) = lastOfTail c (fromUtf8 (tailOf bytes)) := rfl

theorem lastEvent_fileOf (hc : c.Lawful) (hr : Readable (some (fileOf c (es ++ [e])))) :
    lastEvent c (some (fileOf c (es ++ [e]))) = .ok (some e) := by
  obtain ⟨hutf8, hlast⟩ := hr _ rfl
  obtain ⟨t, ht⟩ := Option.isSome_iff_exists.1 hutf8
  have hbytes := fromUtf8_eq_some.1 ht
  rw [fileOf_append, lastLineLen_append (fileOf_ends c es) (lineFeed_not_mem_utf8 (hc.no_lineFeed e))] at hlast
  have hlen : (utf8 (c.render e) ++ [lineFeed]).length ≤ tailLen := by
    rw [List.length_append, List.length_singleton]
    exact hlast
  rw [fileOf_append, tailOf_append hlen, ← utf8_line] at hbytes
  obtain ⟨cs, hcs, hends⟩ := ends_with_line hbytes (drop_ends (fileOf_ends c es) _)
  rw [lastEvent_some, ht, lastOfTail_of_line (find_last_line hc hcs hends), hc.reads]
  rfl

/-! ## Runs -/

/-- What the ledger file holds after a run that sealed these events. -/
def ledgerFile (c : LineCodec) (es : List LedgerEvent) : Option (List UInt8) :=
  if es = [] then none else some (fileOf c es)

/-- One append after another, from no file; the events that were sealed. -/
def appends (blake : List UInt8 → Digest) (c : LineCodec) (calls : List Call) :
    Except String (List LedgerEvent × Option (List UInt8)) :=
  calls.foldlM (fun s x => do
    let (event, file) ← appendAction blake c s.2 x
    .ok (s.1 ++ [event], some file)) ([], none)

theorem lastEvent_ledgerFile (hc : c.Lawful) (hr : Readable (ledgerFile c es)) :
    lastEvent c (ledgerFile c es) = .ok es.getLast? := by
  cases es using List.reverseRec with
  | nil => rfl
  | append_singleton es e =>
    have hfile : ledgerFile c (es ++ [e]) = some (fileOf c (es ++ [e])) := by
      unfold ledgerFile
      rw [if_neg (by simp)]
    rw [hfile] at hr ⊢
    rw [lastEvent_fileOf hc hr, List.getLast?_concat]

theorem Chained.last_index {i ts : UInt64} {parent : Digest} (h : Chained blake i parent ts es)
    (hl : es.getLast? = some e) : e.index + 1 = i + UInt64.ofNat es.length := by
  induction es generalizing i ts parent with
  | nil => cases hl
  | cons a es ih =>
    obtain ⟨hi, -, -, -, hrest⟩ := h
    rw [List.getLast?_cons] at hl
    cases hlast : es.getLast? with
    | none =>
      rw [hlast] at hl
      have hnil : es = [] := List.getLast?_eq_none_iff.1 hlast
      have hea : a = e := Option.some.inj hl
      rw [← hea, hi, hnil]
      rfl
    | some e' =>
      rw [hlast] at hl
      have hee : e' = e := Option.some.inj hl
      rw [ih hrest (hlast.trans (congrArg some hee)), List.length_cons, UInt64.ofNat_add, UInt64.add_assoc,
        UInt64.add_comm 1]
      rfl

theorem Chained.next (h : Chained blake 0 noParent 0 es) (x : Call) :
    Chained blake 0 noParent 0 (es ++ [nextEvent blake es.getLast? x]) := by
  apply h.append
  · unfold nextEvent
    cases hl : es.getLast? with
    | none =>
      rw [List.getLast?_eq_none_iff.1 hl]
      rfl
    | some e => exact h.last_index hl
  · unfold nextEvent headOf
    cases es.getLast? <;> rfl
  · have hmax : ∀ a b : UInt64, b ≤ max a b := by
      intro a b
      show b ≤ if a ≤ b then b else a
      split_ifs with hab
      · exact UInt64.le_refl b
      · exact UInt64.le_of_lt (UInt64.not_le.1 hab)
    unfold nextEvent
    cases es.getLast? <;> exact hmax _ _
  · rfl

theorem appendAction_ledgerFile (blake : List UInt8 → Digest) (hc : c.Lawful) (hr : Readable (ledgerFile c es)) (x : Call) :
    ∃ file, appendAction blake c (ledgerFile c es) x = .ok (nextEvent blake es.getLast? x, file) ∧
      some file = ledgerFile c (es ++ [nextEvent blake es.getLast? x]) := by
  refine ⟨fileOf c (es ++ [nextEvent blake es.getLast? x]), ?_, ?_⟩
  · unfold appendAction
    rw [lastEvent_ledgerFile hc hr]
    show Except.ok _ = _
    apply congrArg Except.ok
    rw [fileOf_append]
    apply congrArg (Prod.mk _)
    apply congrArg (· ++ _)
    unfold ledgerFile
    by_cases hnil : es = []
    · rw [if_pos hnil, hnil]
      rfl
    · rw [if_neg hnil]
      rfl
  · unfold ledgerFile
    rw [if_neg (by simp)]

theorem appends_concat (calls : List Call) (x : Call) : appends blake c (calls ++ [x]) = (appends blake c calls >>=
    fun s => appendAction blake c s.2 x >>= fun r => .ok (s.1 ++ [r.1], some r.2)) := by
  unfold appends
  rw [List.foldlM_append]
  congr 1
  funext s
  simp [List.foldlM]

theorem appends_one (blake : List UInt8 → Digest) (hc : c.Lawful) (x : Call) : appends blake c [x] =
    .ok ([nextEvent blake none x], some (fileOf c [nextEvent blake none x])) := by
  have hread : Readable (ledgerFile c []) := by
    intro bytes hbytes
    cases hbytes
  obtain ⟨file, happ, hfile⟩ := appendAction_ledgerFile blake hc hread x
  have hcons : appends blake c [x] = (appendAction blake c none x >>= fun r => .ok ([r.1], some r.2)) :=
    appends_concat [] x
  have hnone : ledgerFile c [] = none := rfl
  rw [hnone] at happ
  rw [hcons, happ]
  show Except.ok _ = _
  rw [hfile]
  rfl

theorem appends_readable (hc : c.Lawful) (calls : List Call)
    (hr : ∀ pre s, pre <+: calls → pre ≠ calls → appends blake c pre = .ok s → Readable s.2) :
    ∃ es, appends blake c calls = .ok (es, ledgerFile c es) ∧ es.length = calls.length ∧
      Chained blake 0 noParent 0 es := by
  induction calls using List.reverseRec with
  | nil => exact ⟨[], rfl, rfl, trivial⟩
  | append_singleton calls x ih =>
    obtain ⟨es, hes, hlen, hchain⟩ := ih (fun pre s hpre hne => hr pre s (hpre.trans (List.prefix_append _ _)) (by
      rintro rfl
      exact hne (hpre.eq_of_length_le (by simp)) ))
    have hread : Readable (ledgerFile c es) := hr calls _ (List.prefix_append _ _) (by simp) hes
    obtain ⟨file, happ, hfile⟩ := appendAction_ledgerFile blake hc hread x
    refine ⟨es ++ [nextEvent blake es.getLast? x], ?_, ?_, hchain.next x⟩
    · rw [appends_concat, hes]
      show (appendAction blake c (ledgerFile c es) x >>= _) = _
      rw [happ]
      show Except.ok _ = _
      rw [hfile]
    · rw [List.length_append, List.length_append, hlen]
      rfl

/-! One event. The values are BLAKE3's. -/

def sampleCall : Call := ⟨"test", "tester", "job-0", "pass exit=0", [], 1786000000⟩

def samplePayload : Digest :=
  #v[175, 19, 73, 185, 245, 249, 161, 166, 160, 64, 77, 234, 54, 220, 201, 73, 155, 203, 37, 201, 173, 193, 18, 183,
    204, 154, 147, 202, 228, 31, 50, 98]

def sampleHash : Digest :=
  #v[77, 148, 36, 198, 177, 151, 0, 154, 189, 223, 15, 224, 221, 108, 180, 226, 209, 62, 122, 179, 22, 131, 235, 44,
    156, 180, 14, 199, 188, 81, 17, 83]

def sampleBlake (x : List UInt8) : Digest := if x = [] then samplePayload else sampleHash

/-! ## A long line -/

theorem length_encode_le (cs : List Char) : (cs.flatMap String.utf8EncodeChar).length ≤ 4 * cs.length := by
  induction cs with
  | nil => rfl
  | cons c cs ih =>
    have hc : (String.utf8EncodeChar c).length ≤ 4 := by
      rw [String.length_utf8EncodeChar]
      exact Char.utf8Size_le_four c
    rw [List.flatMap_cons, List.length_append, List.length_cons]
    omega

theorem length_writeBytes_le (bs : List UInt8) : (writeBytes bs).length ≤ 4 * bs.length + 1 := by
  have hnum : ∀ n < 256, (writeNumber n).length ≤ 3 := by decide +kernel
  induction bs with
  | nil => decide
  | cons b bs ih =>
    have hb := hnum b.toNat b.toNat_lt
    cases bs with
    | nil =>
      show (writeNumber b.toNat ++ [']']).length ≤ _
      rw [List.length_append, List.length_singleton, List.length_singleton]
      omega
    | cons b' bs =>
      have hw : writeBytes (b :: b' :: bs) = writeNumber b.toNat ++ ',' :: writeBytes (b' :: bs) := by
        simp [writeBytes]
      rw [hw, List.length_append, List.length_cons, List.length_cons (a := b)]
      omega

theorem length_writeHashes_le (e : LedgerEvent) : (writeHashes e).length ≤ 600 := by
  have h1 := length_writeBytes_le e.payloadHash.toList
  have h2 := length_writeBytes_le e.parentHash.toList
  have h3 := length_writeBytes_le e.hash.toList
  have hlit : (",\"payload_hash\":[".toList).length = 17 ∧ (",\"parent_hash\":[".toList).length = 16 ∧
      (",\"hash\":[".toList).length = 9 := by decide
  unfold writeHashes
  simp only [List.length_append, hlit, List.length_singleton]
  simp only [Vector.length_toList] at h1 h2 h3
  omega

theorem parse_letter (cs : List Char) : ∃ err, serde.parse (String.ofList ('a' :: cs)) = .error err := by
  have hexpect : ∃ err, expect "\x7b\"index\":".toList ('a' :: cs) = .error err := by
    unfold expect
    show ∃ err, Except.bind (Wire.take _ _ ('a' :: cs)) _ = .error err
    unfold Wire.take
    by_cases hlen : ('a' :: cs).length < "\x7b\"index\":".toList.length
    · rw [if_pos hlen]
      exact ⟨_, rfl⟩
    · rw [if_neg hlen]
      refine ⟨"expected value", ?_⟩
      show Wire.refuseIf _ _ _ = _
      unfold Wire.refuseIf
      rw [if_pos]
      · rfl
      · exact fun h => by cases h
  obtain ⟨err, herr⟩ := hexpect
  refine ⟨err, ?_⟩
  have hread : readLine ('a' :: cs) = .error err := by
    unfold readLine
    show Except.bind (expect "\x7b\"index\":".toList ('a' :: cs)) _ = _
    rw [herr]
    rfl
  simp only [serde, String.toList_ofList, hread]

/-- The line of an event up to its intent, the intent, and the rest. -/
theorem writeLine_intent (e : LedgerEvent) :
    ∃ a, writeLine e = a ++ (e.intent.toList.flatMap Json.escapeChar ++ '"' :: writeHashes e) := by
  refine ⟨"\x7b\"index\":".toList ++ ((writeNumber e.index.toNat ++ [',']) ++ ("\"timestamp\":".toList ++
    ((writeNumber e.timestamp.toNat ++ [',']) ++ ("\"agent\":".toList ++ (Json.writeStr e.agent ++
      (",\"action\":".toList ++ (Json.writeStr e.action ++ (",\"target\":".toList ++ (Json.writeStr e.target ++
        (",\"intent\":".toList ++ ['"'])))))))))), ?_⟩
  unfold writeLine
  simp only [Json.writeStr, List.append_assoc, List.cons_append, List.nil_append]

theorem tailOf_eq {a l : List UInt8} (h : l.length = tailLen) : tailOf (a ++ l) = l := by
  rw [tailOf_append (Nat.le_of_eq h)]
  have hdrop : (a ++ l).length - tailLen = a.length := by
    rw [List.length_append, h, Nat.add_sub_cancel]
  rw [hdrop, List.drop_length, List.nil_append]

theorem lastOfTail_inside {cs : List Char} (h : Printable cs) :
    ∃ err, lastOfTail serde (some (String.ofList ('a' :: cs ++ ['\n']))) = .error err := by
  have hprint : Printable ('a' :: cs) := by
    intro ch hch
    obtain rfl | hch := List.mem_cons.1 hch
    · decide
    · exact h ch hch
  have hfeed : '\n' ∉ 'a' :: cs := by
    intro hm
    have hle := hprint _ hm
    simp at hle
  have hstrip : stripReturn ('a' :: cs) = 'a' :: cs := by
    unfold stripReturn
    rw [if_neg]
    intro hlast
    have hle := hprint _ (List.mem_of_getLast? hlast)
    simp at hle
  have hlines : lines (String.ofList ('a' :: cs ++ ['\n'])) = [String.ofList ('a' :: cs)] := by
    unfold lines
    rw [String.toList_ofList, linesFrom_line [] hfeed, List.nil_append, hstrip]
    rfl
  have hblank : blank (String.ofList ('a' :: cs)) = false := by
    unfold blank
    rw [String.toList_ofList, List.all_cons]
    rfl
  have hfind : ((lines (String.ofList ('a' :: cs ++ ['\n']))).reverse.find? fun l => ¬ blank l) =
      some (String.ofList ('a' :: cs)) := by
    rw [hlines, List.reverse_singleton, List.find?_cons_of_pos]
    rw [hblank]
    rfl
  obtain ⟨err, herr⟩ := parse_letter cs
  refine ⟨err, ?_⟩
  rw [lastOfTail_of_line hfind, herr]
  rfl

theorem encode_letters (n : Nat) :
    (List.replicate n 'a').flatMap String.utf8EncodeChar = List.replicate n (UInt8.ofNat 97) := by
  induction n with
  | zero => rfl
  | succ n ih =>
    rw [List.replicate_succ, List.flatMap_cons, ih]
    rfl

theorem escape_letters (n : Nat) : (List.replicate n 'a').flatMap Json.escapeChar = List.replicate n 'a' := by
  induction n with
  | zero => rfl
  | succ n ih =>
    rw [List.replicate_succ, List.flatMap_cons, ih]
    rfl

/-- A last line of more than 64 KiB whose tail begins with the letter a is not read back. -/
theorem lastEvent_long {e : LedgerEvent} {a z : List Char} {n : Nat}
    (hline : writeLine e = a ++ (List.replicate n 'a' ++ z)) (hn : tailLen ≤ n)
    (hz : (z.flatMap String.utf8EncodeChar).length + 1 < tailLen) :
    ∃ err, lastEvent serde (some (fileOf serde [e])) = .error err := by
  have hprint := printable_line e
  rw [hline] at hprint
  obtain ⟨m, hm⟩ : ∃ m, m + 1 + ((z.flatMap String.utf8EncodeChar).length + 1) = tailLen :=
    ⟨tailLen - ((z.flatMap String.utf8EncodeChar).length + 1) - 1, by omega⟩
  have hsplit : List.replicate n 'a' = List.replicate (n - (m + 1)) 'a' ++ 'a' :: List.replicate m 'a' := by
    rw [← List.replicate_succ, List.replicate_append_replicate, Nat.sub_add_cancel (by omega)]
  have hbytes : fileOf serde [e] = (a ++ List.replicate (n - (m + 1)) 'a').flatMap String.utf8EncodeChar ++
      utf8 (String.ofList ('a' :: (List.replicate m 'a' ++ z) ++ ['\n'])) := by
    unfold fileOf textOf lineOf
    rw [utf8_ofList, utf8_ofList, ← List.flatMap_append]
    apply congrArg (List.flatMap String.utf8EncodeChar)
    simp [serde, hline, hsplit]
  have hlen : (utf8 (String.ofList ('a' :: (List.replicate m 'a' ++ z) ++ ['\n']))).length = tailLen := by
    have hfront : 'a' :: (List.replicate m 'a' ++ z) ++ ['\n'] = List.replicate (m + 1) 'a' ++ (z ++ ['\n']) := by
      rw [List.replicate_succ]
      simp
    rw [hfront, utf8_ofList, List.flatMap_append, encode_letters, List.flatMap_append, List.length_append,
      List.length_append, List.length_replicate, ← hm]
    rfl
  rw [lastEvent_some, hbytes, tailOf_eq hlen, fromUtf8_utf8]
  apply lastOfTail_inside
  intro ch hch
  apply hprint
  rw [List.mem_append] at hch
  rw [hsplit]
  obtain hch | hch := hch
  · simp [hch]
  · simp [hch]

/-- After an event with an intent of many letters a, every append fails. -/
theorem append_refused_of_letters (blake : List UInt8 → Digest) (x y : Call) {n : Nat}
    (hx : x.intent = String.ofList (List.replicate n 'a')) (hn : tailLen ≤ n) :
    (∃ s, appends blake serde [x] = .ok s) ∧ ∃ err, appends blake serde [x, y] = .error err := by
  have hfirst := appends_one blake serde_lawful x
  refine ⟨⟨_, hfirst⟩, ?_⟩
  generalize he : nextEvent blake none x = e at hfirst
  have hintent : e.intent = String.ofList (List.replicate n 'a') := by
    rw [← he]
    exact hx
  obtain ⟨a, ha⟩ := writeLine_intent e
  rw [hintent, String.toList_ofList, escape_letters] at ha
  have hshort : (('"' :: writeHashes e).flatMap String.utf8EncodeChar).length + 1 < tailLen := by
    have h1 := length_encode_le ('"' :: writeHashes e)
    have h2 := length_writeHashes_le e
    have h3 : 4 * (600 + 1) + 1 < tailLen := by decide
    rw [List.length_cons] at h1
    omega
  obtain ⟨err, herr⟩ := lastEvent_long ha hn hshort
  refine ⟨err, ?_⟩
  have hcons : [x, y] = [x] ++ [y] := rfl
  have happ : appendAction blake serde (some (fileOf serde [e])) y = .error err := by
    unfold appendAction
    rw [herr, Result.error_bind]
  rw [hcons, appends_concat, hfirst, Result.ok_bind, happ, Result.error_bind]

def longCall : Call := ⟨"test", "tester", "job-0", String.ofList (List.replicate 70000 'a'), [], 1786000000⟩

end SovereignCore.Evidence
