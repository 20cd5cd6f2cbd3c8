import SovereignCore.Evidence.Appends

/-!
# The head of the ledger commits to all of it

`verify` answers the number of events and the hash of the last one. An event is hashed with the hash of the event before
it, so the head stands for the whole file. A hash function of 32 bytes has collisions; what is needed is that none lies
between an event of one file and an event of the other.

* `LedgerEvent.preimage`, `preimage_inj` : the bytes that are hashed determine every field but the hash;
* `Holds`, `verify_events` : the events of a file, and the chain that an accepted file holds;
* `chained_unique` : chains of one length with one head are the same;
* `ledger_tamper_evident` : two accepted files with one count and one head hold the same events.
-/

namespace SovereignCore.Evidence

open Text Wire

/-! ## The hashed bytes -/

def LedgerEvent.preimage (e : LedgerEvent) : List UInt8 :=
  eventDomain ++ beBytes 8 e.index.toNat ++ beBytes 8 e.timestamp.toNat ++
    [e.agent, e.action, e.target, e.intent].flatMap hashedText ++ e.payloadHash.toList ++ e.parentHash.toList

def LedgerEvent.Short (e : LedgerEvent) : Prop :=
  ∀ s ∈ [e.agent, e.action, e.target, e.intent], s.utf8ByteSize < 2 ^ 32

instance (e : LedgerEvent) : Decidable e.Short :=
  inferInstanceAs (Decidable (∀ s ∈ [e.agent, e.action, e.target, e.intent], s.utf8ByteSize < 2 ^ 32))

variable {blake : List UInt8 → Digest} {c : LineCodec} {es es' : List LedgerEvent} {e e' : LedgerEvent}

theorem beBytes_inj {n a b : Nat} (ha : a < 256 ^ n) (hb : b < 256 ^ n) (h : beBytes n a = beBytes n b) : a = b := by
  rw [← beValue_beBytes ha, ← beValue_beBytes hb, h]

theorem length_utf8 (s : String) : (utf8 s).length = s.utf8ByteSize := by
  rw [← String.size_toByteArray, ← utf8_toByteArray s]
  exact List.size_toByteArray.symm

theorem hashedText_cancel {s t : String} {u v : List UInt8} (hs : s.utf8ByteSize < 2 ^ 32)
    (ht : t.utf8ByteSize < 2 ^ 32) (h : hashedText s ++ u = hashedText t ++ v) : s = t ∧ u = v := by
  unfold hashedText at h
  rw [List.append_assoc, List.append_assoc, length_utf8, length_utf8, Nat.mod_eq_of_lt hs, Nat.mod_eq_of_lt ht] at h
  obtain ⟨hlen, hrest⟩ := List.append_inj h (by rw [length_beBytes, length_beBytes])
  have hsize : s.utf8ByteSize = t.utf8ByteSize := beBytes_inj (by exact hs) (by exact ht) hlen
  obtain ⟨htext, hend⟩ := List.append_inj hrest (by rw [length_utf8, length_utf8, hsize])
  exact ⟨utf8_inj.1 htext, hend⟩

theorem u64_cancel {a b : UInt64} {u v : List UInt8} (h : beBytes 8 a.toNat ++ u = beBytes 8 b.toNat ++ v) :
    a = b ∧ u = v := by
  obtain ⟨hbytes, hrest⟩ := List.append_inj h (by rw [length_beBytes, length_beBytes])
  exact ⟨UInt64.toNat_inj.1 (beBytes_inj a.toNat_lt b.toNat_lt hbytes), hrest⟩

theorem digest_cancel {a b : Digest} {u v : List UInt8} (h : a.toList ++ u = b.toList ++ v) : a = b ∧ u = v := by
  obtain ⟨hbytes, hrest⟩ := List.append_inj h (by rw [Vector.length_toList, Vector.length_toList])
  exact ⟨Vector.toList_inj.1 hbytes, hrest⟩

theorem preimage_inj (he : e.Short) (he' : e'.Short) (h : e.preimage = e'.preimage) (hhash : e.hash = e'.hash) :
    e = e' := by
  unfold LedgerEvent.preimage at h
  simp only [List.flatMap_cons, List.flatMap_nil, List.append_assoc, List.append_nil] at h
  replace h := List.append_cancel_left h
  obtain ⟨hindex, h⟩ := u64_cancel h
  obtain ⟨htime, h⟩ := u64_cancel h
  obtain ⟨hagent, h⟩ := hashedText_cancel (he _ (by simp)) (he' _ (by simp)) h
  obtain ⟨haction, h⟩ := hashedText_cancel (he _ (by simp)) (he' _ (by simp)) h
  obtain ⟨htarget, h⟩ := hashedText_cancel (he _ (by simp)) (he' _ (by simp)) h
  obtain ⟨hintent, h⟩ := hashedText_cancel (he _ (by simp)) (he' _ (by simp)) h
  obtain ⟨hpayload, hparent⟩ := digest_cancel h
  replace hparent := Vector.toList_inj.1 hparent
  cases e
  cases e'
  simp only [LedgerEvent.mk.injEq]
  exact ⟨hindex, htime, hagent, haction, htarget, hintent, hpayload, hparent, hhash⟩

/-! ## The chain of a file -/

/-- The lines of the file that are not blank; none when there is no file. -/
def ledgerLines (file : Option (List UInt8)) : List String :=
  match file.bind fromUtf8 with
  | some text => eventLines text
  | none => []

def ledgerEvents (c : LineCodec) (file : Option (List UInt8)) : Except String (List LedgerEvent) :=
  (ledgerLines file).mapM c.parse

def Holds (c : LineCodec) (file : Option (List UInt8)) (e : LedgerEvent) : Prop :=
  ∃ line ∈ ledgerLines file, c.parse line = .ok e

theorem verifyLines_events {ls : List String} : ∀ {n : Nat} {i ts count : UInt64} {parent head : Digest},
    verifyLines blake c n i parent ts ls = .ok (count, head) →
    ∃ es, ls.mapM c.parse = .ok es ∧ es.length = ls.length ∧ Chained blake i parent ts es ∧
      count = i + UInt64.ofNat es.length ∧ head = headOf parent es := by
  induction ls with
  | nil =>
    intro n i ts count parent head h
    obtain ⟨rfl, rfl⟩ := Prod.mk.inj (Except.ok.inj h)
    exact ⟨[], rfl, rfl, trivial, by simp, rfl⟩
  | cons line ls ih =>
    intro n i ts count parent head h
    rw [verifyLines, Result.bind_ok] at h
    obtain ⟨e, hparse, h⟩ := h
    rw [Result.mapError_ok] at hparse
    rw [Result.guard_ok, Result.guard_ok, Result.guard_ok, Result.guard_ok] at h
    obtain ⟨hindex, hparent, htime, hhash, hrest⟩ := h
    obtain ⟨es, hes, hlen, hchain, rfl, rfl⟩ := ih hrest
    refine ⟨e :: es, ?_, by rw [List.length_cons, List.length_cons, hlen], ⟨not_not.1 hindex, not_not.1 hparent,
      UInt64.not_lt.1 htime, not_not.1 hhash, hchain⟩, ?_, ?_⟩
    · rw [List.mapM_cons, hparse, Result.ok_bind, hes]
      rfl
    · rw [List.length_cons, UInt64.ofNat_add, UInt64.add_assoc, UInt64.add_comm (UInt64.ofNat es.length)]
      rfl
    · unfold headOf
      rw [List.getLast?_cons]
      cases es.getLast? with
      | none => rfl
      | some last => rfl

theorem verify_events {file : Option (List UInt8)} {count : UInt64} {head : Digest}
    (h : verify blake c file = .ok (count, head)) : ∃ es, ledgerEvents c file = .ok es ∧
      es.length = (ledgerLines file).length ∧ Chained blake 0 noParent 0 es ∧ count = UInt64.ofNat es.length ∧
      head = headOf noParent es := by
  have hlines : verifyLines blake c 0 0 noParent 0 (ledgerLines file) = .ok (count, head) := by
    unfold ledgerLines
    cases file with
    | none => exact h
    | some bytes =>
      unfold verify at h
      dsimp only at h
      rw [Option.bind_some]
      cases htext : fromUtf8 bytes with
      | none =>
        rw [htext] at h
        cases h
      | some text =>
        rw [htext] at h
        exact h
  obtain ⟨es, hes, hlen, hchain, hcount, hhead⟩ := verifyLines_events hlines
  exact ⟨es, hes, hlen, hchain, by rw [hcount, UInt64.zero_add], hhead⟩

theorem Chained.start {i ts : UInt64} {parent : Digest} (h : Chained blake i parent ts (es ++ es')) :
    Chained blake i parent ts es := by
  induction es generalizing i parent ts with
  | nil => exact trivial
  | cons x es ih =>
    obtain ⟨hindex, hparent, htime, hhash, hrest⟩ := h
    exact ⟨hindex, hparent, htime, hhash, ih hrest⟩

/-- The last event of a chain names the head of what comes before it. -/
theorem Chained.last {i ts : UInt64} {parent : Digest} (h : Chained blake i parent ts (es ++ [e])) :
    e.parentHash = headOf parent es ∧ e.recompute blake = e.hash := by
  induction es generalizing i parent ts with
  | nil => exact ⟨h.2.1, h.2.2.2.1⟩
  | cons x es ih =>
    obtain ⟨hparent, hhash⟩ := ih h.2.2.2.2
    refine ⟨?_, hhash⟩
    rw [hparent]
    unfold headOf
    rw [List.getLast?_cons]
    cases es.getLast? with
    | none => rfl
    | some last => rfl

/-- From the head back to the start: the last events are the same, and so are the heads before them. -/
theorem chained_unique {parent : Digest} {i ts ts' : UInt64} (hlen : es.length = es'.length)
    (h : Chained blake i parent ts es) (h' : Chained blake i parent ts' es')
    (hhead : headOf parent es = headOf parent es') (hshort : ∀ e ∈ es, e.Short) (hshort' : ∀ e ∈ es', e.Short)
    (hblake : ∀ e ∈ es, ∀ e' ∈ es', blake e.preimage = blake e'.preimage → e.preimage = e'.preimage) : es = es' := by
  induction es using List.reverseRecOn generalizing es' with
  | nil => exact (List.length_eq_zero_iff.1 hlen.symm).symm
  | append_singleton es e ih =>
    have hne : es' ≠ [] := by
      rintro rfl
      simp at hlen
    obtain ⟨es', e', rfl⟩ : ∃ l x, es' = l ++ [x] := ⟨_, _, (List.dropLast_append_getLast hne).symm⟩
    obtain ⟨hparent, hhash⟩ := h.last
    obtain ⟨hparent', hhash'⟩ := h'.last
    have hsame : e.hash = e'.hash := by
      unfold headOf at hhead
      rwa [List.getLast?_concat, List.getLast?_concat] at hhead
    have hlast : e = e' := by
      apply preimage_inj (hshort e (by simp)) (hshort' e' (by simp)) ?_ hsame
      apply hblake e (by simp) e' (by simp)
      show e.recompute blake = e'.recompute blake
      rw [hhash, hhash', hsame]
    subst hlast
    rw [ih (by simpa using hlen) h.start h'.start (hparent.symm.trans hparent')
      (fun x hx => hshort x (List.mem_append_left _ hx)) (fun x hx => hshort' x (List.mem_append_left _ hx))
      (fun x hx y hy => hblake x (List.mem_append_left _ hx) y (List.mem_append_left _ hy))]

/-! ## The number of events -/

theorem length_linesFrom_le (line cs : List Char) :
    (linesFrom line cs).length ≤ cs.length + if line = [] then 0 else 1 := by
  induction cs generalizing line with
  | nil =>
    unfold linesFrom
    split_ifs
    · exact Nat.le_refl 0
    · exact Nat.le_refl 1
  | cons c cs ih =>
    unfold linesFrom
    split_ifs with hc hline
    · have hrest := ih []
      rw [if_pos rfl] at hrest
      rw [List.length_cons, List.length_cons]
      omega
    · have hrest := ih []
      rw [if_pos rfl] at hrest
      rw [List.length_cons, List.length_cons]
      omega
    · have hrest := ih (line ++ [c])
      rw [if_neg (by simp)] at hrest
      rw [List.length_cons]
      omega
    · have hrest := ih (line ++ [c])
      rw [if_neg (by simp)] at hrest
      rw [List.length_cons]
      omega

theorem length_le_utf8 (s : String) : s.toList.length ≤ (utf8 s).length := by
  unfold utf8
  induction s.toList with
  | nil => exact Nat.le_refl 0
  | cons ch cs ih =>
    have hpos : 0 < (String.utf8EncodeChar ch).length := by
      rw [String.length_utf8EncodeChar]
      exact Char.utf8Size_pos ch
    rw [List.flatMap_cons, List.length_append, List.length_cons]
    omega

theorem length_ledgerLines_le (bytes : List UInt8) : (ledgerLines (some bytes)).length ≤ bytes.length := by
  unfold ledgerLines
  rw [Option.bind_some]
  cases htext : fromUtf8 bytes with
  | none => exact Nat.zero_le _
  | some text =>
    dsimp only
    have hlines : (lines text).length ≤ text.toList.length := by
      unfold lines
      rw [List.length_map]
      simpa using length_linesFrom_le [] text.toList
    calc (eventLines text).length ≤ (lines text).length := List.length_filter_le _ _
      _ ≤ text.toList.length := hlines
      _ ≤ (utf8 text).length := length_le_utf8 text
      _ = bytes.length := by rw [fromUtf8_eq_some.1 htext]

theorem mem_ledgerEvents {file : Option (List UInt8)} (h : ledgerEvents c file = .ok es) (he : e ∈ es) :
    Holds c file e := by
  unfold ledgerEvents at h
  unfold Holds
  generalize ledgerLines file = ls at h ⊢
  induction ls generalizing es with
  | nil =>
    cases h
    cases he
  | cons line ls ih =>
    rw [List.mapM_cons, Result.bind_ok] at h
    obtain ⟨x, hx, h⟩ := h
    rw [Result.bind_ok] at h
    obtain ⟨xs, hxs, h⟩ := h
    rw [← Except.ok.inj h] at he
    rcases List.mem_cons.1 he with rfl | he
    · exact ⟨line, List.mem_cons_self, hx⟩
    · obtain ⟨l, hl, hparse⟩ := ih he hxs
      exact ⟨l, List.mem_cons_of_mem _ hl, hparse⟩

/-! ## Tamper evidence -/

/-- The bytes of a file, when there is one, fit the 64-bit lengths of the machine. -/
def Sized (file : Option (List UInt8)) : Prop := ∀ bytes ∈ file, bytes.length < 2 ^ 64

theorem Sized.lines {file : Option (List UInt8)} (h : Sized file) : (ledgerLines file).length < 2 ^ 64 := by
  cases file with
  | none => exact Nat.zero_lt_succ _
  | some bytes => exact Nat.lt_of_le_of_lt (length_ledgerLines_le bytes) (h bytes rfl)

theorem ofNat_inj_of_lt {a b : Nat} (ha : a < 2 ^ 64) (hb : b < 2 ^ 64) (h : UInt64.ofNat a = UInt64.ofNat b) : a = b := by
  have hnat := congrArg UInt64.toNat h
  rwa [UInt64.toNat_ofNat_of_lt' ha, UInt64.toNat_ofNat_of_lt' hb] at hnat

theorem ledger_tamper_evident (blake : List UInt8 → Digest) (c : LineCodec) {file file' : Option (List UInt8)}
    {count : UInt64} {head : Digest} (hsize : Sized file) (hsize' : Sized file')
    (hshort : ∀ e, Holds c file e ∨ Holds c file' e → e.Short)
    (hblake : ∀ e e', Holds c file e → Holds c file' e' → blake e.preimage = blake e'.preimage →
      e.preimage = e'.preimage)
    (h : verify blake c file = .ok (count, head)) (h' : verify blake c file' = .ok (count, head)) :
    ∃ es, ledgerEvents c file = .ok es ∧ ledgerEvents c file' = .ok es := by
  obtain ⟨es, hes, hlen, hchain, hcount, hhead⟩ := verify_events h
  obtain ⟨es', hes', hlen', hchain', hcount', hhead'⟩ := verify_events h'
  have hsame : es.length = es'.length := by
    apply ofNat_inj_of_lt (hlen ▸ hsize.lines) (hlen' ▸ hsize'.lines)
    rw [← hcount, ← hcount']
  have hunique : es = es' := by
    apply chained_unique hsame hchain hchain' (hhead.symm.trans hhead')
    · exact fun e he => hshort e (.inl (mem_ledgerEvents hes he))
    · exact fun e he => hshort e (.inr (mem_ledgerEvents hes' he))
    · exact fun e he e' he' => hblake e e' (mem_ledgerEvents hes he) (mem_ledgerEvents hes' he')
  exact ⟨es, hes, hunique ▸ hes'⟩

/-! A ledger of one event, and the same with a blank line in front. -/

def sampleEvent : LedgerEvent := nextEvent sampleBlake none sampleCall

def sampleLedger : List UInt8 := fileOf serde [sampleEvent]

theorem eventLines_feed (cs : List Char) : eventLines (String.ofList ('\n' :: cs)) = eventLines (String.ofList cs) := by
  unfold eventLines lines
  rw [String.toList_ofList, String.toList_ofList, linesFrom, if_pos rfl]
  rfl

theorem utf8_feed (cs : List Char) : utf8 (String.ofList ('\n' :: cs)) = lineFeed :: utf8 (String.ofList cs) := by
  rw [utf8_ofList, utf8_ofList]
  rfl

theorem ledgerLines_fileOf (hc : c.Lawful) (es : List LedgerEvent) :
    ledgerLines (some (fileOf c es)) = es.map c.render ∧
      ledgerLines (some (lineFeed :: fileOf c es)) = es.map c.render := by
  have htext := hc.eventLines_textOf es
  unfold fileOf ledgerLines
  constructor
  · rw [Option.bind_some, fromUtf8_utf8]
    exact htext
  · unfold textOf at htext ⊢
    rw [← utf8_feed, Option.bind_some, fromUtf8_utf8]
    dsimp only
    rw [eventLines_feed]
    exact htext

theorem ledgerLines_sample : ledgerLines (some sampleLedger) = [serde.render sampleEvent] ∧
    ledgerLines (some (lineFeed :: sampleLedger)) = [serde.render sampleEvent] :=
  ledgerLines_fileOf serde_lawful [sampleEvent]

theorem headOf_singleton (parent : Digest) (e : LedgerEvent) : headOf parent [e] = e.hash := rfl

theorem nextEvent_hash (last : Option LedgerEvent) (x : Call) :
    (nextEvent blake last x).hash = blake (nextEvent blake last x).preimage := rfl

theorem sampleEvent_hash : sampleEvent.hash = sampleHash := by
  have hne : sampleEvent.preimage ≠ [] := by
    unfold LedgerEvent.preimage eventDomain
    exact List.cons_ne_nil _ _
  unfold sampleEvent at hne ⊢
  rw [nextEvent_hash]
  unfold sampleBlake
  exact if_neg hne

theorem chained_sample : Chained sampleBlake 0 noParent 0 [sampleEvent] := by
  have hnil : Chained sampleBlake 0 noParent 0 [] := trivial
  exact hnil.next sampleCall

theorem verifyLines_sample : verifyLines sampleBlake serde 0 0 noParent 0 [serde.render sampleEvent] =
    .ok (1, sampleHash) := by
  have h := verifyLines_chained serde_lawful chained_sample 0
  rw [headOf_singleton, sampleEvent_hash, UInt64.zero_add] at h
  exact h

theorem verify_sample {file : List UInt8} (h : ledgerLines (some file) = [serde.render sampleEvent]) :
    verify sampleBlake serde (some file) = .ok (1, sampleHash) := by
  unfold ledgerLines at h
  rw [Option.bind_some] at h
  unfold verify
  dsimp only
  cases htext : fromUtf8 file with
  | none =>
    rw [htext] at h
    cases h
  | some text =>
    rw [htext] at h
    dsimp only at h ⊢
    rw [h]
    exact verifyLines_sample

theorem holds_sample {file : List UInt8} {e : LedgerEvent} (h : ledgerLines (some file) = [serde.render sampleEvent])
    (he : Holds serde (some file) e) : e = sampleEvent := by
  obtain ⟨line, hline, hparse⟩ := he
  rw [h] at hline
  rw [List.mem_singleton.1 hline, serde_lawful.reads] at hparse
  exact (Except.ok.inj hparse).symm

theorem length_lineOf (e : LedgerEvent) : (lineOf serde e).length = (writeLine e).length + 1 := by
  unfold lineOf
  rw [List.length_append]
  show (String.ofList (writeLine e)).toList.length + 1 = _
  rw [String.toList_ofList]

theorem sampleLedger_length : sampleLedger.length < 2 ^ 20 := by
  have hnumbers : (writeNumber 0).length = 1 ∧ (writeNumber 1786000000).length = 10 := by decide
  have htexts : (Json.writeStr "tester").length = 8 ∧ (Json.writeStr "test").length = 6 ∧
      (Json.writeStr "job-0").length = 7 ∧ (Json.writeStr "pass exit=0").length = 13 := by decide
  have hnames : "\x7b\"index\":".toList.length = 9 ∧ "\"timestamp\":".toList.length = 12 ∧
      "\"agent\":".toList.length = 8 ∧ ",\"action\":".toList.length = 10 ∧ ",\"target\":".toList.length = 10 ∧
      ",\"intent\":".toList.length = 10 := by decide
  have hline : (writeLine sampleEvent).length = 106 + (writeHashes sampleEvent).length := by
    have hwrite : writeLine sampleEvent = "\x7b\"index\":".toList ++ ((writeNumber 0 ++ [',']) ++ ("\"timestamp\":".toList ++
      ((writeNumber 1786000000 ++ [',']) ++ ("\"agent\":".toList ++ (Json.writeStr "tester" ++
        (",\"action\":".toList ++ (Json.writeStr "test" ++ (",\"target\":".toList ++ (Json.writeStr "job-0" ++
          (",\"intent\":".toList ++ (Json.writeStr "pass exit=0" ++ writeHashes sampleEvent))))))))))) := rfl
    rw [hwrite]
    simp only [List.length_append, hnumbers, htexts, hnames, List.length_singleton]
    omega
  have hhashes := length_writeHashes_le sampleEvent
  have hbytes := length_encode_le (lineOf serde sampleEvent)
  have htext : sampleLedger = (lineOf serde sampleEvent).flatMap String.utf8EncodeChar := by
    unfold sampleLedger fileOf textOf
    rw [utf8_ofList, List.flatMap_singleton]
  rw [length_lineOf] at hbytes
  rw [htext]
  omega

theorem ledger_tamper_evident_sample : verify sampleBlake serde (some sampleLedger) = .ok (1, sampleHash) ∧
    verify sampleBlake serde (some (lineFeed :: sampleLedger)) = .ok (1, sampleHash) ∧
    ∃ es, ledgerEvents serde (some sampleLedger) = .ok es ∧
      ledgerEvents serde (some (lineFeed :: sampleLedger)) = .ok es := by
  obtain ⟨hlines, hlines'⟩ := ledgerLines_sample
  have hlen := sampleLedger_length
  refine ⟨verify_sample hlines, verify_sample hlines', ledger_tamper_evident sampleBlake serde ?_ ?_ ?_ ?_
    (verify_sample hlines) (verify_sample hlines')⟩
  · rintro bytes hbytes
    rw [← Option.some.inj hbytes]
    exact Nat.lt_trans hlen (by decide)
  · rintro bytes hbytes
    rw [← Option.some.inj hbytes, List.length_cons]
    omega
  · rintro e (he | he)
    · rw [holds_sample hlines he]
      decide +kernel
    · rw [holds_sample hlines' he]
      decide +kernel
  · intro e e' he he' _
    rw [holds_sample hlines he, holds_sample hlines' he']

end SovereignCore.Evidence
