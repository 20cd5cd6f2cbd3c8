import SovereignCore.Evidence.Encoding
import Mathlib.Data.List.Pairwise

/-!
# The normal form of a receipt

A receipt that can be encoded is read back as its normal form: lists in order and each item once, hex digests in
lowercase, no id.

* `Valid`, `wire` : the checks and the bytes of `canonicalBytes`;
* `normal`, `reads_wire` : the normal form, and that it is read back;
* `wire_normal_eq` : when the normal form has the bytes of the receipt.
-/

namespace SovereignCore.Evidence

open Text Wire Hex

/-! ## Hexadecimal text -/

section Hexadecimal

variable {s : String} {cs : List Char} {ch : Char}

theorem isHexDigit_toNat (h : isHexDigit ch = true) : ch.toNat < 128 := by
  simp only [isHexDigit, Char.isDigit, ge_iff_le, Bool.and_eq_true, decide_eq_true_eq] at h
  obtain ⟨-, h⟩ | ⟨-, h⟩ | ⟨-, h⟩ := h
  · exact Nat.lt_of_le_of_lt (show ch.toNat ≤ 57 from h) (by decide)
  · exact Nat.lt_of_le_of_lt (show ch.toNat ≤ 102 from h) (by decide)
  · exact Nat.lt_of_le_of_lt (show ch.toNat ≤ 70 from h) (by decide)

/-- The facts about single digits, by trying the ASCII characters. -/
theorem hexDigit_facts (h : isHexDigit ch = true) : digitValue ch < 16 ∧
    Nat.digitChar (digitValue ch) = ch.toLower ∧ isHexDigit ch.toLower = true ∧
    digitValue ch.toLower = digitValue ch ∧ ch.toLower.toLower = ch.toLower := by
  have hall : ∀ n < 128, isHexDigit (Char.ofNat n) = true → digitValue (Char.ofNat n) < 16 ∧
      Nat.digitChar (digitValue (Char.ofNat n)) = (Char.ofNat n).toLower ∧
      isHexDigit (Char.ofNat n).toLower = true ∧ digitValue (Char.ofNat n).toLower = digitValue (Char.ofNat n) ∧
      (Char.ofNat n).toLower.toLower = (Char.ofNat n).toLower := by
    decide +kernel
  have hch := hall ch.toNat (isHexDigit_toNat h)
  rw [Char.ofNat_toNat] at hch
  exact hch h

theorem length_utf8_of_hex (h : ∀ ch ∈ s.toList, isHexDigit ch = true) : (utf8 s).length = s.toList.length := by
  unfold utf8
  rw [List.length_flatMap]
  have hone : ∀ ch ∈ s.toList, (String.utf8EncodeChar ch).length = 1 := by
    intro ch hch
    have hlt := isHexDigit_toNat (h ch hch)
    rw [String.length_utf8EncodeChar, Char.utf8Size_eq_one_iff]
    show ch.toNat ≤ 127
    omega
  rw [List.map_congr_left hone]
  simp

theorem utf8ByteSize_eq (s : String) : s.utf8ByteSize = (utf8 s).length := by
  rw [← String.size_toByteArray, ← utf8_toByteArray, List.size_toByteArray]

theorem isHash_iff : isHash s = true ↔ s.toList.length = 64 ∧ ∀ ch ∈ s.toList, isHexDigit ch = true := by
  unfold isHash isHex
  rw [utf8ByteSize_eq]
  simp only [Bool.decide_and, Bool.and_eq_true, decide_eq_true_eq, List.all_eq_true]
  constructor
  · rintro ⟨hlen, -, hall⟩
    exact ⟨by rw [← length_utf8_of_hex hall, hlen], hall⟩
  · rintro ⟨hlen, hall⟩
    refine ⟨by rw [length_utf8_of_hex hall, hlen], ?_, hall⟩
    rintro rfl
    simp at hlen

theorem toList_lower (s : String) : (lower s).toList = s.toList.map Char.toLower := by
  unfold lower
  rw [String.toList_ofList]

def raw (s : String) : List UInt8 := rawBytes s.toList

theorem hexDigits_rawBytes (h : ∀ ch ∈ cs, isHexDigit ch = true) (n : Nat) (hlen : cs.length = 2 * n) :
    hexDigits (rawBytes cs) = cs.map Char.toLower ∧ (rawBytes cs).length = n := by
  induction n generalizing cs with
  | zero =>
    rw [List.length_eq_zero_iff.1 hlen]
    exact ⟨rfl, rfl⟩
  | succ n ih =>
    match cs, hlen with
    | [], hlen => simp at hlen
    | [_], hlen => simp at hlen; omega
    | hi :: lo :: cs, hlen =>
      have hcs := ih (fun ch hch => h ch (List.mem_cons_of_mem _ (List.mem_cons_of_mem _ hch)))
        (by simp only [List.length_cons] at hlen; omega)
      obtain ⟨hhi, hhic, -⟩ := hexDigit_facts (h hi List.mem_cons_self)
      obtain ⟨hlo, hloc, -⟩ := hexDigit_facts (h lo (List.mem_cons_of_mem _ List.mem_cons_self))
      have hbyte : (UInt8.ofNat (16 * digitValue hi + digitValue lo)).toNat = 16 * digitValue hi + digitValue lo := by
        rw [UInt8.toNat_ofNat', Nat.mod_eq_of_lt (by omega)]
      constructor
      · rw [rawBytes, hexDigits, List.flatMap_cons, hbyte, ← hexDigits, hcs.1,
          show (16 * digitValue hi + digitValue lo) / 16 = digitValue hi by omega,
          show (16 * digitValue hi + digitValue lo) % 16 = digitValue lo by omega, hhic, hloc]
        rfl
      · rw [rawBytes, List.length_cons, hcs.2]

theorem hexText_raw (h : isHash s = true) : hexText (raw s) = lower s := by
  obtain ⟨hlen, hall⟩ := isHash_iff.1 h
  unfold hexText lower raw
  rw [(hexDigits_rawBytes hall 32 hlen).1]

theorem length_raw (h : isHash s = true) : (raw s).length = 32 := by
  obtain ⟨hlen, hall⟩ := isHash_iff.1 h
  exact (hexDigits_rawBytes hall 32 hlen).2

theorem isHash_lower (h : isHash s = true) : isHash (lower s) = true := by
  obtain ⟨hlen, hall⟩ := isHash_iff.1 h
  apply isHash_iff.2
  rw [toList_lower]
  refine ⟨by rw [List.length_map, hlen], ?_⟩
  intro ch hch
  obtain ⟨d, hd, rfl⟩ := List.mem_map.1 hch
  exact (hexDigit_facts (hall d hd)).2.2.1

theorem lower_lower (h : isHash s = true) : lower (lower s) = lower s := by
  obtain ⟨-, hall⟩ := isHash_iff.1 h
  have hmap : (lower s).toList.map Char.toLower = s.toList.map Char.toLower := by
    rw [toList_lower, List.map_map]
    apply List.map_congr_left
    intro ch hch
    exact (hexDigit_facts (hall ch hch)).2.2.2.2
  show String.ofList ((lower s).toList.map Char.toLower) = lower s
  rw [hmap]
  rfl

theorem raw_lower (h : isHash s = true) : raw (lower s) = raw s := by
  apply hexText_inj.1
  rw [hexText_raw (isHash_lower h), hexText_raw h, lower_lower h]

theorem isHash_hexText {bs : List UInt8} (h : bs.length = 32) :
    isHash (hexText bs) = true ∧ lower (hexText bs) = hexText bs := by
  have hdigit : ∀ n < 16, isHexDigit (Nat.digitChar n) = true ∧ (Nat.digitChar n).toLower = Nat.digitChar n := by
    decide +kernel
  have hall : ∀ ch ∈ hexDigits bs, isHexDigit ch = true ∧ ch.toLower = ch := by
    intro ch hch
    obtain ⟨x, -, hx⟩ := List.mem_flatMap.1 hch
    have hlt := x.toNat_lt
    simp only [List.mem_cons, List.not_mem_nil, or_false] at hx
    obtain rfl | rfl := hx
    · exact hdigit _ (by omega)
    · exact hdigit _ (by omega)
  have hlen : (hexDigits bs).length = 64 := by
    unfold hexDigits
    simp [List.length_flatMap, h]
  constructor
  · rw [isHash_iff, hexText, String.toList_ofList]
    exact ⟨hlen, fun ch hch => (hall ch hch).1⟩
  · unfold lower hexText
    rw [String.toList_ofList, List.map_congr_left fun ch hch => (hall ch hch).2, List.map_id']

theorem hexToBytes_eq (h : isHash s = true) : hexToBytes s = some (raw s) := by
  have hb : s.utf8ByteSize = 64 ∧ isHex s = true := by
    simpa [isHash] using h
  unfold hexToBytes
  rw [if_neg]
  · rfl
  · simp [hb.1, hb.2]

end Hexadecimal

/-! ## The checks and the bytes -/

@[simp] theorem refuse_ok {p : Prop} [Decidable p] {text : String} {u : Unit} : refuse p text = .ok u ↔ ¬ p := by
  unfold refuse
  by_cases h : p
  · simp [h]
  · simp [h]

/-- What the encoder requires of a receipt. -/
structure Valid (r : Receipt) : Prop where
  schema : r.schema = schemaName
  version : r.version = schemaVersion
  features : ∀ f ∈ r.requiredFeatures, f ∈ knownFeatures
  reserved : r.reserved = ""
  kind : r.kind ≠ ""
  repo : r.repo ≠ ""
  commit : checkCommit r.commit = .ok ()
  procedure : r.procedure ≠ ""
  machine : r.machine ≠ ""
  envClass : r.envClass = r.tier.asStr
  inputs : ∀ i ∈ r.inputArtifacts, checkDigest "input_artifacts" i = .ok ()
  outputs : ∀ i ∈ r.outputArtifacts, checkDigest "output_artifacts" i = .ok ()
  output : isHash r.outputDigest = true
  proven : r.assertions = [] → r.result ≠ .pass
  named : ∀ a ∈ r.assertions, a.id ≠ ""
  distinct : (r.assertions.map Assertion.id).Nodup
  dependencies : ∀ d ∈ r.dependencies, isHash d = true
  declared : r.observedMutation.severity ≤ r.declaredMutation.severity
  tier : checkTierMutation r.tier r.observedMutation = .ok ()
  authority : checkAuthority r = .ok ()
  ledger : ∀ l, r.ledger = some l → isHash l.hash = true
  lease : ∀ l, r.lease = some l → isHash l.holdId = true ∧ blank l.resource = false

theorem checkAssertions_ok {as : List Assertion} {seen : List String} : checkAssertions seen as = .ok () ↔
    (∀ a ∈ as, a.id ≠ "") ∧ (as.map Assertion.id).Nodup ∧ ∀ a ∈ as, a.id ∉ seen := by
  induction as generalizing seen with
  | nil => simp [checkAssertions]
  | cons a as ih =>
    rw [List.forall_mem_cons, List.forall_mem_cons, List.map_cons, List.nodup_cons, List.mem_map]
    simp only [checkAssertions, Result.check_ok, refuse_ok, ih, List.mem_cons, not_or]
    constructor
    · rintro ⟨hne, hseen, hnames, hnodup, hfresh⟩
      refine ⟨⟨hne, hnames⟩, ⟨?_, hnodup⟩, hseen, fun b hb => (hfresh b hb).2⟩
      rintro ⟨b, hb, hba⟩
      exact (hfresh b hb).1 hba
    · rintro ⟨⟨hne, hnames⟩, ⟨hfresh, hnodup⟩, hseen, hrest⟩
      exact ⟨hne, hseen, hnames, hnodup, fun b hb => ⟨fun hba => hfresh ⟨b, hb, hba⟩, hrest b hb⟩⟩

theorem checkLedgerHash_ok {l : Option LedgerRef} :
    checkLedgerHash l = .ok () ↔ ∀ x, l = some x → isHash x.hash = true := by
  cases l with
  | none => simp [checkLedgerHash]
  | some x => simp [checkLedgerHash]

theorem checkLease_ok {l : Option LeaseRef} :
    checkLease l = .ok () ↔ ∀ x, l = some x → isHash x.holdId = true ∧ blank x.resource = false := by
  cases l with
  | none => simp [checkLease]
  | some x => simp [checkLease]

theorem valid_iff {r : Receipt} : checkIdentity r = .ok () ∧ checkContent r = .ok () ↔ Valid r := by
  unfold checkIdentity checkContent checkDigestList
  simp only [Result.check_ok, refuse_ok, Result.forM_ok, checkAssertions_ok, checkLedgerHash_ok, checkLease_ok,
    not_not, not_and, not_lt, Bool.not_eq_false]
  constructor
  · rintro ⟨⟨h1, h2, h3, h4, h5, h6, h7, h8, h9, h10, h11, h12, h13⟩,
      h14, ⟨h15, h16, -⟩, h17, h18, h19, h20, h21, h22⟩
    exact ⟨h1, h2, h3, h4, h5, h6, h7, h8, h9, h10, h11, h12, h13, h14, h15, h16, h17, h18, h19, h20, h21, h22⟩
  · intro h
    exact ⟨⟨h.schema, h.version, h.features, h.reserved, h.kind, h.repo, h.commit, h.procedure, h.machine, h.envClass,
      h.inputs, h.outputs, h.output⟩, h.proven, ⟨h.named, h.distinct, by simp⟩, h.dependencies, h.declared, h.tier,
      h.authority, h.ledger, h.lease⟩

def ledgerBytes : Option LedgerRef → List UInt8
  | some ledger => 1 :: (putU64 ledger.index ++ raw ledger.hash)
  | none => [0]

def leaseBytes : Option LeaseRef → List UInt8
  | some lease => 1 :: (raw lease.holdId ++ putStr lease.resource)
  | none => [0]

def wire (r : Receipt) : List UInt8 :=
  layout r (raw r.outputDigest) ((sortedUnique r.dependencies).map raw) (ledgerBytes r.ledger) (leaseBytes r.lease)

variable {r r' : Receipt} {b : List UInt8}

theorem mapM_hexToBytes {ds : List String} (h : ∀ d ∈ ds, isHash d = true) :
    (ds.mapM fun d => orError "bad dependency hash" (hexToBytes d)) = .ok (ds.map raw) := by
  induction ds with
  | nil => rfl
  | cons d ds ih =>
    rw [List.mapM_cons, hexToBytes_eq (h d List.mem_cons_self), ih fun x hx => h x (List.mem_cons_of_mem _ hx)]
    rfl

theorem putLedger_eq {l : Option LedgerRef} (h : ∀ x, l = some x → isHash x.hash = true) :
    putLedger l = .ok (ledgerBytes l) := by
  cases l with
  | none => rfl
  | some x =>
    unfold putLedger
    dsimp only
    rw [hexToBytes_eq (h x rfl)]
    rfl

theorem putLease_eq {l : Option LeaseRef} (h : ∀ x, l = some x → isHash x.holdId = true ∧ blank x.resource = false) :
    putLease l = .ok (leaseBytes l) := by
  cases l with
  | none => rfl
  | some x =>
    have hx := (h x rfl).1
    unfold putLease
    dsimp only
    rw [hexToBytes_eq (isHash_lower hx), raw_lower hx]
    rfl

/-- The encoder writes the bytes of every valid receipt, and refuses the others. -/
theorem canonicalBytes_ok : canonicalBytes r = .ok b ↔ Valid r ∧ b = wire r := by
  have hbytes : Valid r → canonicalBytes r = .ok (wire r) := by
    intro hv
    obtain ⟨h1, h2⟩ := valid_iff.2 hv
    unfold canonicalBytes
    rw [h1, Result.ok_bind, hexToBytes_eq hv.output]
    show (checkContent r >>= _) = _
    rw [h2, Result.ok_bind, mapM_hexToBytes fun d hd => hv.dependencies d (mem_sortedUnique.1 hd), Result.ok_bind,
      putLedger_eq hv.ledger, Result.ok_bind, putLease_eq hv.lease, Result.ok_bind]
    rfl
  constructor
  · intro h
    have hv : Valid r := by
      unfold canonicalBytes at h
      simp only [Result.bind_ok] at h
      obtain ⟨_, h1, _, -, _, h2, -⟩ := h
      exact valid_iff.1 ⟨h1, h2⟩
    exact ⟨hv, Except.ok.inj (h.symm.trans (hbytes hv))⟩
  · rintro ⟨hv, rfl⟩
    exact hbytes hv

/-! ## Reading back -/

def Receipt.texts (r : Receipt) : List String :=
  [r.kind, r.repo, r.commit, r.toolchain, r.procedure, r.machine, r.envClass, r.authority] ++ r.inputArtifacts ++
    r.outputArtifacts ++ (r.assertions.flatMap fun a => [a.id, a.expected, a.observed, a.source, a.note]) ++
    r.externalRefs ++ r.lease.toList.map LeaseRef.resource ++ r.requiredFeatures

def Receipt.counts (r : Receipt) : List Nat :=
  [r.inputArtifacts.dedup.length, r.outputArtifacts.dedup.length, r.assertions.length, r.dependencies.dedup.length,
    r.externalRefs.dedup.length, r.requiredFeatures.dedup.length]

def Within (limits : Limits) (r : Receipt) : Prop :=
  (∀ s ∈ r.texts, (utf8 s).length ≤ limits.text) ∧ ∀ n ∈ r.counts, n ≤ limits.count

def Limits.Sane (limits : Limits) : Prop := limits.text < 2 ^ 64 ∧ limits.count < 2 ^ 32

/-- A receipt as the decoder returns it: lists in order, each item once, digests in lowercase, no id. -/
def normal (r : Receipt) : Receipt :=
  { r with
    schema := schemaName
    version := schemaVersion
    id := ""
    inputArtifacts := sortedUnique r.inputArtifacts
    outputArtifacts := sortedUnique r.outputArtifacts
    assertions := sortAssertions r.assertions
    dependencies := (sortedUnique r.dependencies).map lower
    outputDigest := lower r.outputDigest
    externalRefs := sortedUnique r.externalRefs
    ledger := r.ledger.map fun l => { l with hash := lower l.hash }
    lease := r.lease.map fun l => { l with holdId := lower l.holdId }
    requiredFeatures := sortedUnique r.requiredFeatures
    reserved := "" }

section Reading

variable {limits : Limits}

theorem reads_byte (x : UInt8) : ReadsTo Cursor.byte x [x] := by
  unfold Cursor.byte Cursor.bytes
  apply (ReadsTo.take (w := [x]) rfl).last
  exact ReadsTo.pure x

theorem reads_u32be {n : Nat} (h : n < 2 ^ 32) : ReadsTo Cursor.u32be n (putU32 n) := by
  apply (ReadsTo.take (length_beBytes 4 n)).last
  rw [beValue_beBytes (by omega)]
  exact ReadsTo.pure n

theorem reads_u64be {n : Nat} (h : n < 2 ^ 64) : ReadsTo Cursor.u64be n (beBytes 8 n) := by
  apply (ReadsTo.take (length_beBytes 8 n)).last
  rw [beValue_beBytes (by omega)]
  exact ReadsTo.pure n

theorem reads_text_of {s : String} (hl : limits.Sane) (h : (utf8 s).length ≤ limits.text) :
    ReadsTo (Cursor.text limits) s (putStr s) := by
  apply (reads_u64be (Nat.lt_of_le_of_lt h hl.1)).bind
  apply (ReadsTo.refuseIf (by omega)).bind_nil
  apply (ReadsTo.take rfl).last
  exact ReadsTo.orRefuse (fromUtf8_utf8 s)

theorem reads_list {α : Type} {item : Cursor α} {put : α → List UInt8} {l : List α} (hl : limits.Sane)
    (hn : l.length ≤ limits.count) (h : ∀ a ∈ l, ReadsTo item a (put a)) :
    ReadsTo (Cursor.list limits item) l (putList put l) := by
  have hcount : ReadsTo (Cursor.count limits) l.length (putU32 l.length) := by
    apply (reads_u32be (Nat.lt_of_le_of_lt hn hl.2)).last
    exact (ReadsTo.refuseIf (by omega)).bind_nil (ReadsTo.pure _)
  exact hcount.bind (ReadsTo.times h)

theorem reads_hashHex {s : String} (h : isHash s = true) : ReadsTo Cursor.hashHex (lower s) (raw s) := by
  apply (ReadsTo.take (length_raw h)).last
  rw [hexText_raw h]
  exact ReadsTo.pure _

theorem reads_flag (name : String) (x : Bool) : ReadsTo (Cursor.flag name) x (putBool x) := by
  apply (reads_byte _).last
  cases x
  · exact ReadsTo.orRefuse rfl
  · exact ReadsTo.orRefuse rfl

theorem reads_assertion {a : Assertion} (hl : limits.Sane)
    (h : ∀ s ∈ [a.id, a.expected, a.observed, a.source, a.note], (utf8 s).length ≤ limits.text) :
    ReadsTo (Cursor.assertion limits) a (putAssertion a) := by
  apply (reads_text_of hl (h _ (by simp))).bind
  apply (reads_text_of hl (h _ (by simp))).bind
  apply (reads_text_of hl (h _ (by simp))).bind
  apply (reads_flag _ _).bind
  apply (reads_text_of hl (h _ (by simp))).bind
  apply (reads_text_of hl (h _ (by simp))).last
  exact ReadsTo.pure a

theorem reads_ledger {l : Option LedgerRef} (h : ∀ x, l = some x → isHash x.hash = true) :
    ReadsTo Cursor.ledger (l.map fun x => { x with hash := lower x.hash }) (ledgerBytes l) := by
  cases l with
  | none => exact (reads_flag _ false).last (ReadsTo.pure none)
  | some x =>
    apply (reads_flag _ true).bind (w := [1])
    apply (reads_u64be x.index.toNat_lt).bind
    apply (reads_hashHex (h x rfl)).last
    rw [UInt64.ofNat_toNat]
    exact ReadsTo.pure _

theorem reads_lease {l : Option LeaseRef} (hl : limits.Sane) (h : ∀ x, l = some x → isHash x.holdId = true)
    (ht : ∀ x, l = some x → (utf8 x.resource).length ≤ limits.text) :
    ReadsTo (Cursor.lease limits) (l.map fun x => { x with holdId := lower x.holdId }) (leaseBytes l) := by
  cases l with
  | none => exact (reads_flag _ false).last (ReadsTo.pure none)
  | some x =>
    apply (reads_flag _ true).bind (w := [1])
    apply (reads_hashHex (h x rfl)).bind
    apply (reads_text_of hl (ht x rfl)).last
    exact ReadsTo.pure _

theorem putList_raw {ds : List String} (h : ∀ d ∈ ds, isHash d = true) :
    putList id (ds.map raw) = putList raw (ds.map lower) := by
  unfold putList
  rw [List.length_map, List.length_map, List.flatMap_map, List.flatMap_map]
  congr 1
  apply List.flatMap_congr
  intro d hd
  exact (raw_lower (h d hd)).symm

theorem reads_lower {ds : List String} (h : ∀ d ∈ ds, isHash d = true) :
    ∀ x ∈ ds.map lower, ReadsTo Cursor.hashHex x (raw x) := by
  intro x hx
  obtain ⟨d, hd, rfl⟩ := List.mem_map.1 hx
  have hreads := reads_hashHex (isHash_lower (h d hd))
  rwa [lower_lower (h d hd)] at hreads

/-- The dependencies are written as raw bytes and read in lowercase. -/
theorem reads_dependencies {ds : List String} (hl : limits.Sane) (hn : ds.length ≤ limits.count)
    (h : ∀ d ∈ ds, isHash d = true) :
    ReadsTo (Cursor.list limits Cursor.hashHex) (ds.map lower) (putList id (ds.map raw)) := by
  rw [putList_raw h]
  exact reads_list hl (by rw [List.length_map]; exact hn) (reads_lower h)

theorem putList_cancel {α : Type} {item : Cursor α} {put : α → List UInt8} {l m : List α} {u v : List UInt8}
    (hn : l.length = m.length) (hl : ∀ a ∈ l, ReadsTo item a (put a)) (hm : ∀ a ∈ m, ReadsTo item a (put a))
    (h : putList put l ++ u = putList put m ++ v) : l = m ∧ u = v := by
  unfold putList at h
  rw [hn, List.append_assoc, List.append_assoc] at h
  have hreads := ReadsTo.times hl
  rw [hn] at hreads
  exact hreads.cancel (ReadsTo.times hm) (List.append_cancel_left h)

theorem length_sortAssertions (as : List Assertion) : (sortAssertions as).length = as.length :=
  (List.perm_insertionSort _ as).length_eq

theorem mem_sortAssertions {as : List Assertion} {a : Assertion} : a ∈ sortAssertions as ↔ a ∈ as :=
  (List.perm_insertionSort _ as).mem_iff

theorem reads_texts {items : List String} (hl : limits.Sane) (hn : items.dedup.length ≤ limits.count)
    (h : ∀ s ∈ items, (utf8 s).length ≤ limits.text) :
    ReadsTo (Cursor.list limits (Cursor.text limits)) (sortedUnique items) (putList putStr (sortedUnique items)) :=
  reads_list hl (by rw [length_sortedUnique]; exact hn) fun s hs => reads_text_of hl (h s (mem_sortedUnique.1 hs))

theorem mem_texts_of_list {s : String}
    (h : s ∈ r.inputArtifacts ∨ s ∈ r.outputArtifacts ∨ s ∈ r.externalRefs ∨ s ∈ r.requiredFeatures) :
    s ∈ r.texts := by
  unfold Receipt.texts
  simp only [List.mem_append]
  tauto

theorem reads_assertions (hl : limits.Sane) (htext : ∀ s ∈ r.texts, (utf8 s).length ≤ limits.text) :
    ∀ a ∈ sortAssertions r.assertions, ReadsTo (Cursor.assertion limits) a (putAssertion a) := by
  intro a ha
  apply reads_assertion hl
  intro s hs
  apply htext
  unfold Receipt.texts
  simp only [List.mem_append, List.mem_flatMap]
  exact Or.inl (Or.inl (Or.inl (Or.inr ⟨a, mem_sortAssertions.1 ha, hs⟩)))

/-- The bytes of a valid receipt are read back as its normal form. -/
theorem reads_wire (hl : limits.Sane) (hv : Valid r) (hw : Within limits r) :
    ReadsTo (decodeFields limits) (normal r) (wire r) := by
  obtain ⟨htext, hcount⟩ := hw
  have hmem : ∀ {s : String}, s ∈ r.texts → ReadsTo (Cursor.text limits) s (putStr s) :=
    fun hs => reads_text_of hl (htext _ hs)
  unfold decodeFields wire layout
  apply (ReadsTo.take rfl).bind
  apply (ReadsTo.refuseIf (by simp)).bind_nil
  apply (reads_u32be (by decide)).bind
  apply (ReadsTo.refuseIf (by simp)).bind_nil
  apply (hmem (by simp [Receipt.texts])).bind
  apply (hmem (by rw [← hv.envClass]; simp [Receipt.texts])).bind
  apply (ReadsTo.orRefuse (Tier.parse_asStr r.tier)).bind_nil
  apply (reads_byte _).bind
  apply (ReadsTo.orRefuse (Verdict.fromCode_code r.result)).bind_nil
  apply (hmem (by simp [Receipt.texts])).bind
  apply (hmem (by simp [Receipt.texts])).bind
  apply (reads_flag _ _).bind
  apply (hmem (by simp [Receipt.texts])).bind
  apply (hmem (by simp [Receipt.texts])).bind
  apply (hmem (by simp [Receipt.texts])).bind
  apply (hmem (by simp [Receipt.texts])).bind
  apply (reads_texts hl (hcount _ (by simp [Receipt.counts])) fun s hs => htext s (mem_texts_of_list (by simp [hs]))).bind
  apply (reads_texts hl (hcount _ (by simp [Receipt.counts])) fun s hs => htext s (mem_texts_of_list (by simp [hs]))).bind
  have hassert : ReadsTo (Cursor.list limits (Cursor.assertion limits)) (sortAssertions r.assertions)
      (putList putAssertion (sortAssertions r.assertions)) := by
    apply reads_list hl _ (reads_assertions hl htext)
    rw [length_sortAssertions]
    exact hcount _ (by simp [Receipt.counts])
  apply hassert.bind
  apply (reads_dependencies hl (by rw [length_sortedUnique]; exact hcount _ (by simp [Receipt.counts]))
    fun d hd => hv.dependencies d (mem_sortedUnique.1 hd)).bind
  apply (reads_byte _).bind
  apply (ReadsTo.orRefuse (Mutation.fromCode_code _)).bind_nil
  apply (reads_byte _).bind
  apply (ReadsTo.orRefuse (Mutation.fromCode_code _)).bind_nil
  apply (hmem (by simp [Receipt.texts])).bind
  apply (reads_hashHex hv.output).bind
  apply (reads_texts hl (hcount _ (by simp [Receipt.counts])) fun s hs => htext s (mem_texts_of_list (by simp [hs]))).bind
  apply (reads_ledger hv.ledger).bind
  have hlease : ∀ x, r.lease = some x → (utf8 x.resource).length ≤ limits.text := by
    intro x hx
    apply htext
    simp [Receipt.texts, hx]
  apply (reads_lease hl (fun x hx => (hv.lease x hx).1) hlease).bind
  apply (reads_u64be r.timestamp.toNat_lt).bind
  apply (reads_texts hl (hcount _ (by simp [Receipt.counts])) fun s hs => htext s (mem_texts_of_list (by simp [hs]))).bind
  apply (reads_u32be (by decide)).last
  apply (ReadsTo.refuseIf (by simp)).bind_nil
  rw [UInt64.ofNat_toNat]
  exact ReadsTo.pure _

end Reading

/-! ## The normal form again -/

theorem sortAssertions_sortAssertions (as : List Assertion) : sortAssertions (sortAssertions as) = sortAssertions as := by
  have : Std.Total fun a b : Assertion => a.id ≤ b.id := ⟨fun a b => le_total a.id b.id⟩
  have : IsTrans Assertion fun a b => a.id ≤ b.id := ⟨fun _ _ _ => le_trans⟩
  exact (List.pairwise_insertionSort _ as).insertionSort_eq

theorem Valid.normal (hv : Valid r) : Valid (normal r) where
  schema := rfl
  version := rfl
  features := fun f hf => hv.features f (mem_sortedUnique.1 hf)
  reserved := rfl
  kind := hv.kind
  repo := hv.repo
  commit := hv.commit
  procedure := hv.procedure
  machine := hv.machine
  envClass := hv.envClass
  inputs := fun i hi => hv.inputs i (mem_sortedUnique.1 hi)
  outputs := fun i hi => hv.outputs i (mem_sortedUnique.1 hi)
  output := isHash_lower hv.output
  proven := by
    intro hnil
    apply hv.proven
    have hlen := length_sortAssertions r.assertions
    rw [show sortAssertions r.assertions = [] from hnil] at hlen
    exact List.length_eq_zero_iff.1 hlen.symm
  named := fun a ha => hv.named a (mem_sortAssertions.1 ha)
  distinct := ((List.perm_insertionSort _ r.assertions).map Assertion.id).nodup_iff.2 hv.distinct
  dependencies := by
    intro x hx
    obtain ⟨d, hd, rfl⟩ := List.mem_map.1 hx
    exact isHash_lower (hv.dependencies d (mem_sortedUnique.1 hd))
  declared := hv.declared
  tier := hv.tier
  authority := hv.authority
  ledger := by
    intro x hx
    obtain ⟨l, hl, rfl⟩ := Option.map_eq_some_iff.1 hx
    exact isHash_lower (hv.ledger l hl)
  lease := by
    intro x hx
    obtain ⟨l, hl, rfl⟩ := Option.map_eq_some_iff.1 hx
    exact ⟨isHash_lower (hv.lease l hl).1, (hv.lease l hl).2⟩

theorem ledgerBytes_lower {l : Option LedgerRef} (h : ∀ x, l = some x → isHash x.hash = true) :
    ledgerBytes (l.map fun x => { x with hash := lower x.hash }) = ledgerBytes l := by
  cases l with
  | none => rfl
  | some x => simp only [Option.map_some, ledgerBytes, raw_lower (h x rfl)]

theorem leaseBytes_lower {l : Option LeaseRef} (h : ∀ x, l = some x → isHash x.holdId = true) :
    leaseBytes (l.map fun x => { x with holdId := lower x.holdId }) = leaseBytes l := by
  cases l with
  | none => rfl
  | some x => simp only [Option.map_some, leaseBytes, raw_lower (h x rfl)]

/-- The normal form is written like the receipt, but for the order of the dependencies. -/
theorem wire_normal (hv : Valid r) : wire (normal r) = layout r (raw r.outputDigest)
    ((sortedUnique ((sortedUnique r.dependencies).map lower)).map raw) (ledgerBytes r.ledger)
    (leaseBytes r.lease) := by
  have h1 := ledgerBytes_lower hv.ledger
  have h2 := leaseBytes_lower fun x hx => (hv.lease x hx).1
  have h3 := raw_lower hv.output
  unfold wire
  simp only [normal]
  rw [h1, h2, h3]
  unfold layout
  simp only [sortedUnique_sortedUnique, sortAssertions_sortAssertions]

/-- Upper and lower case digits put the dependencies into the same order. -/
def CaseOrdered (ds : List String) : Prop := ∀ d ∈ ds, ∀ e ∈ ds, d < e → lower d < lower e

theorem caseOrdered_iff (ds : List String) : CaseOrdered ds ↔ ((sortedUnique ds).map lower).Pairwise (· < ·) := by
  rw [List.pairwise_map]
  constructor
  · intro h
    apply (sortedUnique_pairwise ds).imp_of_mem
    intro d e hd he hde
    exact h d (mem_sortedUnique.1 hd) e (mem_sortedUnique.1 he) hde
  · intro h d hd e he hde
    have hboth := List.pairwise_and_iff.2 ⟨sortedUnique_pairwise ds, h⟩
    -- a symmetric relation that holds between earlier and later items holds between any two
    have hsym : (sortedUnique ds).Pairwise fun d e => (d < e → lower d < lower e) ∧ (e < d → lower e < lower d) :=
      hboth.imp fun hde => ⟨fun _ => hde.2, fun hlt => absurd hlt (lt_asymm hde.1)⟩
    have : Std.Symm fun d e : String => (d < e → lower d < lower e) ∧ (e < d → lower e < lower d) :=
      ⟨fun _ _ hxy => ⟨hxy.2, hxy.1⟩⟩
    exact (hsym.forall (mem_sortedUnique.2 hd) (mem_sortedUnique.2 he) hde.ne).1 hde

/-- The normal form has the bytes of the receipt exactly when the case of the digits does not matter to the order. -/
theorem wire_normal_eq {limits : Limits} (hl : limits.Sane) (hv : Valid r) (hw : Within limits r) :
    wire (normal r) = wire r ↔ CaseOrdered r.dependencies := by
  have hhash : ∀ d ∈ sortedUnique r.dependencies, isHash d = true :=
    fun d hd => hv.dependencies d (mem_sortedUnique.1 hd)
  have hcount : (sortedUnique r.dependencies).length ≤ limits.count := by
    rw [length_sortedUnique]
    exact hw.2 _ (by simp [Receipt.counts])
  generalize hD : sortedUnique r.dependencies = D at hhash hcount
  have hlow : ∀ x ∈ sortedUnique (D.map lower), isHash x = true ∧ lower x = x := by
    intro x hx
    obtain ⟨d, hd, rfl⟩ := List.mem_map.1 (mem_sortedUnique.1 hx)
    exact ⟨isHash_lower (hhash d hd), lower_lower (hhash d hd)⟩
  have hfew : (sortedUnique (D.map lower)).length ≤ limits.count := by
    rw [length_sortedUnique]
    have hle := (List.dedup_sublist (D.map lower)).length_le
    rw [List.length_map] at hle
    omega
  have hdeps : wire (normal r) = wire r ↔
      putList id ((sortedUnique (D.map lower)).map raw) = putList id (D.map raw) := by
    rw [wire_normal hv, hD]
    unfold wire layout
    rw [hD]
    simp only [List.append_cancel_left_eq, List.append_cancel_right_eq]
  have hsame : putList id ((sortedUnique (D.map lower)).map raw) = putList id (D.map raw) ↔
      sortedUnique (D.map lower) = D.map lower := by
    constructor
    · intro heq
      have h1 := reads_dependencies hl hfew fun d hd => (hlow d hd).1
      have h2 := reads_dependencies hl hcount hhash
      rw [heq] at h1
      have hmap := h1.inj h2
      rwa [List.map_congr_left fun x hx => (hlow x hx).2, List.map_id'] at hmap
    · intro heq
      rw [heq, List.map_map]
      apply congrArg (putList id)
      apply List.map_congr_left
      intro d hd
      exact raw_lower (hhash d hd)
  rw [hdeps, hsame, caseOrdered_iff, hD]
  exact ⟨fun h => h ▸ sortedUnique_pairwise _, sortedUnique_of_pairwise⟩

end SovereignCore.Evidence
