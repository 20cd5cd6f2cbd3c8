import SovereignCore.Evidence.Canonical
import Mathlib.Data.Bool.AllAny

/-!
# What the canonical encoding says

The bytes stand for the statement of a receipt, as long as no count is cut short, and the decoder accepts them exactly
when the order of the dependencies does not depend on the case of their digits.

* `canonical_round_trip` : when the decoder accepts what the encoder writes;
* `canonical_injective` : one encoding, one statement;
* `canonical_bytes_collide` : two statements with one encoding, a count cut short.
-/

namespace SovereignCore.Evidence

open Text Wire Hex

variable {r : Receipt}

/-! ## Round trip -/

theorem decoderLimits_sane : decoderLimits.Sane := by
  unfold Limits.Sane
  decide

theorem decodeCanonical_wire (blake : List UInt8 → Vector UInt8 32) (hv : Valid r) (hw : Within decoderLimits r) :
    decodeCanonical blake (wire r) = if wire (normal r) = wire r
      then .ok { normal r with id := hexText (blake (wire r)).toList }
      else .error "canonical encoding not in canonical order" := by
  unfold decodeCanonical
  rw [(reads_wire decoderLimits_sane hv hw).all, Result.ok_bind]
  dsimp only
  rw [if_neg (by simp), canonicalBytes_ok.2 ⟨hv.normal, rfl⟩, Result.ok_bind]
  by_cases heq : wire (normal r) = wire r
  · rw [if_pos heq, if_neg (not_not.2 heq)]
  · rw [if_neg heq, if_pos heq]

theorem canonicalBytes_id (r : Receipt) (id : String) : canonicalBytes { r with id := id } = canonicalBytes r := rfl

/-- What the encoder writes for a receipt within the decoder's limits is decoded to a receipt with the same bytes
exactly when the case of the digits does not change the order of the dependencies. -/
theorem canonical_round_trip (blake : List UInt8 → Vector UInt8 32) (r : Receipt) (b : List UInt8)
    (hb : canonicalBytes r = .ok b) (hw : Within decoderLimits r) :
    (∃ r', decodeCanonical blake b = .ok r' ∧ canonicalBytes r' = .ok b) ↔ CaseOrdered r.dependencies := by
  obtain ⟨hv, rfl⟩ := canonicalBytes_ok.1 hb
  rw [decodeCanonical_wire blake hv hw, ← wire_normal_eq decoderLimits_sane hv hw]
  by_cases heq : wire (normal r) = wire r
  · rw [if_pos heq]
    refine ⟨fun _ => heq, fun _ => ⟨_, rfl, ?_⟩⟩
    rw [canonicalBytes_id, canonicalBytes_ok]
    exact ⟨hv.normal, heq.symm⟩
  · rw [if_neg heq]
    constructor
    · rintro ⟨r', hr', -⟩
      cases hr'
    · exact fun h => absurd h heq

/-! A receipt with two dependencies, and the same with the first digit of the second in uppercase. -/

def orderedReceipt : Receipt :=
  sampleReceipt .qemu [String.ofList ('a' :: List.replicate 63 '0'), String.ofList ('b' :: List.replicate 63 '0')]

def mixedReceipt : Receipt :=
  sampleReceipt .qemu [String.ofList ('a' :: List.replicate 63 '0'), String.ofList ('B' :: List.replicate 63 '0')]

/-- What the two receipts show by evaluation. -/
theorem samples_evaluated :
    ((checkIdentity orderedReceipt = .ok () ∧ checkContent orderedReceipt = .ok ()) ∧
      checkIdentity mixedReceipt = .ok () ∧ checkContent mixedReceipt = .ok ()) ∧
    (Within decoderLimits orderedReceipt ∧ Within decoderLimits mixedReceipt) ∧
    CaseOrdered orderedReceipt.dependencies ∧ wire (normal mixedReceipt) ≠ wire mixedReceipt := by
  unfold Within CaseOrdered
  decide +kernel

theorem orderedReceipt_valid : Valid orderedReceipt := valid_iff.1 samples_evaluated.1.1

theorem mixedReceipt_valid : Valid mixedReceipt := valid_iff.1 samples_evaluated.1.2

def orderedDigest : Vector UInt8 32 :=
  #v[160, 89, 209, 89, 241, 89, 231, 251, 103, 101, 90, 173, 210, 242, 180, 220, 34, 182, 56, 143, 229, 183, 78, 253,
    129, 206, 254, 251, 252, 18, 80, 17]

theorem canonical_round_trip_sample : ∃ b r', canonicalBytes orderedReceipt = .ok b ∧
    decodeCanonical (fun _ => orderedDigest) b = .ok r' ∧ canonicalBytes r' = .ok b := by
  have hb : canonicalBytes orderedReceipt = .ok (wire orderedReceipt) :=
    canonicalBytes_ok.2 ⟨orderedReceipt_valid, rfl⟩
  obtain ⟨-, ⟨hw, -⟩, horder, -⟩ := samples_evaluated
  obtain ⟨r', hr', hb'⟩ := (canonical_round_trip (fun _ => orderedDigest) orderedReceipt _ hb hw).2 horder
  exact ⟨_, r', hb, hr', hb'⟩

/-- The encoding of a receipt whose dependencies mix the case of their digits is refused. -/
theorem canonical_round_trip_fails : Within decoderLimits mixedReceipt ∧
    ∃ b, canonicalBytes mixedReceipt = .ok b ∧
      ∀ blake, decodeCanonical blake b = .error "canonical encoding not in canonical order" := by
  obtain ⟨-, ⟨-, hw⟩, -, hne⟩ := samples_evaluated
  refine ⟨hw, _, canonicalBytes_ok.2 ⟨mixedReceipt_valid, rfl⟩, fun blake => ?_⟩
  rw [decodeCanonical_wire blake mixedReceipt_valid hw, if_neg hne]

/-! ## One encoding, one statement -/

def prefixLimits : Limits := ⟨2 ^ 64 - 1, 2 ^ 32 - 1⟩

def fieldsOf (r : Receipt) : Receipt :=
  { r with
    id := ""
    inputArtifacts := []
    outputArtifacts := []
    assertions := []
    dependencies := []
    outputDigest := lower r.outputDigest
    externalRefs := []
    ledger := r.ledger.map fun l => { l with hash := lower l.hash }
    lease := r.lease.map fun l => { l with holdId := lower l.holdId }
    requiredFeatures := [] }

/-- Two receipts say the same: they differ in the id, the order and repetition of list items and the letter case of
digests at most. -/
structure SameStatement (a b : Receipt) : Prop where
  fields : fieldsOf a = fieldsOf b
  inputs : ∀ x, x ∈ a.inputArtifacts ↔ x ∈ b.inputArtifacts
  outputs : ∀ x, x ∈ a.outputArtifacts ↔ x ∈ b.outputArtifacts
  assertions : a.assertions.Perm b.assertions
  dependencies : ∀ x, x ∈ a.dependencies.map lower ↔ x ∈ b.dependencies.map lower
  refs : ∀ x, x ∈ a.externalRefs ↔ x ∈ b.externalRefs
  features : ∀ x, x ∈ a.requiredFeatures ↔ x ∈ b.requiredFeatures

theorem fieldsOf_normal (hv : Valid r) : fieldsOf (normal r) = fieldsOf r := by
  have hledger : (r.ledger.map fun l => { l with hash := lower l.hash }).map
      (fun l => ({ l with hash := lower l.hash } : LedgerRef)) =
      r.ledger.map fun l => { l with hash := lower l.hash } := by
    cases hl : r.ledger with
    | none => rfl
    | some l => simp only [Option.map_some, lower_lower (hv.ledger l hl)]
  have hlease : (r.lease.map fun l => { l with holdId := lower l.holdId }).map
      (fun l => ({ l with holdId := lower l.holdId } : LeaseRef)) =
      r.lease.map fun l => { l with holdId := lower l.holdId } := by
    cases hl : r.lease with
    | none => rfl
    | some l => simp only [Option.map_some, lower_lower (hv.lease l hl).1]
  unfold fieldsOf
  simp only [normal]
  rw [hledger, hlease, lower_lower hv.output, ← hv.schema, ← hv.version, ← hv.reserved]

theorem mem_iff_of_sortedUnique {l m : List String} (h : sortedUnique l = sortedUnique m) (x : String) :
    x ∈ l ↔ x ∈ m := by
  rw [← mem_sortedUnique, h, mem_sortedUnique]

theorem sameStatement_of_normal {a b : Receipt} (ha : Valid a) (hb : Valid b) (h : normal a = normal b) :
    SameStatement a b where
  fields := by rw [← fieldsOf_normal ha, h, fieldsOf_normal hb]
  inputs := mem_iff_of_sortedUnique (congrArg Receipt.inputArtifacts h)
  outputs := mem_iff_of_sortedUnique (congrArg Receipt.outputArtifacts h)
  assertions := by
    have hsort : sortAssertions a.assertions = sortAssertions b.assertions := congrArg Receipt.assertions h
    have hpa : (sortAssertions a.assertions).Perm a.assertions := List.perm_insertionSort _ _
    have hpb : (sortAssertions b.assertions).Perm b.assertions := List.perm_insertionSort _ _
    rw [hsort] at hpa
    exact hpa.symm.trans hpb
  dependencies := by
    intro x
    have hdeps : (sortedUnique a.dependencies).map lower = (sortedUnique b.dependencies).map lower :=
      congrArg Receipt.dependencies h
    have hmem := congrArg (x ∈ ·) hdeps
    simp only [List.mem_map, mem_sortedUnique, eq_iff_iff] at hmem ⊢
    exact hmem
  refs := mem_iff_of_sortedUnique (congrArg Receipt.externalRefs h)
  features := mem_iff_of_sortedUnique (congrArg Receipt.requiredFeatures h)

/-- Every text has a length that fits into eight bytes, as texts in memory do. -/
def TextsFit (r : Receipt) : Prop := ∀ s ∈ r.texts, (utf8 s).length ≤ prefixLimits.text

theorem prefixLimits_sane : prefixLimits.Sane := by
  unfold Limits.Sane
  decide

section Counts

variable {a b : Receipt} {u v : List UInt8}

theorem text_cancel {s t : String} (hta : TextsFit a) (htb : TextsFit b) (hs : s ∈ a.texts) (ht : t ∈ b.texts)
    (h : putStr s ++ u = putStr t ++ v) : s = t ∧ u = v :=
  (reads_text_of prefixLimits_sane (hta s hs)).cancel (reads_text_of prefixLimits_sane (htb t ht)) h

theorem texts_cancel {l m : List String} (hta : TextsFit a) (htb : TextsFit b) (hl : ∀ s ∈ l, s ∈ a.texts)
    (hm : ∀ s ∈ m, s ∈ b.texts) (hn : l.dedup.length = m.dedup.length)
    (h : putList putStr (sortedUnique l) ++ u = putList putStr (sortedUnique m) ++ v) :
    sortedUnique l = sortedUnique m ∧ u = v := by
  have hreads : ∀ s ∈ sortedUnique l, ReadsTo (Cursor.text prefixLimits) s (putStr s) :=
    fun s hs => reads_text_of prefixLimits_sane (hta s (hl s (mem_sortedUnique.1 hs)))
  have hreads' : ∀ s ∈ sortedUnique m, ReadsTo (Cursor.text prefixLimits) s (putStr s) :=
    fun s hs => reads_text_of prefixLimits_sane (htb s (hm s (mem_sortedUnique.1 hs)))
  have hlen : (sortedUnique l).length = (sortedUnique m).length := by
    rw [length_sortedUnique, length_sortedUnique, hn]
  exact putList_cancel hlen hreads hreads' h

theorem byte_cancel {x y : UInt8} (h : [x] ++ u = [y] ++ v) : x = y ∧ u = v := List.cons.inj h

/-- Receipts with the same bytes and the same counts have one normal form. -/
theorem normal_of_counts (hva : Valid a) (hvb : Valid b) (hta : TextsFit a) (htb : TextsFit b)
    (hcounts : a.counts = b.counts) (h : wire a = wire b) : normal a = normal b := by
  simp only [Receipt.counts, List.cons.injEq, and_true] at hcounts
  obtain ⟨hin, hout, hass, hdep, href, hfeat⟩ := hcounts
  unfold wire layout at h
  replace h := List.append_cancel_left (List.append_cancel_left h)
  obtain ⟨hkind, h⟩ := text_cancel hta htb (by simp [Receipt.texts]) (by simp [Receipt.texts]) h
  obtain ⟨htier, h⟩ := text_cancel hta htb (by rw [← hva.envClass]; simp [Receipt.texts])
    (by rw [← hvb.envClass]; simp [Receipt.texts]) h
  obtain ⟨hresult, h⟩ := byte_cancel h
  obtain ⟨hrepo, h⟩ := text_cancel hta htb (by simp [Receipt.texts]) (by simp [Receipt.texts]) h
  obtain ⟨hcommit, h⟩ := text_cancel hta htb (by simp [Receipt.texts]) (by simp [Receipt.texts]) h
  obtain ⟨hdirty, h⟩ := (reads_flag "" _).cancel (reads_flag "" _) h
  obtain ⟨htoolchain, h⟩ := text_cancel hta htb (by simp [Receipt.texts]) (by simp [Receipt.texts]) h
  obtain ⟨hprocedure, h⟩ := text_cancel hta htb (by simp [Receipt.texts]) (by simp [Receipt.texts]) h
  obtain ⟨hmachine, h⟩ := text_cancel hta htb (by simp [Receipt.texts]) (by simp [Receipt.texts]) h
  obtain ⟨henv, h⟩ := text_cancel hta htb (by simp [Receipt.texts]) (by simp [Receipt.texts]) h
  obtain ⟨hinputs, h⟩ := texts_cancel hta htb (fun s hs => mem_texts_of_list (by simp [hs]))
    (fun s hs => mem_texts_of_list (by simp [hs])) hin h
  obtain ⟨houtputs, h⟩ := texts_cancel hta htb (fun s hs => mem_texts_of_list (by simp [hs]))
    (fun s hs => mem_texts_of_list (by simp [hs])) hout h
  obtain ⟨hassertions, h⟩ := putList_cancel (by rw [length_sortAssertions, length_sortAssertions, hass])
    (reads_assertions prefixLimits_sane hta) (reads_assertions prefixLimits_sane htb) h
  have hda : ∀ d ∈ sortedUnique a.dependencies, isHash d = true :=
    fun d hd => hva.dependencies d (mem_sortedUnique.1 hd)
  have hdb : ∀ d ∈ sortedUnique b.dependencies, isHash d = true :=
    fun d hd => hvb.dependencies d (mem_sortedUnique.1 hd)
  rw [putList_raw hda, putList_raw hdb] at h
  obtain ⟨hdependencies, h⟩ := putList_cancel
    (by rw [List.length_map, List.length_map, length_sortedUnique, length_sortedUnique, hdep])
    (reads_lower hda) (reads_lower hdb) h
  obtain ⟨hdeclared, h⟩ := byte_cancel h
  obtain ⟨hobserved, h⟩ := byte_cancel h
  obtain ⟨hauthority, h⟩ := text_cancel hta htb (by simp [Receipt.texts]) (by simp [Receipt.texts]) h
  obtain ⟨hdigest, h⟩ := (reads_hashHex hva.output).cancel (reads_hashHex hvb.output) h
  obtain ⟨hrefs, h⟩ := texts_cancel hta htb (fun s hs => mem_texts_of_list (by simp [hs]))
    (fun s hs => mem_texts_of_list (by simp [hs])) href h
  obtain ⟨hledger, h⟩ := (reads_ledger hva.ledger).cancel (reads_ledger hvb.ledger) h
  obtain ⟨hlease, h⟩ := (reads_lease prefixLimits_sane (fun x hx => (hva.lease x hx).1)
    (fun x hx => hta _ (by simp [Receipt.texts, hx]))).cancel (reads_lease prefixLimits_sane
    (fun x hx => (hvb.lease x hx).1) (fun x hx => htb _ (by simp [Receipt.texts, hx]))) h
  obtain ⟨htime, h⟩ := (reads_u64be a.timestamp.toNat_lt).cancel (reads_u64be b.timestamp.toNat_lt) h
  obtain ⟨hfeatures, -⟩ := texts_cancel hta htb (fun s hs => mem_texts_of_list (by simp [hs]))
    (fun s hs => mem_texts_of_list (by simp [hs])) hfeat h
  have htier : a.tier = b.tier := by
    apply Option.some.inj
    rw [← Tier.parse_asStr, htier, Tier.parse_asStr]
  have hresult : a.result = b.result := by
    apply Option.some.inj
    rw [← Verdict.fromCode_code, hresult, Verdict.fromCode_code]
  have hdeclared : a.declaredMutation = b.declaredMutation := by
    apply Option.some.inj
    rw [← Mutation.fromCode_code, hdeclared, Mutation.fromCode_code]
  have hobserved : a.observedMutation = b.observedMutation := by
    apply Option.some.inj
    rw [← Mutation.fromCode_code, hobserved, Mutation.fromCode_code]
  unfold normal
  rw [hkind, htier, hresult, UInt64.toNat_inj.1 htime, hrepo, hcommit, hdirty, htoolchain, hprocedure, hmachine, henv,
    hinputs, houtputs, hassertions, hdependencies, hdeclared, hobserved, hauthority, hdigest, hrefs, hledger, hlease,
    hfeatures]

theorem sortedUnique_eq_of_mem_iff {l m : List String} (h : ∀ x, x ∈ l ↔ x ∈ m) : sortedUnique l = sortedUnique m := by
  apply (sortedUnique_pairwise l).eq_of_mem_iff (sortedUnique_pairwise m)
  intro x
  rw [mem_sortedUnique, mem_sortedUnique, h]

theorem length_dedup_of_mem_iff {l m : List String} (h : ∀ x, x ∈ l ↔ x ∈ m) : l.dedup.length = m.dedup.length := by
  rw [← length_sortedUnique, ← length_sortedUnique, sortedUnique_eq_of_mem_iff h]

theorem length_putList_assertions {as bs : List Assertion} (h : as.Perm bs) :
    (putList putAssertion (sortAssertions as)).length = (putList putAssertion (sortAssertions bs)).length := by
  have hsort : (sortAssertions as).Perm (sortAssertions bs) :=
    (List.perm_insertionSort _ as).trans (h.trans (List.perm_insertionSort _ bs).symm)
  unfold putList
  rw [List.length_append, List.length_append, hsort.length_eq, (hsort.flatMap_right putAssertion).length_eq]

theorem length_putList_raw {ds : List String} (h : ∀ d ∈ ds, isHash d = true) :
    (putList id (ds.map raw)).length = 4 + 32 * ds.length := by
  unfold putList putU32
  rw [List.length_append, length_beBytes, List.flatMap_map, List.length_flatMap,
    List.map_congr_left (g := fun _ => 32) fun d hd => show (id (raw d)).length = 32 from length_raw (h d hd)]
  simp [Nat.mul_comm]

/-- Receipts that say the same with the same bytes have the same counts. -/
theorem counts_of_sameStatement (hva : Valid a) (hvb : Valid b) (h : wire a = wire b) (hs : SameStatement a b) :
    a.counts = b.counts := by
  have hf := hs.fields
  unfold fieldsOf at hf
  injection hf with _ _ _ hkind htier hresult htime hrepo hcommit hdirty htoolchain hprocedure hmachine henv _ _ _ _
    hdeclared hobserved hauthority _ _ hledger hlease _ _
  have hlen := congrArg List.length h
  unfold wire layout at hlen
  rw [sortedUnique_eq_of_mem_iff hs.inputs, sortedUnique_eq_of_mem_iff hs.outputs, sortedUnique_eq_of_mem_iff hs.refs,
    sortedUnique_eq_of_mem_iff hs.features] at hlen
  simp only [List.length_append] at hlen
  rw [length_putList_assertions hs.assertions,
    length_putList_raw fun d hd => hva.dependencies d (mem_sortedUnique.1 hd),
    length_putList_raw fun d hd => hvb.dependencies d (mem_sortedUnique.1 hd),
    ← ledgerBytes_lower hva.ledger, ← ledgerBytes_lower hvb.ledger,
    ← leaseBytes_lower fun x hx => (hva.lease x hx).1, ← leaseBytes_lower fun x hx => (hvb.lease x hx).1,
    length_raw hva.output, length_raw hvb.output, length_sortedUnique, length_sortedUnique,
    hkind, htier, hresult, hrepo, hcommit, hdirty, htoolchain, hprocedure, hmachine, henv, hauthority, hledger, hlease,
    htime, hdeclared, hobserved] at hlen
  simp only [Nat.add_left_cancel_iff, Nat.add_right_cancel_iff] at hlen
  have hdeps := Nat.eq_of_mul_eq_mul_left (by decide) hlen
  unfold Receipt.counts
  rw [length_dedup_of_mem_iff hs.inputs, length_dedup_of_mem_iff hs.outputs, hs.assertions.length_eq,
    length_dedup_of_mem_iff hs.refs, length_dedup_of_mem_iff hs.features, hdeps]

end Counts

/-- Receipts with one encoding say the same exactly when their lists have the same numbers of different items; they do
when no count is cut short. -/
theorem canonical_injective (a b : Receipt) (x : List UInt8) (ha : canonicalBytes a = .ok x)
    (hb : canonicalBytes b = .ok x) (hta : TextsFit a) (htb : TextsFit b) :
    (SameStatement a b ↔ a.counts = b.counts) ∧
    ((∀ n ∈ a.counts, n < 2 ^ 32) → (∀ n ∈ b.counts, n < 2 ^ 32) → SameStatement a b) := by
  obtain ⟨hva, hxa⟩ := canonicalBytes_ok.1 ha
  obtain ⟨hvb, hxb⟩ := canonicalBytes_ok.1 hb
  have hwire : wire a = wire b := hxa.symm.trans hxb
  refine ⟨⟨counts_of_sameStatement hva hvb hwire, ?_⟩, ?_⟩
  · intro hcounts
    exact sameStatement_of_normal hva hvb (normal_of_counts hva hvb hta htb hcounts hwire)
  · intro hna hnb
    -- no count is cut short, so the strict decoder reads both back
    have hra := reads_wire prefixLimits_sane hva ⟨hta, fun n hn => Nat.le_sub_one_of_lt (hna n hn)⟩
    have hrb := reads_wire prefixLimits_sane hvb ⟨htb, fun n hn => Nat.le_sub_one_of_lt (hnb n hn)⟩
    rw [hwire] at hra
    exact sameStatement_of_normal hva hvb (hra.inj hrb)

/-- The receipt above with its dependencies turned around and repeated. -/
def repeatedReceipt : Receipt :=
  { orderedReceipt with dependencies := orderedReceipt.dependencies.reverse ++ orderedReceipt.dependencies }

theorem canonical_injective_sample : SameStatement orderedReceipt repeatedReceipt ∧
    orderedReceipt.counts = repeatedReceipt.counts := by
  have hv : Valid repeatedReceipt := by
    apply valid_iff.1
    decide +kernel
  have hbytes : wire orderedReceipt = wire repeatedReceipt := by decide +kernel
  have hcounts : orderedReceipt.counts = repeatedReceipt.counts := by decide +kernel
  have hta : TextsFit orderedReceipt := by
    unfold TextsFit
    decide +kernel
  have htb : TextsFit repeatedReceipt := by
    unfold TextsFit
    decide +kernel
  refine ⟨(canonical_injective orderedReceipt repeatedReceipt (wire orderedReceipt) ?_ ?_ hta htb).1.2 hcounts, hcounts⟩
  · exact canonicalBytes_ok.2 ⟨orderedReceipt_valid, rfl⟩
  · exact canonicalBytes_ok.2 ⟨hv, hbytes⟩

/-! A receipt with `2 ^ 32` dependencies, all spellings of one digest, writes the count zero. The bytes of the digest
are chosen so that what follows reads as the authority of a receipt without dependencies. -/

/-- The texts that differ from a text in lowercase in the case of letters at most. -/
def spellings : List Char → List (List Char)
  | [] => [[]]
  | c :: cs => (spellings cs).map (c :: ·) ++ (spellings cs).map (c.toUpper :: ·)

theorem length_spellings (cs : List Char) : (spellings cs).length = 2 ^ cs.length := by
  induction cs with
  | nil => rfl
  | cons c cs ih =>
    rw [spellings, List.length_append, List.length_map, List.length_map, ih, List.length_cons]
    omega

theorem nodup_spellings {cs : List Char} (h : ∀ c ∈ cs, c ≠ c.toUpper) : (spellings cs).Nodup := by
  induction cs with
  | nil => simp [spellings]
  | cons c cs ih =>
    have hcs := ih fun d hd => h d (List.mem_cons_of_mem _ hd)
    have hc := h c List.mem_cons_self
    rw [spellings, List.nodup_append]
    refine ⟨hcs.map (List.cons_injective), hcs.map (List.cons_injective), ?_⟩
    intro x hx y hy hxy
    obtain ⟨v, -, rfl⟩ := List.mem_map.1 hx
    obtain ⟨w, -, rfl⟩ := List.mem_map.1 hy
    exact hc (List.cons.inj hxy).1

theorem lower_spellings {cs v : List Char} (h : ∀ c ∈ cs, c.toLower = c ∧ c.toUpper.toLower = c)
    (hv : v ∈ spellings cs) : v.map Char.toLower = cs := by
  induction cs generalizing v with
  | nil =>
    rw [List.mem_singleton.1 hv]
    rfl
  | cons c cs ih =>
    have hcs := fun w hw => ih (v := w) (fun d hd => h d (List.mem_cons_of_mem _ hd)) hw
    obtain ⟨hlow, hup⟩ := h c List.mem_cons_self
    rw [spellings, List.mem_append, List.mem_map, List.mem_map] at hv
    obtain ⟨w, hw, rfl⟩ | ⟨w, hw, rfl⟩ := hv
    · rw [List.map_cons, hlow, hcs w hw]
    · rw [List.map_cons, hup, hcs w hw]

theorem length_of_mem_spellings {cs v : List Char} (h : ∀ c ∈ cs, c.toLower = c ∧ c.toUpper.toLower = c)
    (hv : v ∈ spellings cs) : v.length = cs.length := by
  rw [← lower_spellings h hv, List.length_map]

theorem hex_spellings {cs v : List Char} (h : ∀ c ∈ cs, isHexDigit c = true ∧ isHexDigit c.toUpper = true)
    (hv : v ∈ spellings cs) : ∀ c ∈ v, isHexDigit c = true := by
  induction cs generalizing v with
  | nil =>
    rw [List.mem_singleton.1 hv]
    simp
  | cons c cs ih =>
    have hcs := fun w hw => ih (v := w) (fun d hd => h d (List.mem_cons_of_mem _ hd)) hw
    obtain ⟨hlow, hup⟩ := h c List.mem_cons_self
    rw [spellings, List.mem_append, List.mem_map, List.mem_map] at hv
    obtain ⟨w, hw, rfl⟩ | ⟨w, hw, rfl⟩ := hv
    · exact List.forall_mem_cons.2 ⟨hlow, hcs w hw⟩
    · exact List.forall_mem_cons.2 ⟨hup, hcs w hw⟩

def letters : List Char := (List.replicate 8 ['c', 'a', 'a', 'a']).flatten

theorem letters_cases : ∀ c ∈ letters, c ≠ c.toUpper ∧ (c.toLower = c ∧ c.toUpper.toLower = c) ∧
    isHexDigit c = true ∧ isHexDigit c.toUpper = true := by
  refine List.all_iff_forall_prop.1 ?_
  decide

def spelled (v : List Char) : String := String.ofList ("00000000002000000000".toList ++ v ++ "000000000000".toList)

/-- The first ten bytes of the digest: two mutation codes and a length of `2 ^ 37`. -/
def digestHead : List Char := ['\x00', '\x00', '\x00', '\x00', '\x00', ' ', '\x00', '\x00', '\x00', '\x00']

def digestTail : List Char := List.replicate 8 'ʪ' ++ List.replicate 6 '\x00'

def bytesOf (cs : List Char) : List UInt8 := cs.flatMap String.utf8EncodeChar

def digestBytes : List UInt8 := bytesOf digestHead ++ bytesOf digestTail

def crossedDeps : List String := (spellings letters).map spelled

theorem spelled_facts {v : List Char} (hv : v ∈ spellings letters) :
    isHash (spelled v) = true ∧ raw (spelled v) = digestBytes := by
  have hhash : isHash (spelled v) = true := by
    apply isHash_iff.2
    unfold spelled
    rw [String.toList_ofList]
    constructor
    · have hlen := length_of_mem_spellings (fun c hc => (letters_cases c hc).2.1) hv
      rw [List.length_append, List.length_append, hlen]
      rfl
    · have hhex := hex_spellings (fun c hc => (letters_cases c hc).2.2) hv
      have h1 : ∀ c ∈ "00000000002000000000".toList, isHexDigit c = true := by
        apply List.all_eq_true.1
        decide
      have h2 : ∀ c ∈ "000000000000".toList, isHexDigit c = true := by
        apply List.all_eq_true.1
        decide
      intro c hc
      rw [List.mem_append, List.mem_append] at hc
      obtain (hc | hc) | hc := hc
      · exact h1 c hc
      · exact hhex c hc
      · exact h2 c hc
  refine ⟨hhash, ?_⟩
  have hlower : lower (spelled v) = spelled letters := by
    unfold lower spelled
    rw [String.toList_ofList, List.map_append, List.map_append,
      lower_spellings (fun c hc => (letters_cases c hc).2.1) hv]
    rfl
  rw [← raw_lower hhash, hlower]
  decide

theorem crossedDeps_raw : (sortedUnique crossedDeps).map raw = List.replicate (2 ^ 32) digestBytes := by
  have hnodup : crossedDeps.Nodup := by
    apply (nodup_spellings fun c hc => (letters_cases c hc).1).map
    intro v w hvw
    have hlist := String.ofList_injective hvw
    exact List.append_cancel_left (List.append_cancel_right hlist)
  rw [List.eq_replicate_iff]
  constructor
  · rw [List.length_map, length_sortedUnique, List.dedup_eq_self.2 hnodup, crossedDeps, List.length_map,
      length_spellings]
    rfl
  · intro x hx
    obtain ⟨d, hd, rfl⟩ := List.mem_map.1 hx
    obtain ⟨v, hv, rfl⟩ := List.mem_map.1 (mem_sortedUnique.1 hd)
    exact (spelled_facts hv).2

/-- The authority that says the digests again: the first without its head, `n` whole ones, and ten zero bytes. -/
def crossedAuthority (n : Nat) : List Char :=
  digestTail ++ (List.replicate n (digestHead ++ digestTail)).flatten ++ List.replicate 10 '\x00'

theorem bytesOf_append (cs ds : List Char) : bytesOf (cs ++ ds) = bytesOf cs ++ bytesOf ds := List.flatMap_append

theorem bytesOf_crossedAuthority (n : Nat) : bytesOf (crossedAuthority n) =
    bytesOf digestTail ++ ((List.replicate n digestBytes).flatten ++ List.replicate 10 0) := by
  have hwhole : bytesOf (List.replicate n (digestHead ++ digestTail)).flatten =
      (List.replicate n digestBytes).flatten := by
    induction n with
    | zero => rfl
    | succ n ih =>
      rw [List.replicate_succ, List.flatten_cons, bytesOf_append, ih, bytesOf_append, List.replicate_succ,
        List.flatten_cons]
      rfl
  unfold crossedAuthority
  rw [bytesOf_append, bytesOf_append, hwhole, List.append_assoc]
  rfl

theorem length_crossedAuthority (n : Nat) : (bytesOf (crossedAuthority n)).length = 32 * (n + 1) := by
  have htail : (bytesOf digestTail).length = 22 := rfl
  have hdigest : digestBytes.length = 32 := rfl
  rw [bytesOf_crossedAuthority, List.length_append, List.length_append, List.length_flatten, List.map_replicate,
    List.sum_replicate_nat, htail, hdigest, List.length_replicate]
  omega

def crossed (dependencies : List String) (authority : String) : Receipt :=
  { sampleReceipt .qemu dependencies with authority := authority }

theorem crossed_valid {ds : List String} (authority : String) (h : ∀ d ∈ ds, isHash d = true) :
    Valid (crossed ds authority) := by
  have hv : Valid (sampleReceipt .qemu []) := by
    apply valid_iff.1
    decide +kernel
  exact ⟨hv.schema, hv.version, hv.features, hv.reserved, hv.kind, hv.repo, hv.commit, hv.procedure, hv.machine,
    hv.envClass, hv.inputs, hv.outputs, hv.output, hv.proven, hv.named, hv.distinct, h, hv.declared, hv.tier, rfl,
    hv.ledger, hv.lease⟩

/-- The dependencies, the two mutation codes and the authority stand side by side. -/
theorem wire_crossed {ds es : List String} {s t : String}
    (h : putList id ((sortedUnique ds).map raw) ++ ([0] ++ ([0] ++ putStr s)) =
      putList id ((sortedUnique es).map raw) ++ ([0] ++ ([0] ++ putStr t))) :
    wire (crossed ds s) = wire (crossed es t) := by
  have hback := fun back => congrArg (· ++ back) h
  simp only [List.append_assoc] at hback
  unfold wire layout
  simp only [crossed, sampleReceipt, Mutation.code, List.append_cancel_left_eq]
  apply hback

theorem wire_crossedAuthority {n : Nat} (hn : n + 1 = 2 ^ 32) :
    wire (crossed crossedDeps "") = wire (crossed [] (String.ofList (crossedAuthority n))) := by
  apply wire_crossed
  have hlen : (utf8 (String.ofList (crossedAuthority n))).length = 2 ^ 37 := by
    rw [utf8_ofList]
    have := length_crossedAuthority n
    unfold bytesOf at this
    omega
  have hcount : putU32 (List.replicate (n + 1) digestBytes).length = putU32 0 := by
    rw [List.length_replicate, hn]
    decide
  have hhead : bytesOf digestHead = [0] ++ ([0] ++ beBytes 8 (2 ^ 37)) := rfl
  have hempty : ([0] ++ ([0] ++ putStr "") : List UInt8) = List.replicate 10 0 := rfl
  rw [crossedDeps_raw, ← hn, hempty]
  unfold putList putStr
  rw [hcount, hlen, utf8_ofList, ← bytesOf, bytesOf_crossedAuthority, List.flatMap_id, List.replicate_succ,
    List.flatten_cons]
  show putU32 0 ++ (bytesOf digestHead ++ bytesOf digestTail ++ _) ++ _ = putU32 0 ++ [] ++ _
  rw [hhead]
  simp only [List.append_assoc, List.nil_append, List.cons_append]

theorem crossedAuthority_ne (n : Nat) : String.ofList (crossedAuthority n) ≠ "" := by
  intro he
  have hlen := congrArg (fun s => s.toList.length) he
  rw [String.toList_ofList, crossedAuthority, List.length_append, List.length_append, digestTail] at hlen
  simp at hlen

/-- Two receipts with one encoding, of which one names an authority and the other none. -/
theorem canonical_bytes_collide : ∃ a b x, canonicalBytes a = .ok x ∧ canonicalBytes b = .ok x ∧
    a.authority = "" ∧ b.authority ≠ "" ∧ ¬ SameStatement a b := by
  obtain ⟨n, hn⟩ : ∃ n, n + 1 = 2 ^ 32 := ⟨2 ^ 32 - 1, by omega⟩
  have hdeps : ∀ d ∈ crossedDeps, isHash d = true := by
    intro d hd
    obtain ⟨v, hv, rfl⟩ := List.mem_map.1 hd
    exact (spelled_facts hv).1
  refine ⟨crossed crossedDeps "", crossed [] (String.ofList (crossedAuthority n)), _,
    canonicalBytes_ok.2 ⟨crossed_valid _ hdeps, rfl⟩,
    canonicalBytes_ok.2 ⟨crossed_valid _ (by simp), wire_crossedAuthority hn⟩, rfl, crossedAuthority_ne n, ?_⟩
  intro hsame
  have hauth : (fieldsOf (crossed crossedDeps "")).authority =
      (fieldsOf (crossed [] (String.ofList (crossedAuthority n)))).authority := by rw [hsame.fields]
  exact crossedAuthority_ne n hauth.symm

end SovereignCore.Evidence
