import SovereignCore.Evidence.Alike

/-!
# Gate verdicts and receipt identity

A receipt id stands for the canonical bytes. They forget order and repetition of list items and the letter case of
digests; the gates count the input artifacts as they stand in the file.

* `evaluate_alike` : stores that differ in nothing a gate reads have the same verdicts;
* `gate_verdict_by_identity` : when a receipt can be replaced by another one with its id.
-/

namespace SovereignCore.Evidence

open Text Result

variable {blake : List UInt8 → Digest} {c : LineCodec} {a b : Receipt} {S S' : Store}

/-! ## Candidates -/

/-- No candidate in both stores, or candidates of the kind that are alike. -/
inductive Picked (kind : String) : Option Receipt → Option Receipt → Prop
  | none : Picked kind none none
  | some {a b : Receipt} (alike : Alike a b) (hkind : a.kind = kind) : Picked kind (some a) (some b)

theorem outranks_alike {a' b' : Receipt} (h : Alike a b) (h' : Alike a' b') : outranks a a' = outranks b b' := by
  unfold outranks
  rw [h.result, h'.result, h.tier, h'.tier, h.timestamp, h'.timestamp]

theorem considerCandidate_alike (blake : List UInt8 → Digest) (hS : StoreAlike S S') {kind : String} {x y : Option Receipt} (hxy : Picked kind x y)
    (id : String) :
    (considerCandidate blake S kind x id = none ∧ considerCandidate blake S' kind y id = none) ∨
      ∃ x' y', considerCandidate blake S kind x id = some x' ∧ considerCandidate blake S' kind y id = some y' ∧
        Picked kind x' y' := by
  have hload : Both Alike (loadReceipt blake S id) (loadReceipt blake S' id) := loadReceipt_alike hS id
  unfold considerCandidate
  generalize loadReceipt blake S id = l at hload ⊢
  generalize loadReceipt blake S' id = l' at hload ⊢
  cases hload with
  | refused e e' => exact Or.inl ⟨rfl, rfl⟩
  | @accepted a b hab =>
    right
    simp only [Except.toOption, Option.bind_eq_bind, Option.bind_some]
    rw [← hab.kind]
    by_cases hkind : a.kind ≠ kind
    · rw [if_pos hkind, if_pos hkind]
      exact ⟨x, y, rfl, rfl, hxy⟩
    · rw [if_neg hkind, if_neg hkind]
      have hall : x.all (outranks a) = y.all (outranks b) := by
        cases hxy with
        | none => rfl
        | some h _ => exact outranks_alike hab h
      rw [hall]
      split_ifs
      · exact ⟨_, _, rfl, rfl, .some hab (not_not.1 hkind)⟩
      · exact ⟨x, y, rfl, rfl, hxy⟩

theorem bestCandidate_alike (hS : StoreAlike S S') (kind : String) :
    Picked kind (bestCandidate blake S kind) (bestCandidate blake S' kind) := by
  have hids : listReceipts S = listReceipts S' := by
    unfold listReceipts
    have hmap : ∀ T : Store, (T.receipts.filterMap fun file => receiptName file.1) =
        (T.receipts.map Prod.fst).filterMap receiptName := by
      intro T
      rw [List.filterMap_map]
      rfl
    rw [hmap S, hmap S', hS.names]
  unfold bestCandidate
  rw [hids]
  generalize listReceipts S' = ids
  have hloop : ∀ x y, Picked kind x y → Picked kind (ids.foldlM (considerCandidate blake S kind) x).join
      (ids.foldlM (considerCandidate blake S' kind) y).join := by
    induction ids with
    | nil => exact fun x y hxy => hxy
    | cons id ids ih =>
      intro x y hxy
      rw [List.foldlM_cons, List.foldlM_cons]
      obtain ⟨hn, hn'⟩ | ⟨x', y', hx', hy', hxy'⟩ := considerCandidate_alike blake hS hxy id
      · rw [hn, hn']
        exact .none
      · rw [hx', hy']
        exact ih x' y' hxy'
  exact hloop _ _ .none

/-! ## Requirements -/

def refusal : Except GateLine Unit → Option Verdict
  | .error line => some line.status
  | .ok _ => none

@[simp] theorem refusal_bind {p : Prop} [Decidable p] {line : GateLine} {f : Unit → Except GateLine Unit} :
    refusal (refuseLine p line >>= f) = if p then some line.status else refusal (f ()) := by
  unfold refuseLine
  by_cases h : p
  · rw [if_pos h, if_pos h]
    rfl
  · rw [if_neg h, if_neg h]
    rfl

theorem checkHardware_alike (hS : StoreAlike S S') (h : Alike a b) (req : Requirement) :
    refusal (checkHardware c S req a) = refusal (checkHardware c S' req b) := by
  have hlease : (leaseStatus c a S).map (·.status) = (leaseStatus c b S').map (·.status) := leaseStatus_alike hS h
  unfold checkHardware
  rw [h.tier]
  by_cases ht : b.tier.isHardware = true
  · rw [if_pos ht, if_pos ht]
    generalize leaseStatus c a S = l at hlease ⊢
    generalize leaseStatus c b S' = l' at hlease ⊢
    cases l <;> cases l' <;> simp at hlease
    · rfl
    · dsimp only
      unfold refuseLine
      rw [hlease]
      split_ifs <;> rfl
  · rw [if_neg ht, if_neg ht]

theorem assertionState_alike (h : Alike a b) (req : Requirement) : assertionState req a = assertionState req b := by
  have hnote : noteAssertion req a = noteAssertion req b := by
    funext state wanted
    unfold noteAssertion
    rw [h.found]
  have hsource : noteSource req a = noteSource req b := by
    funext state wanted
    unfold noteSource
    rw [h.found]
  unfold assertionState
  rw [hnote, hsource]

theorem lease_all_alike (h : Alike a b) (resource : String) :
    (a.lease.all fun l => l.resource ≠ resource) = b.lease.all fun l => l.resource ≠ resource := by
  obtain ⟨ha, hb⟩ | ⟨x, y, ha, hb, -, hres⟩ := h.lease
  · rw [ha, hb]
  · rw [ha, hb]
    simp [hres]

theorem checkReceipt_alike (hS : StoreAlike S S') (h : Alike a b) (req : Requirement) (hkind : blank a.kind = false) :
    refusal (checkReceipt c S req a) = refusal (checkReceipt c S' req b) := by
  unfold checkReceipt
  simp only [refusal_bind, Requirement.line]
  by_cases hpass : a.result = .pass
  · simp only [h.inputs hpass hkind, assertionState_alike h req, lease_all_alike h, checkHardware_alike hS h, h.result,
      h.tier, h.machine, h.repo, h.procedure, h.dirty, h.declared, h.observed]
  · rw [if_pos hpass, if_pos (h.result ▸ hpass), h.result]

theorem chainLine_alike {r r' : Except String ChainReport} (h : Both ReportAlike r r') (req : Requirement) :
    (chainLine req a r).status = (chainLine req b r').status := by
  unfold chainLine
  cases h with
  | refused e e' => rfl
  | @accepted p q hpq =>
    dsimp only
    rw [← hpq.status]
    by_cases hpass : p.status ≠ .pass
    · rw [if_pos hpass, if_pos hpass]
      rfl
    · rw [if_neg hpass, if_neg hpass]
      have hany : ∀ kind, (p.lines.any (·.kind = kind)) = q.lines.any (·.kind = kind) := by
        intro kind
        rw [Bool.eq_iff_iff]
        simpa using hpq.kinds (not_not.1 hpass) kind
      simp only [hany]
      split_ifs <;> rfl

/-- Requirements of a kind of receipts have the same verdict, with enough fuel. -/
theorem evalKind_alike (hS : StoreAlike S S') {fuel : Nat} (hf : S.mentioned.card < fuel)
    (hf' : S'.mentioned.card < fuel) (req : Requirement) (hkind : blank req.kind = false) :
    ∃ l l', evalKind blake c fuel S req = some l ∧ evalKind blake c fuel S' req = some l' ∧ l.status = l'.status := by
  have hbest : Picked req.kind (bestCandidate blake S req.kind) (bestCandidate blake S' req.kind) :=
    bestCandidate_alike hS req.kind
  unfold evalKind
  generalize bestCandidate blake S req.kind = x at hbest ⊢
  generalize bestCandidate blake S' req.kind = y at hbest ⊢
  cases hbest with
  | none => exact ⟨_, _, rfl, rfl, rfl⟩
  | @some a b hab hk =>
    dsimp only
    have hcheck : refusal (checkReceipt c S req a) = refusal (checkReceipt c S' req b) :=
      checkReceipt_alike hS hab req (hk ▸ hkind)
    generalize checkReceipt c S req a = k at hcheck ⊢
    generalize checkReceipt c S' req b = k' at hcheck ⊢
    cases k <;> cases k' <;> simp [refusal] at hcheck
    · exact ⟨_, _, rfl, rfl, hcheck⟩
    · obtain ⟨r, r', hr, hr', hrr⟩ := verifyChain_alike blake c hS hf hf' (fileName a.id)
      rw [← hab.id, hr, hr']
      exact ⟨_, _, rfl, rfl, chainLine_alike hrr req⟩

/-! ## Gates -/

/-- A manifest that is accepted names a kind in every requirement that is not a nested gate. -/
theorem validate_kinds {g : Gate} (h : g.validate = .ok ()) :
    ∀ req ∈ g.requires, req.gateRef = none → blank req.kind = false := by
  have hcheck : ∀ (reqs : List Requirement) (seen : List String), checkRequirements g.gate seen reqs = .ok () →
      ∀ req ∈ reqs, req.gateRef = none → blank req.kind = false := by
    intro reqs
    induction reqs with
    | nil => simp
    | cons req reqs ih =>
      intro seen h
      obtain ⟨hreq, hrest⟩ := Result.check_ok.1 h
      unfold Requirement.check at hreq
      simp only [Result.check_ok, refuse_ok, not_and, Bool.not_eq_true] at hreq
      exact List.forall_mem_cons.2 ⟨hreq.2.2.2.2.1, ih _ hrest⟩
  unfold Gate.validate at h
  exact hcheck _ _ (Result.check_ok.1 h).2

theorem loadManifest_ok {manifests : Manifests} {name : String} {g : Gate} (h : loadManifest manifests name = .ok g) :
    g.validate = .ok () ∧ name ∈ manifests.map Prod.fst := by
  unfold loadManifest at h
  obtain ⟨t, ht, h⟩ := Result.bind_ok.1 h
  obtain ⟨g', hg', h⟩ := Result.bind_ok.1 h
  obtain ⟨-, h⟩ := Result.check_ok.1 h
  obtain ⟨hvalid, h⟩ := Result.check_ok.1 h
  cases h
  refine ⟨hvalid, ?_⟩
  cases hl : manifests.lookup name with
  | none =>
    rw [hl] at ht
    cases ht
  | some t' =>
    obtain ⟨l, l', hsplit, -⟩ := List.lookup_eq_some_iff.1 hl
    rw [hsplit]
    simp

theorem mapM_lines {reqs : List Requirement} {f g : Requirement → Option GateLine}
    (h : ∀ req ∈ reqs, ∃ l l', f req = some l ∧ g req = some l' ∧ l.status = l'.status) :
    ∃ ls ls', reqs.mapM f = some ls ∧ reqs.mapM g = some ls' ∧ ls.map (·.status) = ls'.map (·.status) := by
  induction reqs with
  | nil => exact ⟨[], [], rfl, rfl, rfl⟩
  | cons req reqs ih =>
    obtain ⟨⟨l, l', hl, hl', hs⟩, hreqs⟩ := List.forall_mem_cons.1 h
    obtain ⟨ls, ls', hls, hls', hss⟩ := ih hreqs
    refine ⟨l :: ls, l' :: ls', ?_, ?_, ?_⟩
    · rw [List.mapM_cons, hl, hls]
      rfl
    · rw [List.mapM_cons, hl', hls']
      rfl
    · rw [List.map_cons, List.map_cons, hs, hss]

theorem gateReport_status {g : Gate} {ls ls' : List GateLine} (h : ls.map (·.status) = ls'.map (·.status)) :
    (gateReport g ls).status = (gateReport g ls').status := by
  have hfold : ∀ l : List GateLine, l.foldl (fun status line => worse status line.status) .pass =
      (l.map (·.status)).foldl worse .pass := by
    intro l
    rw [List.foldl_map]
  unfold gateReport
  dsimp only
  rw [hfold, hfold, h]

def openManifests (manifests : Manifests) (stack : List String) : Finset String :=
  (manifests.map Prod.fst).toFinset \ stack.toFinset

theorem openManifests_lt {manifests : Manifests} {stack : List String} {child : String}
    (hname : child ∈ manifests.map Prod.fst) (hnew : child ∉ stack) :
    (openManifests manifests (stack ++ [child])).card < (openManifests manifests stack).card := by
  apply Finset.card_lt_card
  refine (Finset.ssubset_iff_of_subset ?_).2 ⟨child, ?_, ?_⟩
  · intro x hx
    simp only [openManifests, Finset.mem_sdiff, List.mem_toFinset, List.mem_append, not_or] at hx ⊢
    exact ⟨hx.1, hx.2.1⟩
  · simp only [openManifests, Finset.mem_sdiff, List.mem_toFinset]
    exact ⟨hname, hnew⟩
  · simp [openManifests]

/-- Stores that differ in nothing a gate reads have the same verdict on every gate, with enough fuel. -/
theorem evaluate_alike (blake : List UInt8 → Digest) (c : LineCodec) (hS : StoreAlike S S') {fuel : Nat}
    (hf : S.mentioned.card < fuel) (hf' : S'.mentioned.card < fuel) (manifests : Manifests) {depth : Nat} {g : Gate}
    {stack : List String} (hg : g.validate = .ok ()) (hdepth : (openManifests manifests stack).card < depth) :
    ∃ r r', evaluateInner blake c fuel S manifests depth g stack = some r ∧
      evaluateInner blake c fuel S' manifests depth g stack = some r' ∧ r.status = r'.status := by
  induction depth generalizing g stack with
  | zero => exact absurd hdepth (Nat.not_lt_zero _)
  | succ depth ih =>
    unfold evaluateInner
    have hlines : ∀ req ∈ g.requires, ∃ l l',
        evalRequirement blake c (evaluateInner blake c fuel S manifests depth) fuel S manifests stack req = some l ∧
          evalRequirement blake c (evaluateInner blake c fuel S' manifests depth) fuel S' manifests stack req =
            some l' ∧ l.status = l'.status := by
      intro req hreq
      have hkind := validate_kinds hg req hreq
      unfold evalRequirement
      cases href : req.gateRef with
      | none =>
        dsimp only
        by_cases hempty : req.kind = ""
        · rw [if_pos hempty, if_pos hempty]
          exact ⟨_, _, rfl, rfl, rfl⟩
        · rw [if_neg hempty, if_neg hempty]
          exact evalKind_alike hS hf hf' req (hkind href)
      | some child =>
        dsimp only
        by_cases hboth : req.kind ≠ ""
        · rw [if_pos hboth, if_pos hboth]
          exact ⟨_, _, rfl, rfl, rfl⟩
        rw [if_neg hboth, if_neg hboth]
        by_cases hcycle : child ∈ stack
        · rw [if_pos hcycle, if_pos hcycle]
          exact ⟨_, _, rfl, rfl, rfl⟩
        rw [if_neg hcycle, if_neg hcycle]
        cases hload : loadManifest manifests child with
        | error e => exact ⟨_, _, rfl, rfl, rfl⟩
        | ok manifest =>
          obtain ⟨hvalid, hname⟩ := loadManifest_ok hload
          have hlt := openManifests_lt hname hcycle
          obtain ⟨r, r', hr, hr', hrr⟩ := ih hvalid (by omega : (openManifests manifests (stack ++ [child])).card < depth)
          dsimp only
          rw [hr, hr']
          exact ⟨_, _, rfl, rfl, hrr⟩
    obtain ⟨ls, ls', hls, hls', hss⟩ := mapM_lines hlines
    rw [hls, hls']
    exact ⟨_, _, rfl, rfl, gateReport_status hss⟩

/-- From some fuel on, the gate has the same verdict over both stores. -/
def SameVerdict (blake : List UInt8 → Digest) (c : LineCodec) (S S' : Store) (manifests : Manifests) (g : Gate) :
    Prop :=
  ∃ n, ∀ fuel, n ≤ fuel → ∃ v, (evaluate blake c fuel S manifests g).map (·.status) = some v ∧
    (evaluate blake c fuel S' manifests g).map (·.status) = some v

theorem StoreAlike.sameVerdict (hS : StoreAlike S S') (manifests : Manifests) {g : Gate} (hg : g.validate = .ok ()) :
    SameVerdict blake c S S' manifests g := by
  refine ⟨S.mentioned.card + S'.mentioned.card + (openManifests manifests [g.gate]).card + 1, ?_⟩
  intro fuel hfuel
  have hf : S.mentioned.card < fuel := by omega
  have hf' : S'.mentioned.card < fuel := by omega
  have hdepth : (openManifests manifests [g.gate]).card < fuel := by omega
  obtain ⟨r, r', hr, hr', hrr⟩ := evaluate_alike blake c hS hf hf' manifests hg hdepth
  refine ⟨r.status, ?_, ?_⟩
  · unfold evaluate
    rw [hr]
    rfl
  · unfold evaluate
    rw [hr', hrr]
    rfl

/-! ## Replacing a receipt -/

theorem find_of_nodup {as : List Assertion} (h : (as.map Assertion.id).Nodup) (wanted : String) (x : Assertion) :
    as.find? (·.id = wanted) = some x ↔ x ∈ as ∧ x.id = wanted := by
  induction as with
  | nil => simp
  | cons y as ih =>
    rw [List.map_cons, List.nodup_cons] at h
    rw [List.find?_cons]
    by_cases hy : y.id = wanted
    · simp only [hy, decide_true]
      constructor
      · intro he
        cases he
        exact ⟨List.mem_cons_self, hy⟩
      · rintro ⟨hx, hid⟩
        obtain rfl | hx := List.mem_cons.1 hx
        · rfl
        · exact absurd (List.mem_map.2 ⟨x, hx, hid.trans hy.symm⟩) h.1
    · simp only [hy, decide_false]
      rw [ih h.2, List.mem_cons]
      constructor
      · exact fun hx => ⟨Or.inr hx.1, hx.2⟩
      · rintro ⟨rfl | hx, hid⟩
        · exact absurd hid hy
        · exact ⟨hx, hid⟩

/-- Receipts with the same bytes and the same counts are alike under one id, if their input artifacts are as many or
no gate counts them. -/
theorem alike_of_bytes {r r' : Receipt} {x : List UInt8} (hr : canonicalBytes r = .ok x)
    (hr' : canonicalBytes r' = .ok x) (ht : TextsFit r) (ht' : TextsFit r') (hcounts : r.counts = r'.counts)
    (hin : r.result ≠ .pass ∨ blank r.kind = true ∨ r.inputArtifacts.length = r'.inputArtifacts.length) (id : String) :
    Alike { r with id := id } { r' with id := id } := by
  obtain ⟨hv, hx⟩ := canonicalBytes_ok.1 hr
  obtain ⟨hv', hx'⟩ := canonicalBytes_ok.1 hr'
  have hsame := sameStatement_of_normal hv hv' (normal_of_counts hv hv' ht ht' hcounts (hx.symm.trans hx'))
  refine ⟨rfl, ?_, ?_, ?_, ?_, hsame.dependencies, ?_⟩
  · exact (canonicalBytes_id r id).trans (hr.trans (hr'.symm.trans (canonicalBytes_id r' id).symm))
  · exact hsame.fields
  · intro wanted
    apply Option.ext
    intro y
    have hperm : y ∈ r.assertions ↔ y ∈ r'.assertions := hsame.assertions.mem_iff
    show r.assertions.find? (·.id = wanted) = some y ↔ r'.assertions.find? (·.id = wanted) = some y
    rw [find_of_nodup hv.distinct, find_of_nodup hv'.distinct, hperm]
  · exact hsame.assertions.any_eq
  · intro hpass hblank
    obtain h | h | h := hin
    · exact absurd hpass h
    · exact absurd (hblank.symm.trans h) Bool.false_ne_true
    · exact h

theorem Both.refl_alike (t : Except String Receipt) : Both Alike t t := by
  cases t with
  | error e => exact .refused e e
  | ok r => exact .accepted (Alike.refl r)

theorem write_alike (store : Store) (name : String) (h : Alike a b) :
    StoreAlike (store.write name a) (store.write name b) where
  holds := rfl
  ledger := rfl
  names := rfl
  files := by
    intro other
    unfold Store.file Store.write
    dsimp only
    rw [List.lookup_cons, List.lookup_cons]
    by_cases hname : other == name
    · rw [hname]
      exact Or.inr ⟨_, _, rfl, rfl, .accepted h⟩
    · rw [Bool.eq_false_iff.2 hname]
      cases (store.receipts.filter (·.1 ≠ name)).lookup other with
      | none => exact Or.inl ⟨rfl, rfl⟩
      | some t => exact Or.inr ⟨t, t, rfl, rfl, Both.refl_alike t⟩

theorem storeReceipt_eq {r : Receipt} {x : List UInt8} (hr : canonicalBytes r = .ok x)
    (hid : lower r.id = Hex.hexText (blake x).toList) (store : Store) : storeReceipt blake store r =
      .ok (store.write (fileName (Hex.hexText (blake x).toList)) { r with id := Hex.hexText (blake x).toList }) := by
  unfold storeReceipt receiptId
  rw [hr, Result.ok_bind, Result.ok_bind, if_neg (not_not.2 hid)]

/-! ## A gate that counts -/

/-- Requires a receipt of the kind and the tier with `n` input artifacts. -/
def countingRequirement (kind : String) (tier : Tier) (n : Nat) (missing : MissingAs) : Requirement :=
  { name := "counted", kind := kind, minInputArtifacts := n, minTier := tier, missingAs := missing }

def countingGate (kind : String) (tier : Tier) (n : Nat) (missing : MissingAs) : Gate :=
  ⟨"count", [countingRequirement kind tier n missing]⟩

section Counting

variable {kind : String} {tier : Tier} {n : Nat} {missing m m' : MissingAs} {r : Receipt}

theorem countingGate_valid (h : blank kind = false) : (countingGate kind tier n missing).validate = .ok () := by
  have hname : blank "count" = false ∧ blank "counted" = false := by decide
  unfold Gate.validate checkRequirements checkRequirements Requirement.check
  simp [countingGate, countingRequirement, refuse, hname, h]

theorem tierSatisfies_self (t : Tier) : tierSatisfies t t = true := by
  cases t <;> rfl

theorem ne_empty_of_not_blank {s : String} (h : blank s = false) : s ≠ "" := by
  rintro rfl
  exact absurd h (by decide)

theorem evaluate_counting (h : blank kind = false) (fuel : Nat) :
    (evaluate blake c (fuel + 1) S [] (countingGate kind tier n missing)).map (·.status) =
      (evalKind blake c (fuel + 1) S (countingRequirement kind tier n missing)).map (·.status) := by
  have hreq : ∀ inner, evalRequirement blake c inner (fuel + 1) S [] ["count"]
      (countingRequirement kind tier n missing) =
      evalKind blake c (fuel + 1) S (countingRequirement kind tier n missing) :=
    fun inner => if_neg (ne_empty_of_not_blank h)
  have hgate : (countingGate kind tier n missing).requires = [countingRequirement kind tier n missing] ∧
      (countingGate kind tier n missing).gate = "count" := ⟨rfl, rfl⟩
  unfold evaluate evaluateInner
  rw [hgate.1, hgate.2, List.mapM_cons, List.mapM_nil, hreq]
  cases evalKind blake c (fuel + 1) S (countingRequirement kind tier n missing) with
  | none => rfl
  | some l =>
    show some (worse .pass l.status) = some l.status
    cases l.status <;> rfl

/-- What a counted receipt is checked for: the number of its input artifacts, and its lease. -/
theorem refusal_counting (hpass : r.result = .pass) (htier : r.tier = tier) :
    refusal (checkReceipt c S (countingRequirement kind tier n missing) r) =
      if r.inputArtifacts.length < n then some missing.verdict
      else refusal (checkHardware c S (countingRequirement kind tier n missing) r) := by
  unfold checkReceipt
  simp only [refusal_bind]
  simp [countingRequirement, hpass, htier, tierSatisfies_self, Requirement.line, assertionState]

theorem checkHardware_missing : refusal (checkHardware c S (countingRequirement kind tier n m) r) =
    refusal (checkHardware c S (countingRequirement kind tier n m') r) := by
  unfold checkHardware
  split
  · cases leaseStatus c r S with
    | none => rfl
    | some l =>
      unfold refuseLine
      dsimp only
      split_ifs <;> rfl
  · rfl

theorem chainLine_missing (chain : Except String ChainReport) :
    (chainLine (countingRequirement kind tier n m) r chain).status =
      (chainLine (countingRequirement kind tier n m') r chain).status := by
  unfold chainLine
  cases chain with
  | error e => rfl
  | ok report =>
    dsimp only
    split_ifs with h1 h2 h3 h4
    · rfl
    · exact absurd rfl h2
    · exact absurd rfl h2
    · exact absurd rfl h4
    · rfl

/-- Too few input artifacts are reported as the manifest wants it. -/
theorem evalKind_few (hbest : bestCandidate blake S kind = some r) (hpass : r.result = .pass) (htier : r.tier = tier)
    (hlt : r.inputArtifacts.length < n) (fuel : Nat) :
    (evalKind blake c fuel S (countingRequirement kind tier n missing)).map (·.status) = some missing.verdict := by
  have hrefuse : refusal (checkReceipt c S (countingRequirement kind tier n missing) r) = some missing.verdict := by
    rw [refusal_counting hpass htier, if_pos hlt]
  have hbest : bestCandidate blake S (countingRequirement kind tier n missing).kind = some r := hbest
  unfold evalKind
  rw [hbest]
  dsimp only
  cases hcheck : checkReceipt c S (countingRequirement kind tier n missing) r with
  | error line =>
    rw [hcheck] at hrefuse
    exact hrefuse
  | ok u =>
    rw [hcheck] at hrefuse
    cases hrefuse

/-- With enough input artifacts, what is reported does not depend on how missing proof is to be reported. -/
theorem evalKind_enough (m m' : MissingAs) (hbest : bestCandidate blake S kind = some r) (hpass : r.result = .pass) (htier : r.tier = tier)
    (hle : ¬ r.inputArtifacts.length < n) (fuel : Nat) :
    (evalKind blake c fuel S (countingRequirement kind tier n m)).map (·.status) =
      (evalKind blake c fuel S (countingRequirement kind tier n m')).map (·.status) := by
  have hrefuse : refusal (checkReceipt c S (countingRequirement kind tier n m) r) =
      refusal (checkReceipt c S (countingRequirement kind tier n m') r) := by
    rw [refusal_counting hpass htier, if_neg hle, refusal_counting hpass htier, if_neg hle]
    exact checkHardware_missing
  have hbest : ∀ m, bestCandidate blake S (countingRequirement kind tier n m).kind = some r := fun _ => hbest
  unfold evalKind
  rw [hbest, hbest]
  dsimp only
  generalize checkReceipt c S (countingRequirement kind tier n m) r = x at hrefuse ⊢
  generalize checkReceipt c S (countingRequirement kind tier n m') r = y at hrefuse ⊢
  cases x <;> cases y <;> simp [refusal] at hrefuse
  · exact congrArg some hrefuse
  · dsimp only
    rw [Option.map_map, Option.map_map]
    apply congrArg (fun f => (verifyChain blake c fuel (fileName r.id) S).map f)
    funext chain
    exact chainLine_missing chain

end Counting

/-! ## One stored receipt -/

theorem receiptName_fileName {id : String} (h : isHash id = true) (hlow : lower id = id) :
    receiptName (fileName id) = some id := by
  have hlist : (fileName id).toList = id.toList ++ ".json".toList := by
    unfold fileName
    simp [String.toList_append, toString]
  have hstrip : stripSuffix ".json" (fileName id) = some id := by
    unfold stripSuffix
    rw [hlist, if_pos (by simp), List.length_append, Nat.add_sub_cancel, List.take_left, String.ofList_toList]
  unfold receiptName
  rw [hstrip, Option.bind_some, if_pos h, hlow]

theorem verifyBytes_of {q : Receipt} {x : List UInt8} (hq : canonicalBytes q = .ok x)
    (hid : lower q.id = Hex.hexText (blake x).toList) :
    verifyBytes blake (.ok q) = .ok (q, checkConsistency q) := by
  unfold verifyBytes receiptId
  show ((canonicalBytes q >>= _) >>= _) = _
  rw [hq, Result.ok_bind, Result.ok_bind, if_neg (not_not.2 hid)]

def loneStore (id : String) (r : Receipt) : Store := (Store.mk none none []).write (fileName id) { r with id := id }

theorem bestCandidate_lone {r : Receipt} {x : List UInt8} (hr : canonicalBytes r = .ok x) :
    bestCandidate blake (loneStore (Hex.hexText (blake x).toList) r) r.kind =
      some { r with id := Hex.hexText (blake x).toList } := by
  obtain ⟨hhash, hlow⟩ := isHash_hexText (blake x).length_toList
  generalize hid : Hex.hexText (blake x).toList = id at hhash hlow ⊢
  have hlist : listReceipts (loneStore id r) = [id] := by
    unfold listReceipts loneStore Store.write
    simp [receiptName_fileName hhash hlow, sorted]
  have hsize : ¬ (id.utf8ByteSize ≠ 64 ∨ isHex id = false) := by
    have hb : id.utf8ByteSize = 64 ∧ isHex id = true := by simpa [isHash] using hhash
    simp [hb.1, hb.2]
  have hverify := verifyBytes_of (q := { r with id := id }) hr (hlow.trans hid.symm)
  have hfile : (loneStore id r).file (fileName id) = some (.ok { r with id := id }) := by
    unfold Store.file loneStore Store.write
    exact List.lookup_cons_self
  have hload : loadReceipt blake (loneStore id r) id = .ok { r with id := id } := by
    unfold loadReceipt
    dsimp only
    rw [hlow, if_neg hsize, hfile, orError, Result.ok_bind, hverify, Result.ok_bind]
    exact if_neg (not_not.2 hlow)
  have hconsider : considerCandidate blake (loneStore id r) r.kind none id = some (some { r with id := id }) := by
    unfold considerCandidate
    rw [hload]
    simp [Except.toOption]
  unfold bestCandidate
  rw [hlist, List.foldlM_cons, hconsider]
  rfl

/-- The counting gates tell a receipt from one with more input artifacts. -/
theorem counting_tells {r r' : Receipt} {x x' : List UInt8} (hr : canonicalBytes r = .ok x)
    (hr' : canonicalBytes r' = .ok x') (hpass : r.result = .pass) (hpass' : r'.result = .pass) (hkind : r'.kind = r.kind)
    (htier : r'.tier = r.tier) (hblank : blank r.kind = false)
    (hlt : r.inputArtifacts.length < r'.inputArtifacts.length) :
    ¬ ∀ m, SameVerdict blake c (loneStore (Hex.hexText (blake x).toList) r) (loneStore (Hex.hexText (blake x').toList) r')
      [] (countingGate r.kind r.tier r'.inputArtifacts.length m) := by
  intro h
  obtain ⟨n, hn⟩ := h .blocked
  obtain ⟨n', hn'⟩ := h .incomplete
  obtain ⟨v, hv1, hv2⟩ := hn (n + n' + 1) (by omega)
  obtain ⟨v', hv1', hv2'⟩ := hn' (n + n' + 1) (by omega)
  have hbest' : bestCandidate blake (loneStore (Hex.hexText (blake x').toList) r') r.kind =
      some { r' with id := Hex.hexText (blake x').toList } := hkind ▸ bestCandidate_lone hr'
  rw [evaluate_counting hblank, evalKind_few (bestCandidate_lone hr) hpass rfl hlt] at hv1 hv1'
  rw [evaluate_counting hblank] at hv2 hv2'
  have hsame := evalKind_enough (c := c) .blocked .incomplete hbest' hpass' htier (Nat.lt_irrefl _) (n + n' + 1)
  rw [hv2, hv2', ← hv1, ← hv1'] at hsame
  cases hsame

theorem SameVerdict.symm {manifests : Manifests} {g : Gate} (h : SameVerdict blake c S S' manifests g) :
    SameVerdict blake c S' S manifests g := by
  obtain ⟨n, hn⟩ := h
  refine ⟨n, ?_⟩
  intro fuel hfuel
  obtain ⟨v, h1, h2⟩ := hn fuel hfuel
  exact ⟨v, h2, h1⟩

/-- A stored receipt can be replaced by one with the same canonical bytes and the same counts, without a change in the
verdict on any gate, exactly when it is not a PASS receipt of a kind that a gate can require, or both list equally many
input artifacts. -/
theorem gate_verdict_by_identity (blake : List UInt8 → Digest) (c : LineCodec) (r r' : Receipt) (x : List UInt8)
    (hr : canonicalBytes r = .ok x) (hr' : canonicalBytes r' = .ok x) (ht : TextsFit r) (ht' : TextsFit r')
    (hcounts : r.counts = r'.counts) (hid : lower r.id = Hex.hexText (blake x).toList)
    (hid' : lower r'.id = Hex.hexText (blake x).toList) :
    (∀ store S S' manifests g, storeReceipt blake store r = .ok S → storeReceipt blake store r' = .ok S' →
        g.validate = .ok () → SameVerdict blake c S S' manifests g) ↔
      r.result ≠ .pass ∨ blank r.kind = true ∨ r.inputArtifacts.length = r'.inputArtifacts.length := by
  constructor
  · intro h
    by_contra hno
    simp only [not_or, not_not, Bool.not_eq_true] at hno
    obtain ⟨hpass, hblank, hne⟩ := hno
    have hlone : ∀ m n, SameVerdict blake c (loneStore (Hex.hexText (blake x).toList) r)
        (loneStore (Hex.hexText (blake x).toList) r') [] (countingGate r.kind r.tier n m) := fun m n =>
      h (Store.mk none none []) _ _ [] _ (storeReceipt_eq hr hid _) (storeReceipt_eq hr' hid' _)
        (countingGate_valid hblank)
    obtain ⟨hv, hx⟩ := canonicalBytes_ok.1 hr
    obtain ⟨hv', hx'⟩ := canonicalBytes_ok.1 hr'
    have hfields := (sameStatement_of_normal hv hv'
      (normal_of_counts hv hv' ht ht' hcounts (hx.symm.trans hx'))).fields
    have hkind : r.kind = r'.kind := by
      show (fieldsOf r).kind = (fieldsOf r').kind
      rw [hfields]
    have htier : r.tier = r'.tier := by
      show (fieldsOf r).tier = (fieldsOf r').tier
      rw [hfields]
    have hresult : r.result = r'.result := by
      show (fieldsOf r).result = (fieldsOf r').result
      rw [hfields]
    obtain hlt | hgt := Nat.lt_or_gt_of_ne hne
    · exact counting_tells hr hr' hpass (hresult ▸ hpass) hkind.symm htier.symm hblank hlt fun m => hlone m _
    · apply counting_tells hr' hr (hresult ▸ hpass) hpass hkind htier (hkind ▸ hblank) hgt
      intro m
      rw [← hkind, ← htier]
      exact (hlone m _).symm
  · intro hcond store S S' manifests g hS hS' hg
    rw [storeReceipt_eq hr hid] at hS
    rw [storeReceipt_eq hr' hid'] at hS'
    cases hS
    cases hS'
    have halike := alike_of_bytes hr hr' ht ht' hcounts hcond (Hex.hexText (blake x).toList)
    exact (write_alike store _ halike).sameVerdict manifests hg

/-! One input artifact, and the same listed twice. The digest is BLAKE3's of the bytes of both. -/

def countedDigest : Digest :=
  #v[17, 163, 9, 217, 136, 241, 75, 156, 113, 150, 211, 199, 115, 225, 99, 31, 180, 104, 1, 153, 246, 17, 223, 195,
    34, 250, 33, 107, 254, 77, 156, 40]

def inputDigest : String := String.ofList ("blake3:".toList ++ List.replicate 64 'b')

def listingReceipt (inputs : List String) : Receipt :=
  { sampleReceipt .qemu [] with id := hex countedDigest, inputArtifacts := inputs }

def onceReceipt : Receipt := listingReceipt [inputDigest]

def twiceReceipt : Receipt := listingReceipt [inputDigest, inputDigest]

theorem listing_bytes : canonicalBytes onceReceipt = .ok (wire onceReceipt) ∧
    canonicalBytes twiceReceipt = .ok (wire onceReceipt) := by
  have hv : Valid onceReceipt := by
    apply valid_iff.1
    decide +kernel
  have hv' : Valid twiceReceipt := by
    apply valid_iff.1
    decide +kernel
  have hwire : wire onceReceipt = wire twiceReceipt := by decide +kernel
  exact ⟨canonicalBytes_ok.2 ⟨hv, rfl⟩, canonicalBytes_ok.2 ⟨hv', hwire⟩⟩

theorem listing_id : lower (hex countedDigest) = hex countedDigest := (isHash_hexText countedDigest.length_toList).2

theorem gate_verdict_by_identity_sample :
    ¬ ∀ store S S' manifests g, storeReceipt (fun _ => countedDigest) store onceReceipt = .ok S →
      storeReceipt (fun _ => countedDigest) store twiceReceipt = .ok S' → g.validate = .ok () →
      SameVerdict (fun _ => countedDigest) serde S S' manifests g := by
  have hfit : TextsFit onceReceipt := by
    unfold TextsFit
    decide +kernel
  have hfit' : TextsFit twiceReceipt := by
    unfold TextsFit
    decide +kernel
  rw [gate_verdict_by_identity (fun _ => countedDigest) serde onceReceipt twiceReceipt (wire onceReceipt)
    listing_bytes.1 listing_bytes.2 hfit hfit' (by decide +kernel) listing_id listing_id]
  decide +kernel

/-- A gate that asks for two input artifacts is closed by a receipt that lists one twice, and not by the receipt with
the same id that lists it once. -/
theorem gate_verdict_changes :
    canonicalBytes onceReceipt = canonicalBytes twiceReceipt ∧ ∃ S S',
      storeReceipt (fun _ => countedDigest) ⟨none, none, []⟩ onceReceipt = .ok S ∧
      storeReceipt (fun _ => countedDigest) ⟨none, none, []⟩ twiceReceipt = .ok S' ∧
      (countingGate "seed-0b" .qemu 2 .blocked).validate = .ok () ∧
      (evaluate (fun _ => countedDigest) serde 2 S [] (countingGate "seed-0b" .qemu 2 .blocked)).map (·.status) =
        some .blocked ∧
      (evaluate (fun _ => countedDigest) serde 2 S' [] (countingGate "seed-0b" .qemu 2 .blocked)).map (·.status) =
        some .pass := by
  refine ⟨listing_bytes.1.trans listing_bytes.2.symm, loneStore (hex countedDigest) onceReceipt,
    loneStore (hex countedDigest) twiceReceipt, ?_, ?_, ?_, ?_, ?_⟩
  · exact storeReceipt_eq listing_bytes.1 (by exact listing_id) _
  · exact storeReceipt_eq listing_bytes.2 (by exact listing_id) _
  · exact countingGate_valid (by decide +kernel)
  · rw [evaluate_counting (by decide +kernel)]
    exact evalKind_few (bestCandidate_lone listing_bytes.1) rfl rfl (by decide) _
  · decide +kernel

end SovereignCore.Evidence
