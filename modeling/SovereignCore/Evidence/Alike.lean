import SovereignCore.Evidence.Gate
import SovereignCore.Evidence.Outcome
import SovereignCore.Evidence.Statement

/-!
# Receipts that a gate cannot tell apart

Receipts with one id and one statement, and stores whose files hold such receipts.

* `Alike`, `StoreAlike` : what a gate reads is the same;
* `verifyWithStore_alike`, `loadReceipt_alike`, `resolve_alike` : the verifications of both refuse together, or accept
  with the same status;
* `verifyChain_alike` : so do their chains, which end.
-/

namespace SovereignCore.Evidence

open Text Result

/-- Two receipts that differ in nothing a gate reads. -/
structure Alike (a b : Receipt) : Prop where
  id : a.id = b.id
  bytes : canonicalBytes a = canonicalBytes b
  fields : fieldsOf a = fieldsOf b
  found : ∀ wanted, a.assertions.find? (·.id = wanted) = b.assertions.find? (·.id = wanted)
  failing : a.assertions.any (!·.pass) = b.assertions.any (!·.pass)
  deps : DepsAlike a b
  /-- The number of input artifacts of a PASS receipt, of a kind that a gate can require. -/
  inputs : a.result = .pass → blank a.kind = false → a.inputArtifacts.length = b.inputArtifacts.length

theorem Alike.refl (a : Receipt) : Alike a a := ⟨rfl, rfl, rfl, fun _ => rfl, rfl, fun _ => Iff.rfl, fun _ _ => rfl⟩

namespace Alike

variable {a b : Receipt} (h : Alike a b)

include h

theorem field {α : Type} (f : Receipt → α) : f (fieldsOf a) = f (fieldsOf b) := by
  rw [h.fields]

theorem kind : a.kind = b.kind := h.field Receipt.kind

theorem tier : a.tier = b.tier := h.field Receipt.tier

theorem result : a.result = b.result := h.field Receipt.result

theorem timestamp : a.timestamp = b.timestamp := h.field Receipt.timestamp

theorem repo : a.repo = b.repo := h.field Receipt.repo

theorem dirty : a.dirty = b.dirty := h.field Receipt.dirty

theorem procedure : a.procedure = b.procedure := h.field Receipt.procedure

theorem machine : a.machine = b.machine := h.field Receipt.machine

theorem declared : a.declaredMutation = b.declaredMutation := h.field Receipt.declaredMutation

theorem observed : a.observedMutation = b.observedMutation := h.field Receipt.observedMutation

theorem output : lower a.outputDigest = lower b.outputDigest := h.field Receipt.outputDigest

/-- Both have no ledger reference, or references that differ in letter case at most. -/
theorem ledger : (a.ledger = none ∧ b.ledger = none) ∨ ∃ x y, a.ledger = some x ∧ b.ledger = some y ∧
    x.index = y.index ∧ lower x.hash = lower y.hash := by
  have hl : (a.ledger.map fun l => { l with hash := lower l.hash }) =
      b.ledger.map fun l => { l with hash := lower l.hash } := h.field Receipt.ledger
  cases ha : a.ledger <;> cases hb : b.ledger <;> rw [ha, hb] at hl <;> simp at hl
  · exact Or.inl ⟨rfl, rfl⟩
  · exact Or.inr ⟨_, _, rfl, rfl, hl⟩

/-- Both have no lease, or leases that differ in letter case at most. -/
theorem lease : (a.lease = none ∧ b.lease = none) ∨ ∃ x y, a.lease = some x ∧ b.lease = some y ∧
    lower x.holdId = lower y.holdId ∧ x.resource = y.resource := by
  have hl : (a.lease.map fun l => { l with holdId := lower l.holdId }) =
      b.lease.map fun l => { l with holdId := lower l.holdId } := h.field Receipt.lease
  cases ha : a.lease <;> cases hb : b.lease <;> rw [ha, hb] at hl <;> simp at hl
  · exact Or.inl ⟨rfl, rfl⟩
  · exact Or.inr ⟨_, _, rfl, rfl, hl⟩

theorem lease_none : a.lease = none ↔ b.lease = none := by
  obtain ⟨ha, hb⟩ | ⟨x, y, ha, hb, -⟩ := h.lease
  · simp [ha, hb]
  · simp [ha, hb]

theorem checkConsistency_eq : checkConsistency a = checkConsistency b := by
  unfold checkConsistency
  simp only [h.result, h.tier, h.failing, h.lease_none]

end Alike

/-! ## Verification -/

variable {blake : List UInt8 → Digest} {c : LineCodec} {a b : Receipt} {S S' : Store}

def CheckedAlike (p q : Receipt × Report) : Prop := Alike p.1 q.1 ∧ p.2.status = q.2.status

theorem verifyBytes_alike {t t' : Except String Receipt} (h : Both Alike t t') :
    Both (fun p q : Receipt × Report => Alike p.1 q.1 ∧ p.2 = q.2) (verifyBytes blake t) (verifyBytes blake t') := by
  unfold verifyBytes
  apply h.mapError.bind
  intro a b hab
  unfold receiptId
  rw [hab.bytes]
  cases canonicalBytes b with
  | error e => exact .refused _ _
  | ok bytes =>
    simp only [Result.ok_bind]
    apply Both.guard (by rw [hab.id])
    intro _
    exact .accepted ⟨hab, hab.checkConsistency_eq⟩

/-- Stores that differ in nothing a gate reads. -/
structure StoreAlike (S S' : Store) : Prop where
  holds : S.holds = S'.holds
  ledger : S.ledger = S'.ledger
  names : S.receipts.map Prod.fst = S'.receipts.map Prod.fst
  files : ∀ name, (S.file name = none ∧ S'.file name = none) ∨
    ∃ t t', S.file name = some t ∧ S'.file name = some t' ∧ Both Alike t t'

theorem checkLedgerRef_alike (hS : StoreAlike S S') (h : Alike a b) :
    checkLedgerRef c blake a S = checkLedgerRef c blake b S' := by
  unfold checkLedgerRef
  obtain ⟨ha, hb⟩ | ⟨x, y, ha, hb, hindex, hhash⟩ := h.ledger
  · rw [ha, hb]
  · rw [ha, hb]
    dsimp only
    rw [hS.ledger, hindex, hhash, h.output]

theorem loadHold_alike (hS : StoreAlike S S') {x y : String} (h : lower x = lower y) :
    Both Eq (loadHold S x) (loadHold S' y) := by
  unfold loadHold
  dsimp only
  rw [h, hS.holds]
  apply Both.guard Iff.rfl
  intro _
  cases S'.holds with
  | none => exact .refused _ _
  | some entries =>
    dsimp only
    cases entries.reduceOption.find? fun r => lower r.ledgerHash = lower y with
    | none => exact .refused _ _
    | some record => exact .accepted rfl

theorem leaseBinds_alike (h : Alike a b) {x y : LeaseRef} {record : Record} {event : LedgerEvent}
    (hhold : lower x.holdId = lower y.holdId) (hres : x.resource = y.resource) :
    LeaseBinds a x record event ↔ LeaseBinds b y record event := by
  have hiff : ∀ {a b : Receipt} {x y : LeaseRef}, Alike a b → lower x.holdId = lower y.holdId →
      x.resource = y.resource → LeaseBinds a x record event → LeaseBinds b y record event := by
    intro a b x y h hhold hres hb
    exact ⟨hb.recorded, hb.held.trans hhold, hb.action, hres ▸ hb.covered, by rw [← h.machine, ← hres]; exact hb.machine,
      by rw [← h.procedure]; exact hb.procedure, by rw [← h.output]; exact hb.output,
      by rw [← h.result]; exact hb.exit⟩
  constructor
  · exact hiff h hhold hres
  · intro hb
    exact ⟨hb.recorded, hb.held.trans hhold.symm, hb.action, hres ▸ hb.covered,
      by rw [h.machine, hres]; exact hb.machine, by rw [h.procedure]; exact hb.procedure,
      by rw [h.output]; exact hb.output, by rw [h.result]; exact hb.exit⟩

/-- The lease references are refused together, or found with the same status. -/
theorem checkLeaseRef_alike (hS : StoreAlike S S') (h : Alike a b) :
    Both (fun r r' : Option Report => r.map (·.status) = r'.map (·.status)) (checkLeaseRef c a S)
      (checkLeaseRef c b S') := by
  unfold checkLeaseRef
  obtain ⟨ha, hb⟩ | ⟨x, y, ha, hb, hhold, hres⟩ := h.lease
  · rw [ha, hb]
    exact .accepted rfl
  · rw [ha, hb]
    dsimp only
    apply (loadHold_alike hS hhold).mapError.bind
    rintro record _ rfl
    rw [hS.ledger]
    cases readEvent c S'.ledger record.ledgerIndex with
    | error e => exact .refused _ _
    | ok found =>
      rw [Result.ok_bind, Result.ok_bind]
      cases found with
      | none => exact .refused _ _
      | some event =>
        apply Both.accepted
        have hiff : leaseProblems a x record event = [] ↔ leaseProblems b y record event = [] := by
          rw [leaseProblems_eq_nil, leaseProblems_eq_nil, leaseBinds_alike h hhold hres]
        by_cases hp : leaseProblems a x record event = []
        · rw [if_pos hp, if_pos (hiff.1 hp)]
        · rw [if_neg hp, if_neg (mt hiff.2 hp)]
          show some Verdict.fail = some Verdict.fail
          rfl

theorem leaseStatus_alike (hS : StoreAlike S S') (h : Alike a b) :
    (leaseStatus c a S).map (·.status) = (leaseStatus c b S').map (·.status) := by
  unfold leaseStatus
  rw [h.tier]
  by_cases ht : b.tier.isHardware = false
  · rw [if_pos ht, if_pos ht]
  · rw [if_neg ht, if_neg ht]
    have hcheck := checkLeaseRef_alike (c := c) hS h
    obtain ⟨ha, hb⟩ | ⟨x, y, ha, hb, -⟩ := h.lease
    · rw [ha, hb]
    · rw [ha, hb]
      dsimp only
      generalize checkLeaseRef c a S = r at hcheck ⊢
      generalize checkLeaseRef c b S' = r' at hcheck ⊢
      cases hcheck with
      | refused _ _ => rfl
      | accepted hr => exact hr

theorem verifyWithStore_alike (hS : StoreAlike S S') {t t' : Except String Receipt} (h : Both Alike t t') :
    Both CheckedAlike (verifyWithStore blake c t S) (verifyWithStore blake c t' S') := by
  unfold verifyWithStore
  apply (verifyBytes_alike h).bind
  rintro ⟨a, report⟩ ⟨b, _⟩ ⟨hab, rfl⟩
  dsimp only at hab ⊢
  apply Both.ite Iff.rfl
  · exact fun _ => .accepted ⟨hab, rfl⟩
  intro _
  rw [checkLedgerRef_alike hS hab]
  cases checkLedgerRef c blake b S' with
  | error e => exact .refused _ _
  | ok problem =>
    rw [Result.ok_bind, Result.ok_bind]
    cases problem with
    | some problem => exact .accepted ⟨hab, rfl⟩
    | none =>
      apply (checkLeaseRef_alike hS hab).bind
      intro l l' hl
      have hfilter : (l.filter (·.status ≠ .pass)).map (·.status) = (l'.filter (·.status ≠ .pass)).map (·.status) := by
        cases l <;> cases l' <;> simp [Option.filter] at hl ⊢
        rw [hl]
        split <;> simp [hl]
      generalize l.filter (·.status ≠ .pass) = f at hfilter ⊢
      generalize l'.filter (·.status ≠ .pass) = f' at hfilter ⊢
      cases f <;> cases f' <;> simp at hfilter
      · dsimp only
        rw [hab.result, hab.checkConsistency_eq]
        split_ifs <;> exact .accepted ⟨hab, rfl⟩
      · exact .accepted ⟨hab, hfilter⟩

/-! ## Chains -/

theorem orError_alike (hS : StoreAlike S S') (name : String) (e : String) :
    Both (Both Alike) (orError e (S.file name)) (orError e (S'.file name)) := by
  obtain ⟨hn, hn'⟩ | ⟨t, t', ht, ht', htt⟩ := hS.files name
  · rw [hn, hn']
    exact .refused _ _
  · rw [ht, ht']
    exact .accepted htt

theorem loadReceipt_alike (hS : StoreAlike S S') (id : String) :
    Both Alike (loadReceipt blake S id) (loadReceipt blake S' id) := by
  unfold loadReceipt
  apply Both.guard Iff.rfl
  intro _
  apply (orError_alike hS _ _).bind
  intro t t' htt
  apply (verifyBytes_alike htt).bind
  rintro ⟨a, report⟩ ⟨b, report'⟩ ⟨hab, -⟩
  apply Both.guard (by rw [hab.id])
  exact fun _ => .accepted hab

theorem resolve_alike (hS : StoreAlike S S') : ResolveAlike (leaseStatus c · S) (storeResolver blake c S)
    (leaseStatus c · S') (storeResolver blake c S') := by
  intro x
  unfold storeResolver
  apply (loadReceipt_alike hS x).bind
  intro a b hab
  apply (orError_alike hS _ _).bind
  intro t t' htt
  apply (verifyWithStore_alike hS htt).bind
  rintro ⟨_, report⟩ ⟨_, report'⟩ ⟨-, hstatus⟩
  exact .accepted ⟨hab.kind, hab.tier, hab.deps, hstatus, leaseStatus_alike hS hab⟩

theorem verifyBytes_ok {t : Except String Receipt} {p : Receipt × Report} (h : verifyBytes blake t = .ok p) :
    t = .ok p.1 := by
  unfold verifyBytes at h
  simp only [Result.bind_ok, Result.mapError_ok, Result.guard_ok, Except.ok.injEq] at h
  obtain ⟨r, ht, _, -, -, rfl⟩ := h
  exact ht

theorem verifyWithStore_ok {t : Except String Receipt} {p : Receipt × Report}
    (h : verifyWithStore blake c t S = .ok p) : t = .ok p.1 := by
  unfold verifyWithStore at h
  obtain ⟨⟨r, report⟩, hbytes, h⟩ := Result.bind_ok.1 h
  have ht := verifyBytes_ok hbytes
  dsimp only at h ht
  by_cases hfail : report.status = .fail
  · rw [if_pos hfail] at h
    cases h
    exact ht
  · rw [if_neg hfail] at h
    obtain ⟨problem, -, h⟩ := Result.bind_ok.1 h
    cases problem with
    | some problem =>
      cases h
      exact ht
    | none =>
      obtain ⟨lease, -, h⟩ := Result.bind_ok.1 h
      split at h
      · cases h
        exact ht
      · split_ifs at h <;> cases h <;> exact ht

theorem loadReceipt_ok {id : String} {r : Receipt} (h : loadReceipt blake S id = .ok r) :
    S.file (fileName (lower id)) = some (.ok r) := by
  unfold loadReceipt at h
  obtain ⟨-, h⟩ := Result.guard_ok.1 h
  obtain ⟨t, ht, h⟩ := Result.bind_ok.1 h
  obtain ⟨p, hp, h⟩ := Result.bind_ok.1 h
  obtain ⟨-, h⟩ := Result.guard_ok.1 h
  cases h
  rw [verifyBytes_ok hp] at ht
  cases hf : S.file (fileName (lower id)) with
  | none =>
    rw [hf] at ht
    cases ht
  | some t' =>
    rw [hf] at ht
    cases ht
    rfl

def Store.mentioned (S : Store) : Finset String :=
  (S.receipts.flatMap fun file => (file.2.toOption.map fun r => r.dependencies.map lower).getD []).toFinset

theorem mem_mentioned {name : String} {r : Receipt} (h : S.file name = some (.ok r)) {d : String}
    (hd : d ∈ r.dependencies) : lower d ∈ S.mentioned := by
  obtain ⟨l, l', hl, -⟩ := List.lookup_eq_some_iff.1 h
  unfold Store.mentioned
  rw [List.mem_toFinset, List.mem_flatMap]
  refine ⟨(name, .ok r), ?_, ?_⟩
  · rw [hl]
    simp
  · exact List.mem_map_of_mem hd

/-- Everything below a receipt of the store is mentioned in the store. -/
theorem below_mentioned {name : String} {root : Receipt} (h : S.file name = some (.ok root)) {x : String}
    (hx : Below (storeResolver blake c S) root x) : x ∈ S.mentioned := by
  obtain ⟨d, hd, hx⟩ := hx
  induction hx with
  | refl => exact mem_mentioned h hd
  | tail _ hyz _ =>
    obtain ⟨r, report, hr, d', hd', rfl⟩ := hyz
    unfold storeResolver at hr
    obtain ⟨r', hload, hr⟩ := Result.bind_ok.1 hr
    obtain ⟨_, -, hr⟩ := Result.bind_ok.1 hr
    obtain ⟨_, -, hr⟩ := Result.bind_ok.1 hr
    cases hr
    exact mem_mentioned (loadReceipt_ok hload) hd'

/-- Two chain reports with one status; the lines of PASS reports have the same kinds. -/
structure ReportAlike (p q : ChainReport) : Prop where
  status : p.status = q.status
  kinds : p.status = .pass → ∀ kind, (∃ l ∈ p.lines, l.kind = kind) ↔ ∃ l ∈ q.lines, l.kind = kind

theorem outcome_ne_pass {lease : Receipt → Option Report} {resolve : Resolver} {root : Receipt} {rootReport : Report}
    (h : Cyclic resolve root) : outcome lease resolve root rootReport ≠ .pass := by
  unfold outcome
  rw [if_pos h]
  exact Verdict.noConfusion

/-- With fuel for the ids that the stores mention, the chains of both end alike. -/
theorem verifyChain_alike (blake : List UInt8 → Digest) (c : LineCodec) (hS : StoreAlike S S') {fuel : Nat} (hf : S.mentioned.card < fuel)
    (hf' : S'.mentioned.card < fuel) (name : String) : ∃ r r', verifyChain blake c fuel name S = some r ∧
    verifyChain blake c fuel name S' = some r' ∧ Both ReportAlike r r' := by
  unfold verifyChain
  obtain ⟨hn, hn'⟩ | ⟨t, t', ht, ht', htt⟩ := hS.files name
  · rw [hn, hn']
    exact ⟨_, _, rfl, rfl, .refused _ _⟩
  · rw [ht, ht']
    simp only [orError, Result.ok_bind]
    have hverify : Both CheckedAlike (verifyWithStore blake c t S) (verifyWithStore blake c t' S') :=
      verifyWithStore_alike hS htt
    generalize hv : verifyWithStore blake c t S = v at hverify ⊢
    generalize hv' : verifyWithStore blake c t' S' = v' at hverify ⊢
    cases hverify with
    | refused e e' => exact ⟨_, _, rfl, rfl, .refused _ _⟩
    | @accepted p q hpq =>
      obtain ⟨root, rootReport⟩ := p
      obtain ⟨root', rootReport'⟩ := q
      obtain ⟨halike, hstatus⟩ := hpq
      dsimp only at halike hstatus ⊢
      have hroot : S.file name = some (.ok root) := by rw [ht, verifyWithStore_ok hv]
      have hroot' : S'.file name = some (.ok root') := by rw [ht', verifyWithStore_ok hv']
      have hres : ResolveAlike (leaseStatus c · S) (storeResolver blake c S) (leaseStatus c · S')
        (storeResolver blake c S') := resolve_alike hS
      obtain ⟨report, hrun, hout, hkinds⟩ := chain_outcome (leaseStatus c · S) rootReport
        (fun x hx => below_mentioned hroot hx) hf
      obtain ⟨report', hrun', hout', hkinds'⟩ := chain_outcome (leaseStatus c · S') rootReport'
        (fun x hx => below_mentioned hroot' hx) hf'
      rw [hrun, hrun']
      refine ⟨_, _, rfl, rfl, .accepted ⟨?_, ?_⟩⟩
      · rw [hout, hout']
        exact outcome_congr hres halike.deps halike.tier hstatus
      · intro hpass kind
        have hno : ¬ Cyclic (storeResolver blake c S) root := fun hc => outcome_ne_pass hc (hout.symm.trans hpass)
        rw [hkinds hno, hkinds' (mt (hres.cyclic_iff halike.deps).2 hno)]
        exact hres.someBelow_iff halike.deps fun x => by rw [hres.kindAt_eq]

end SovereignCore.Evidence
