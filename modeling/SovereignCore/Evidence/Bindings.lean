import SovereignCore.Evidence.Receipt
import SovereignCore.Evidence.Appends

/-!
# Ledger and lease bindings of a receipt

What a receipt says about the ledger and about its lease is checked against the store.

* `checkLedgerRef` : the ledger reference;
* `checkLeaseRef`, `leaseStatus` : the lease reference;
* `LeaseBinds` : what a lease reference must agree with;
* `lease_event_recomputes` : when a lease that checks out stands on an event that was not altered.
-/

namespace SovereignCore.Evidence

open Text Hex

/-- What is read of the record of a run. -/
structure Record where
  cmd : List String
  exitCode : Int32
  ledgerIndex : UInt64
  ledgerHash : String
  deriving DecidableEq

/-- The proof store. -/
structure Store where
  /-- The files of the hold directory in its order, each with the record that it holds, if there is a directory. -/
  holds : Option (List (Option Record))
  ledger : Option (List UInt8)
  /-- The files of the receipt directory: the name, and the receipt that the file holds. -/
  receipts : List (String × Except String Receipt)

def holdAction : String := "audit"

def hex (d : Digest) : String := hexText d.toList

/-- Find the hold record whose audit event hash is `holdId`. -/
def loadHold (store : Store) (holdId : String) : Except String Record :=
  let normalized := lower holdId
  if normalized.utf8ByteSize ≠ 64 ∨ normalized.toList.all isHexDigit = false then
    .error s!"hold id {debug holdId} is not a 64 digit hash"
  else
    match store.holds with
    | none => .error s!"hold record {normalized} not found: no holds in store"
    | some entries =>
      match entries.reduceOption.find? fun r => lower r.ledgerHash = normalized with
      | some record => .ok record
      | none => .error s!"missing hold record {normalized}"

/-- Resources named in a hold audit intent. -/
def intentResources (intent : String) : List String :=
  match splitAfterLast "resources=".toList intent.toList with
  | none => []
  | some list => ((list.splitOn ',').map fun s => String.ofList (trim s)).filter (· ≠ "")

def problemIf (p : Prop) [Decidable p] (text : String) : List String := if p then [text] else []

def leaseProblems (receipt : Receipt) (lease : LeaseRef) (record : Record) (event : LedgerEvent) : List String :=
  let held := " ".intercalate record.cmd
  problemIf (hex event.hash ≠ lower record.ledgerHash ∨ hex event.hash ≠ lower lease.holdId)
      "hold record does not match its ledger audit event" ++
    problemIf (event.action ≠ holdAction) s!"ledger event {record.ledgerIndex} is not a hold audit event" ++
    problemIf (lease.resource ∉ intentResources event.intent)
      s!"hold {lease.holdId} never covered resource {debug lease.resource}" ++
    problemIf (receipt.machine ≠ lease.resource)
      s!"receipt machine {debug receipt.machine} does not match leased resource {debug lease.resource}" ++
    problemIf (receipt.procedure ≠ held)
      s!"receipt procedure {debug receipt.procedure} does not match held command {debug held}" ++
    problemIf (lower receipt.outputDigest ≠ lower (hex event.payloadHash))
      "receipt output digest does not match the held run output" ++
    problemIf (receipt.result = .pass ∧ record.exitCode ≠ 0)
      s!"receipt claims PASS but the held run exited with {record.exitCode}"

variable (c : LineCodec)

/-- Check a receipt's lease reference against the hold store and ledger. -/
def checkLeaseRef (receipt : Receipt) (store : Store) : Except String (Option Report) :=
  match receipt.lease with
  | none => .ok none
  | some lease => do
    let record ← (loadHold store lease.holdId).mapError fun e => s!"lease binding broken: {e}"
    let found ← readEvent c store.ledger record.ledgerIndex
    match found with
    | none => .error s!"lease binding broken: ledger event {record.ledgerIndex} is missing"
    | some event =>
      let problems := leaseProblems receipt lease record event
      .ok (some (if problems = [] then .ofPass "lease binding checks out" else .ofFail problems))

def leaseStatus (receipt : Receipt) (store : Store) : Option Report :=
  if receipt.tier.isHardware = false then none
  else
    match receipt.lease with
    | none => some ⟨.incomplete, ["Machine 1 qualification has no exclusive hardware lease"]⟩
    | some _ =>
      match checkLeaseRef c receipt store with
      | .ok r => r
      | .error e => some (.ofFail [e])

/-- Check a receipt's ledger reference; a reason when it does not check out. -/
def checkLedgerRef (blake : List UInt8 → Digest) (receipt : Receipt) (store : Store) :
    Except String (Option String) :=
  match receipt.ledger with
  | none => .ok none
  | some reference => do
    let _ ← (verify blake c store.ledger).mapError fun e => s!"ledger chain broken: {e}"
    let found ← readEvent c store.ledger reference.index
    match found with
    | none => .error s!"receipt references ledger event {reference.index} which does not exist"
    | some event =>
      if hex event.hash ≠ lower reference.hash then
        .ok (some s!"receipt ledger hash does not match event {reference.index}")
      else if hex event.payloadHash ≠ lower receipt.outputDigest then
        .ok (some "receipt output digest does not match the ledger payload hash")
      else .ok none

/-! ## What stands behind a lease -/

/-- The hold record, the ledger event and the receipt agree with the lease reference. -/
structure LeaseBinds (receipt : Receipt) (lease : LeaseRef) (record : Record) (event : LedgerEvent) : Prop where
  recorded : hex event.hash = lower record.ledgerHash
  held : hex event.hash = lower lease.holdId
  action : event.action = holdAction
  covered : lease.resource ∈ intentResources event.intent
  machine : receipt.machine = lease.resource
  procedure : receipt.procedure = " ".intercalate record.cmd
  output : lower receipt.outputDigest = lower (hex event.payloadHash)
  exit : receipt.result = .pass → record.exitCode = 0

variable {receipt : Receipt} {lease : LeaseRef} {record : Record} {event : LedgerEvent} {store : Store}

theorem problemIf_eq_nil {p : Prop} [Decidable p] {text : String} : problemIf p text = [] ↔ ¬ p := by
  unfold problemIf
  by_cases h : p
  · simp [h]
  · simp [h]

theorem leaseProblems_eq_nil :
    leaseProblems receipt lease record event = [] ↔ LeaseBinds receipt lease record event := by
  unfold leaseProblems
  simp only [List.append_eq_nil_iff, problemIf_eq_nil, not_or, not_not, not_and]
  constructor
  · rintro ⟨⟨⟨⟨⟨⟨⟨h1, h2⟩, h3⟩, h4⟩, h5⟩, h6⟩, h7⟩, h8⟩
    exact ⟨h1, h2, h3, h4, h5, h6, h7, h8⟩
  · rintro ⟨h1, h2, h3, h4, h5, h6, h7, h8⟩
    exact ⟨⟨⟨⟨⟨⟨⟨h1, h2⟩, h3⟩, h4⟩, h5⟩, h6⟩, h7⟩, h8⟩

variable {c}

theorem checkLeaseRef_found (hl : receipt.lease = some lease) (hr : loadHold store lease.holdId = .ok record)
    (he : readEvent c store.ledger record.ledgerIndex = .ok (some event)) : checkLeaseRef c receipt store =
      .ok (some (if leaseProblems receipt lease record event = [] then .ofPass "lease binding checks out"
        else .ofFail (leaseProblems receipt lease record event))) := by
  unfold checkLeaseRef
  rw [hl]
  dsimp only
  rw [hr]
  show (readEvent c store.ledger record.ledgerIndex >>= _) = _
  rw [he]
  rfl

theorem checkLeaseRef_pass (hl : receipt.lease = some lease) (hr : loadHold store lease.holdId = .ok record)
    (he : readEvent c store.ledger record.ledgerIndex = .ok (some event)) :
    (∃ report, checkLeaseRef c receipt store = .ok (some report) ∧ report.status = .pass) ↔
      LeaseBinds receipt lease record event := by
  rw [checkLeaseRef_found hl hr he, ← leaseProblems_eq_nil]
  by_cases hp : leaseProblems receipt lease record event = []
  · rw [if_pos hp]
    exact ⟨fun _ => hp, fun _ => ⟨_, rfl, rfl⟩⟩
  · rw [if_neg hp]
    constructor
    · rintro ⟨report, hreport, hpass⟩
      cases hreport
      cases hpass
    · exact fun h => absurd h hp

theorem hex_inj {a b : Digest} : hex a = hex b ↔ a = b := by
  unfold hex
  rw [hexText_inj, Vector.toList_inj]

/-- A lease that checks out stands on a ledger event whose fields hash to the hold id exactly when the event that the
hold record points to carries the hash of its own fields, or disagrees with the lease in another way. -/
theorem lease_event_recomputes (blake : List UInt8 → Digest) (c : LineCodec) (receipt : Receipt) (store : Store) :
    (∀ lease record event report, receipt.lease = some lease → loadHold store lease.holdId = .ok record →
        readEvent c store.ledger record.ledgerIndex = .ok (some event) →
        checkLeaseRef c receipt store = .ok (some report) → report.status = .pass →
        hex (event.recompute blake) = lower lease.holdId) ↔
      ∀ lease record event, receipt.lease = some lease → loadHold store lease.holdId = .ok record →
        readEvent c store.ledger record.ledgerIndex = .ok (some event) →
        event.recompute blake = event.hash ∨ ¬ LeaseBinds receipt lease record event := by
  constructor
  · intro h lease record event hl hr he
    by_cases hb : LeaseBinds receipt lease record event
    · left
      obtain ⟨report, hreport, hpass⟩ := (checkLeaseRef_pass hl hr he).2 hb
      have hhex := h lease record event report hl hr he hreport hpass
      exact hex_inj.1 (hhex.trans hb.held.symm)
    · exact Or.inr hb
  · intro h lease record event report hl hr he hreport hpass
    have hb := (checkLeaseRef_pass hl hr he).1 ⟨report, hreport, hpass⟩
    obtain hsame | hno := h lease record event hl hr he
    · rw [hsame]
      exact hb.held
    · exact absurd hb hno

/-! A hold of one machine, its line in the ledger edited to another. The values are BLAKE3's. -/

def auditHash : Digest :=
  #v[9, 243, 214, 180, 238, 96, 50, 81, 229, 229, 96, 184, 55, 54, 241, 247, 134, 152, 130, 115, 5, 0, 97, 238,
    192, 193, 43, 114, 226, 251, 39, 229]

def editedHash : Digest :=
  #v[89, 13, 68, 89, 163, 175, 24, 252, 55, 37, 133, 30, 64, 57, 215, 49, 200, 117, 38, 136, 95, 97, 178, 58,
    195, 57, 254, 243, 123, 64, 233, 151]

def auditEvent : LedgerEvent :=
  ⟨0, 1786000000, "tester", "audit", "machine-2", "hold exit=0 resources=machine-2", samplePayload, noParent, auditHash⟩

def editedEvent : LedgerEvent := { auditEvent with intent := "hold exit=0 resources=machine-1" }

def auditBlake (x : List UInt8) : Digest :=
  if x = [] then samplePayload
  else if x = eventDomain ++ Wire.beBytes 8 0 ++ Wire.beBytes 8 1786000000 ++
      ["tester", "audit", "machine-2", "hold exit=0 resources=machine-2"].flatMap hashedText ++
      samplePayload.toList ++ noParent.toList then auditHash
  else editedHash

def editedLease : LeaseRef := ⟨hex auditHash, "machine-1"⟩

def editedReceipt : Receipt :=
  { sampleReceipt .machine1Attended [] with
    procedure := "run seed-0b"
    machine := "machine-1"
    outputDigest := hex samplePayload
    lease := some editedLease }

def editedRecord : Record := ⟨["run", "seed-0b"], 0, 0, hex auditHash⟩

def editedStore : Store := ⟨some [some editedRecord], some (fileOf serde [editedEvent]), []⟩

theorem findEvent_events (hc : c.Lawful) (index : UInt64) (n : Nat) (es : List LedgerEvent) :
    findEvent c index n (es.map c.render) = .ok (es.find? fun e => e.index = index) := by
  induction es generalizing n with
  | nil => rfl
  | cons e es ih =>
    rw [List.map_cons, findEvent, hc.reads e]
    show (if e.index = index then _ else _) = _
    by_cases hi : e.index = index
    · rw [if_pos hi, List.find?_cons_of_pos (by simpa using hi)]
    · rw [if_neg hi, ih, List.find?_cons_of_neg (by simpa using hi)]

theorem readEvent_fileOf (hc : c.Lawful) (index : UInt64) (es : List LedgerEvent) :
    readEvent c (some (fileOf c es)) index = .ok (es.find? fun e => e.index = index) := by
  unfold readEvent fileOf
  dsimp only
  rw [fromUtf8_utf8]
  dsimp only
  rw [hc.eventLines_textOf, findEvent_events hc]

/-- An edited ledger line that kept its hash is accepted as proof of a hold. -/
theorem lease_accepts_edited_event :
    auditEvent.recompute auditBlake = auditEvent.hash ∧
      readEvent serde editedStore.ledger editedRecord.ledgerIndex = .ok (some editedEvent) ∧
      (∃ report, checkLeaseRef serde editedReceipt editedStore = .ok (some report) ∧ report.status = .pass) ∧
      hex (editedEvent.recompute auditBlake) ≠ lower editedLease.holdId := by
  have hread : readEvent serde editedStore.ledger editedRecord.ledgerIndex = .ok (some editedEvent) :=
    readEvent_fileOf serde_lawful _ _
  have hlease : editedReceipt.lease = some editedLease := rfl
  have hhold : loadHold editedStore editedLease.holdId = .ok editedRecord := by
    decide +kernel
  have hbinds : LeaseBinds editedReceipt editedLease editedRecord editedEvent := by
    apply leaseProblems_eq_nil.1
    decide +kernel
  refine ⟨?_, hread, (checkLeaseRef_pass hlease hhold hread).2 hbinds, ?_⟩
  · decide +kernel
  · decide +kernel

end SovereignCore.Evidence
