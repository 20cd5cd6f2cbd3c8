import SovereignCore.Evidence.Bindings
import SovereignCore.Evidence.Chain
import SovereignCore.Evidence.Encoding

/-!
# Receipts in the store

A receipt file is its name and what the JSON library makes of its bytes. The hash function and the JSON library of the
ledger are parameters.

* `verifyBytes`, `verifyWithStore` : identity and consistency of one receipt, alone and against the store;
* `storeReceipt`, `loadReceipt`, `listReceipts` : the receipt directory;
* `storeResolver`, `verifyChain` : the dependency graph over the store.
-/

namespace SovereignCore.Evidence

open Text Hex

section Functions

variable (blake : List UInt8 → Digest) (c : LineCodec)

def checkConsistency (r : Receipt) : Report :=
  let problems :=
    problemIf (r.result = .pass ∧ r.assertions.any (!·.pass)) "result is PASS but a structured assertion failed" ++
      problemIf (r.result = .blocked ∧ r.tier.isPhysical) "a run marked BLOCKED cannot close a gate"
  if r.result = .pass ∧ r.tier.isHardware ∧ r.lease = none then
    ⟨.incomplete, ["hardware receipt has no resource lease binding; run under `aien-proof hold` and reference the hold"]⟩
  else if problems ≠ [] then .ofFail problems
  else
    match r.result with
    | .pass => .ofPass "identity matches, assertions all pass"
    | .fail => .ofFail ["receipt records FAIL"]
    | .blocked => ⟨.blocked, ["receipt records BLOCKED"]⟩
    | .incomplete => ⟨.incomplete, ["receipt records INCOMPLETE"]⟩
    | .skipped => ⟨.skipped, ["receipt records SKIPPED"]⟩

def verifyBytes (text : Except String Receipt) : Except String (Receipt × Report) := do
  let receipt ← text.mapError fun e => s!"receipt JSON invalid: {e}"
  let computed ← receiptId blake receipt
  if lower receipt.id ≠ computed then
    .error s!"receipt id mismatch: file claims {receipt.id}, canonical identity is {computed}"
  else .ok (receipt, checkConsistency receipt)

def verifyWithStore (text : Except String Receipt) (store : Store) : Except String (Receipt × Report) := do
  let (receipt, report) ← verifyBytes blake text
  if report.status = .fail then .ok (receipt, report)
  else
    let problem ← checkLedgerRef c blake receipt store
    match problem with
    | some problem => .ok (receipt, .ofFail [problem])
    | none =>
      let lease ← checkLeaseRef c receipt store
      match lease.filter (·.status ≠ .pass) with
      | some lease => .ok (receipt, lease)
      | none =>
        if report.status ≠ .pass then .ok (receipt, report)
        else if receipt.result ≠ .pass then .ok (receipt, checkConsistency receipt)
        else .ok (receipt, .ofPass "identity, ledger, and lease bindings check out")

def fileName (id : String) : String := s!"{id}.json"

def Store.file (store : Store) (name : String) : Option (Except String Receipt) := store.receipts.lookup name

def loadReceipt (store : Store) (id : String) : Except String Receipt :=
  let normalized := lower id
  if normalized.utf8ByteSize ≠ 64 ∨ isHex normalized = false then
    .error s!"receipt id {debug id} is not a 64 digit hash"
  else do
    let text ← orError s!"missing dependency receipt {normalized}" (store.file (fileName normalized))
    let (receipt, _) ← verifyBytes blake text
    if lower receipt.id ≠ normalized then
      .error s!"receipt file {normalized} holds bytes for receipt {receipt.id}"
    else .ok receipt

def Store.write (store : Store) (name : String) (receipt : Receipt) : Store :=
  { store with receipts := (name, .ok receipt) :: store.receipts.filter (·.1 ≠ name) }

def storeReceipt (store : Store) (receipt : Receipt) : Except String Store := do
  let computed ← receiptId blake receipt
  if lower receipt.id ≠ computed then
    .error s!"refusing to store: id {receipt.id} does not match canonical {computed}"
  else .ok (store.write (fileName computed) { receipt with id := computed })

def stripSuffix (suffix s : String) : Option String :=
  if suffix.toList.isSuffixOf s.toList then some (String.ofList (s.toList.take (s.toList.length - suffix.toList.length)))
  else none

def receiptName (name : String) : Option String :=
  (stripSuffix ".json" name).bind fun id => if isHash id then some (lower id) else none

def listReceipts (store : Store) : List String := sorted (store.receipts.filterMap fun file => receiptName file.1)

def storeResolver (store : Store) : Resolver := fun id => do
  let receipt ← loadReceipt blake store id
  let text ← orError "cannot read the receipt file" (store.file (fileName id))
  let (_, report) ← verifyWithStore blake c text store
  .ok (receipt, report)

/-- Verify the complete reachable receipt graph for the receipt file of this name; `none` when the fuel runs out. -/
def verifyChain (fuel : Nat) (name : String) (store : Store) : Option (Except String ChainReport) :=
  let root := do
    let text ← orError s!"cannot read {name}" (store.file name)
    verifyWithStore blake c text store
  match root with
  | .error e => some (.error e)
  | .ok (root, rootReport) =>
    (verifyGraph (leaseStatus c · store) (storeResolver blake c store) fuel root rootReport).map .ok

end Functions

end SovereignCore.Evidence
