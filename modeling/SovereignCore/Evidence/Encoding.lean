import SovereignCore.Evidence.Receipt
import SovereignCore.Lib.Wire
import SovereignCore.Lib.Hex
import SovereignCore.Lib.Result
import Mathlib.Data.List.Infix

/-!
# The canonical encoding of a receipt

The bytes that name a receipt: fixed field order, length prefixed texts, big-endian integers. Every format violation is
an error. The hash function is a parameter.

* `canonicalBytes`, `receiptId` : the encoder;
* `decodeFields`, `decodeCanonical` : the strict decoder.
-/

namespace SovereignCore.Evidence

open Text Wire Hex

def schemaName : String := "EvidenceReceiptV1"

def schemaVersion : UInt32 := 1

def domain : List UInt8 := utf8 "AIEN_EVIDENCE_RECEIPT_V1"

def knownFeatures : List String := ["v1-base"]

/-! ## Checks -/

def isLowerHex (s : String) : Bool := s ≠ "" ∧ s.toList.all fun c => c.isDigit ∨ ('a' ≤ c ∧ c ≤ 'f')

def digitValue (c : Char) : Nat :=
  if c.isDigit then c.toNat - 48 else if 'a' ≤ c ∧ c ≤ 'f' then c.toNat - 87 else c.toNat - 55

def rawBytes : List Char → List UInt8
  | hi :: lo :: cs => UInt8.ofNat (16 * digitValue hi + digitValue lo) :: rawBytes cs
  | _ => []

def hexToBytes (s : String) : Option (List UInt8) :=
  if s.utf8ByteSize % 2 ≠ 0 ∨ isHex s = false then none else some (rawBytes s.toList)

def refuse (p : Prop) [Decidable p] (text : String) : Except String Unit := if p then .error text else .ok ()

def checkCommit (commit : String) : Except String Unit :=
  refuse (¬ ((commit.utf8ByteSize = 40 ∨ commit.utf8ByteSize = 64) ∧ isLowerHex commit))
    s!"commit must be 40 or 64 lowercase hex digits, got {debug commit}"

def splitColon (s : String) : Option (String × String) :=
  match s.toList.span (· ≠ ':') with
  | (_, []) => none
  | (algo, _ :: rest) => some (String.ofList algo, String.ofList rest)

def checkDigest (name item : String) : Except String Unit :=
  match splitColon item with
  | some (algo, digits) => do
    refuse (algo ∉ ["blake3", "sha256", "sha512"]) s!"{name}: unknown digest algo in {debug item}"
    refuse (digits.utf8ByteSize < 32 ∨ digits.utf8ByteSize % 2 ≠ 0 ∨ isHex digits = false)
      s!"{name}: bad digest hex in {debug item}"
  | none => refuse (¬ (item.utf8ByteSize = 64 ∧ isHex item))
      s!"{name}: digest must be <algo>:<hex> or 64 hex digits, got {debug item}"

def checkDigestList (name : String) (items : List String) : Except String Unit := items.forM (checkDigest name)

def isHash (s : String) : Bool := s.utf8ByteSize = 64 ∧ isHex s

def checkAssertions : List String → List Assertion → Except String Unit
  | _, [] => .ok ()
  | seen, a :: as => do
    refuse (a.id = "") "assertion id must not be empty"
    refuse (a.id ∈ seen) s!"duplicate assertion id {debug a.id}"
    checkAssertions (a.id :: seen) as

/-- Maximum observed hardware mutation allowed per tier; the last two have none. -/
def maxSeverity : Tier → Nat
  | .machine1ReadOnly => Mutation.removableMediaOnly.severity
  | .machine1Attended => Mutation.bootConfigurationChange.severity
  | .machine1Mutating => 255
  | .production => 255
  | _ => Mutation.boundedTestRegionWrite.severity

def checkTierMutation (tier : Tier) (observed : Mutation) : Except String Unit := do
  refuse (maxSeverity tier < observed.severity)
    s!"tier {tier.asStr} cannot claim observed mutation {observed.asStr}"
  refuse (tier = .machine1ReadOnly ∧ observed ∈ [Mutation.boundedTestRegionWrite, .bootConfigurationChange,
      .trustRootChange, .tpmPolicyChange, .destructiveStorage])
    s!"a read-only Machine 1 run cannot claim mutation {observed.asStr}"

/-- `pattern` stands somewhere in the text. -/
def contains (s pattern : String) : Bool := pattern.toList <:+: s.toList

def checkAuthority (r : Receipt) : Except String Unit :=
  if r.tier = .production then do
    refuse (blank r.authority) "PRODUCTION receipts require an authority reference"
    refuse (contains (lower r.authority) "test-only" ∨ contains (lower r.authority) "test_only" ∨
      contains (lower r.authority) "testonly") "a TEST_ONLY signer cannot produce a PRODUCTION receipt"
  else .ok ()

def checkLedgerHash : Option LedgerRef → Except String Unit
  | some ledger => refuse (isHash ledger.hash = false) "ledger hash must be 64 hex digits"
  | none => .ok ()

def checkLease : Option LeaseRef → Except String Unit
  | some lease => do
    refuse (isHash lease.holdId = false) "lease hold_id must be 64 hex digits"
    refuse (blank lease.resource) "lease resource must not be empty"
  | none => .ok ()

def checkIdentity (r : Receipt) : Except String Unit := do
  refuse (r.schema ≠ schemaName) s!"unknown receipt schema {debug r.schema}"
  refuse (r.version ≠ schemaVersion) s!"unsupported receipt version {r.version}"
  r.requiredFeatures.forM fun f => refuse (f ∉ knownFeatures) s!"unknown required receipt feature {debug f}"
  refuse (r.reserved ≠ "") "reserved field must be empty"
  refuse (r.kind = "") "receipt kind must not be empty"
  refuse (r.repo = "") "repo must not be empty"
  checkCommit r.commit
  refuse (r.procedure = "") "procedure identity must not be empty"
  refuse (r.machine = "") "machine identity must not be empty"
  refuse (r.envClass ≠ r.tier.asStr) s!"env_class {debug r.envClass} contradicts tier {debug r.tier.asStr}"
  checkDigestList "input_artifacts" r.inputArtifacts
  checkDigestList "output_artifacts" r.outputArtifacts
  refuse (isHash r.outputDigest = false) "output_digest must be 64 hex digits (BLAKE3)"

def checkContent (r : Receipt) : Except String Unit := do
  refuse (r.assertions = [] ∧ r.result = .pass) "PASS receipts must carry at least one assertion"
  checkAssertions [] r.assertions
  r.dependencies.forM fun d => refuse (isHash d = false) s!"dependency {debug d} is not a 64 digit receipt hash"
  refuse (r.declaredMutation.severity < r.observedMutation.severity)
    s!"observed mutation {r.observedMutation.asStr} exceeds declared mutation {r.declaredMutation.asStr}"
  checkTierMutation r.tier r.observedMutation
  checkAuthority r
  checkLedgerHash r.ledger
  checkLease r.lease

/-! ## Encoder -/

def putStr (s : String) : List UInt8 := beBytes 8 (utf8 s).length ++ utf8 s

def putU32 (n : Nat) : List UInt8 := beBytes 4 n

def putU64 (n : UInt64) : List UInt8 := beBytes 8 n.toNat

def putBool (b : Bool) : List UInt8 := [if b then 1 else 0]

def putList {α : Type} (put : α → List UInt8) (items : List α) : List UInt8 :=
  putU32 items.length ++ items.flatMap put

def putAssertion (a : Assertion) : List UInt8 :=
  putStr a.id ++ (putStr a.expected ++ (putStr a.observed ++ (putBool a.pass ++ (putStr a.source ++ putStr a.note))))

def sortAssertions (as : List Assertion) : List Assertion := as.insertionSort fun a b => a.id ≤ b.id

def orError {α : Type} (text : String) : Option α → Except String α
  | some a => .ok a
  | none => .error text

def putLedger : Option LedgerRef → Except String (List UInt8)
  | some ledger => do
    let raw ← orError "bad ledger hash" (hexToBytes ledger.hash)
    .ok (1 :: (putU64 ledger.index ++ raw))
  | none => .ok [0]

def putLease : Option LeaseRef → Except String (List UInt8)
  | some lease => do
    let raw ← orError "bad hold id" (hexToBytes (lower lease.holdId))
    .ok (1 :: (raw ++ putStr lease.resource))
  | none => .ok [0]

def layout (r : Receipt) (outputDigest : List UInt8) (deps : List (List UInt8)) (ledger lease : List UInt8) :
    List UInt8 :=
  domain ++ (putU32 schemaVersion.toNat ++ (putStr r.kind ++ (putStr r.tier.asStr ++ ([r.result.code] ++
    (putStr r.repo ++ (putStr r.commit ++ (putBool r.dirty ++ (putStr r.toolchain ++ (putStr r.procedure ++
      (putStr r.machine ++ (putStr r.envClass ++ (putList putStr (sortedUnique r.inputArtifacts) ++
        (putList putStr (sortedUnique r.outputArtifacts) ++ (putList putAssertion (sortAssertions r.assertions) ++
          (putList id deps ++ ([r.declaredMutation.code] ++ ([r.observedMutation.code] ++ (putStr r.authority ++
            (outputDigest ++ (putList putStr (sortedUnique r.externalRefs) ++ (ledger ++ (lease ++
              (putU64 r.timestamp ++ (putList putStr (sortedUnique r.requiredFeatures) ++
                putU32 0))))))))))))))))))))))))

def canonicalBytes (r : Receipt) : Except String (List UInt8) := do
  checkIdentity r
  let outputDigest ← orError "bad output_digest" (hexToBytes r.outputDigest)
  checkContent r
  let deps ← (sortedUnique r.dependencies).mapM fun d => orError "bad dependency hash" (hexToBytes d)
  let ledger ← putLedger r.ledger
  let lease ← putLease r.lease
  .ok (layout r outputDigest deps ledger lease)

def receiptId (blake : List UInt8 → Vector UInt8 32) (r : Receipt) : Except String String := do
  let bytes ← canonicalBytes r
  .ok (hexText (blake bytes).toList)

/-! ## Decoder -/

/-- The limits of the decoder: the bytes of a text, the items of a list. -/
structure Limits where
  text : Nat
  count : Nat

def decoderLimits : Limits := ⟨16 * 1024 * 1024, 100000⟩

abbrev Cursor := Reader UInt8 String

namespace Cursor

def bytes (n : Nat) : Cursor (List UInt8) := take "canonical encoding truncated" n

def byte : Cursor UInt8 := do
  let b ← bytes 1
  pure (b.headD 0)

def u32be : Cursor Nat := do
  let b ← bytes 4
  pure (beValue b)

def u64be : Cursor Nat := do
  let b ← bytes 8
  pure (beValue b)

variable (limits : Limits)

def text : Cursor String := do
  let len ← u64be
  refuseIf (limits.text < len) "canonical string too long"
  let raw ← bytes len
  orRefuse "canonical string not UTF-8" (fromUtf8 raw)

def count : Cursor Nat := do
  let n ← u32be
  refuseIf (limits.count < n) "canonical list too long"
  pure n

def list {α : Type} (item : Cursor α) : Cursor (List α) := do
  let n ← count limits
  times item n

def hashHex : Cursor String := do
  let raw ← bytes 32
  pure (hexText raw)

def flag (name : String) : Cursor Bool := do
  let b ← byte
  orRefuse name (if b = 0 then some false else if b = 1 then some true else none)

def assertion : Cursor Assertion := do
  let id ← text limits
  let expected ← text limits
  let observed ← text limits
  let pass ← flag "bad assertion result in canonical encoding"
  let source ← text limits
  let note ← text limits
  pure ⟨id, expected, observed, pass, source, note⟩

def ledger : Cursor (Option LedgerRef) := do
  let there ← flag "bad ledger flag in canonical encoding"
  if there then do
    let index ← u64be
    let hash ← hashHex
    pure (some ⟨UInt64.ofNat index, hash⟩)
  else pure none

def lease : Cursor (Option LeaseRef) := do
  let there ← flag "bad lease flag in canonical encoding"
  if there then do
    let holdId ← hashHex
    let resource ← text limits
    pure (some ⟨holdId, resource⟩)
  else pure none

end Cursor

open Cursor in
def decodeFields (limits : Limits) : Cursor Receipt := do
  let separator ← bytes domain.length
  refuseIf (separator ≠ domain) "bad canonical domain separator"
  let version ← u32be
  refuseIf (version ≠ schemaVersion.toNat) "unsupported canonical version"
  let kind ← text limits
  let tierName ← text limits
  let tier ← orRefuse "unknown tier in canonical encoding" (Tier.parse tierName)
  let resultCode ← byte
  let result ← orRefuse "unknown result in canonical encoding" (Verdict.fromCode resultCode)
  let repo ← text limits
  let commit ← text limits
  let dirty ← flag "bad dirty flag in canonical encoding"
  let toolchain ← text limits
  let procedure ← text limits
  let machine ← text limits
  let envClass ← text limits
  let inputArtifacts ← list limits (text limits)
  let outputArtifacts ← list limits (text limits)
  let assertions ← list limits (assertion limits)
  let dependencies ← list limits hashHex
  let declaredCode ← byte
  let declaredMutation ← orRefuse "unknown mutation in canonical encoding" (Mutation.fromCode declaredCode)
  let observedCode ← byte
  let observedMutation ← orRefuse "unknown mutation in canonical encoding" (Mutation.fromCode observedCode)
  let authority ← text limits
  let outputDigest ← hashHex
  let externalRefs ← list limits (text limits)
  let ledger ← ledger
  let lease ← lease limits
  let timestamp ← u64be
  let requiredFeatures ← list limits (text limits)
  let reserved ← u32be
  refuseIf (reserved ≠ 0) "reserved field must be zero"
  pure { schema := schemaName, version := schemaVersion, id := "", kind, tier, result,
         timestamp := UInt64.ofNat timestamp, repo, commit, dirty, toolchain, procedure, machine, envClass,
         inputArtifacts, outputArtifacts, assertions, dependencies, declaredMutation, observedMutation, authority,
         outputDigest, externalRefs, ledger, lease, requiredFeatures, reserved := "" }

/-- Strictly decode canonical bytes back to a receipt, and mint its id. -/
def decodeCanonical (blake : List UInt8 → Vector UInt8 32) (bytes : List UInt8) : Except String Receipt := do
  let (receipt, rest) ← decodeFields decoderLimits bytes
  if rest ≠ [] then .error "trailing bytes after canonical encoding"
  else
    let reencoded ← canonicalBytes receipt
    if reencoded ≠ bytes then .error "canonical encoding not in canonical order"
    else .ok { receipt with id := hexText (blake bytes).toList }

end SovereignCore.Evidence
