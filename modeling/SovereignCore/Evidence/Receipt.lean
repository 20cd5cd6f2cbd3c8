import SovereignCore.Lib.Text

/-!
# Evidence receipts

The data of canonical evidence receipts (`EvidenceReceiptV1`).

* `Verdict`, `Tier`, `Mutation` : results, qualification tiers, hardware mutation classes;
* `Receipt`, `Report` : a receipt, and the outcome of a verification.
-/

namespace SovereignCore.Evidence

/-- Final result of a receipt. -/
inductive Verdict
  | pass
  | fail
  | blocked
  | incomplete
  | skipped
  deriving DecidableEq, Repr

namespace Verdict

def asStr : Verdict → String
  | pass => "PASS"
  | fail => "FAIL"
  | blocked => "BLOCKED"
  | incomplete => "INCOMPLETE"
  | skipped => "SKIPPED"

def code : Verdict → UInt8
  | pass => 0
  | fail => 1
  | blocked => 2
  | incomplete => 3
  | skipped => 4

def fromCode (b : UInt8) : Option Verdict :=
  if b = 0 then some pass
  else if b = 1 then some fail
  else if b = 2 then some blocked
  else if b = 3 then some incomplete
  else if b = 4 then some skipped
  else none

theorem fromCode_code (v : Verdict) : fromCode v.code = some v := by
  cases v <;> rfl

end Verdict

/-- Qualification tier. -/
inductive Tier
  | testOnlyTrust
  | hostTest
  | qemu
  | qemuSecurity
  | machine1ReadOnly
  | machine1Attended
  | machine1Mutating
  | production
  deriving DecidableEq, Repr

namespace Tier

def asStr : Tier → String
  | testOnlyTrust => "TEST_ONLY_TRUST"
  | hostTest => "HOST_TEST"
  | qemu => "QEMU"
  | qemuSecurity => "QEMU_SECURITY"
  | machine1ReadOnly => "MACHINE1_READ_ONLY"
  | machine1Attended => "MACHINE1_ATTENDED"
  | machine1Mutating => "MACHINE1_MUTATING"
  | production => "PRODUCTION"

def parse (s : String) : Option Tier :=
  if s = "TEST_ONLY_TRUST" then some testOnlyTrust
  else if s = "HOST_TEST" then some hostTest
  else if s = "QEMU" then some qemu
  else if s = "QEMU_SECURITY" then some qemuSecurity
  else if s = "MACHINE1_READ_ONLY" then some machine1ReadOnly
  else if s = "MACHINE1_ATTENDED" then some machine1Attended
  else if s = "MACHINE1_MUTATING" then some machine1Mutating
  else if s = "PRODUCTION" then some production
  else none

theorem parse_asStr (t : Tier) : parse t.asStr = some t := by
  cases t <;> rfl

def rank : Tier → Nat
  | testOnlyTrust => 0
  | hostTest => 1
  | qemu => 2
  | qemuSecurity => 3
  | machine1ReadOnly => 4
  | machine1Attended => 5
  | machine1Mutating => 6
  | production => 7

def isHardware (t : Tier) : Bool := t = machine1ReadOnly ∨ t = machine1Attended ∨ t = machine1Mutating

def isPhysical (t : Tier) : Bool := t.isHardware ∨ t = production

end Tier

/-- Hardware mutation classification. -/
inductive Mutation
  | none
  | volatileOnly
  | removableMediaOnly
  | oneTimeBootSelection
  | boundedTestRegionWrite
  | bootConfigurationChange
  | trustRootChange
  | tpmPolicyChange
  | destructiveStorage
  deriving DecidableEq, Repr

namespace Mutation

def asStr : Mutation → String
  | none => "NONE"
  | volatileOnly => "VOLATILE_ONLY"
  | removableMediaOnly => "REMOVABLE_MEDIA_ONLY"
  | oneTimeBootSelection => "ONE_TIME_BOOT_SELECTION"
  | boundedTestRegionWrite => "BOUNDED_TEST_REGION_WRITE"
  | bootConfigurationChange => "BOOT_CONFIGURATION_CHANGE"
  | trustRootChange => "TRUST_ROOT_CHANGE"
  | tpmPolicyChange => "TPM_POLICY_CHANGE"
  | destructiveStorage => "DESTRUCTIVE_STORAGE"

def severity : Mutation → Nat
  | none => 0
  | volatileOnly => 1
  | removableMediaOnly => 2
  | oneTimeBootSelection => 3
  | boundedTestRegionWrite => 4
  | bootConfigurationChange => 5
  | trustRootChange => 6
  | tpmPolicyChange => 6
  | destructiveStorage => 7

def code : Mutation → UInt8
  | none => 0
  | volatileOnly => 1
  | removableMediaOnly => 2
  | oneTimeBootSelection => 3
  | boundedTestRegionWrite => 4
  | bootConfigurationChange => 5
  | trustRootChange => 6
  | tpmPolicyChange => 7
  | destructiveStorage => 8

def fromCode (b : UInt8) : Option Mutation :=
  if b = 0 then some none
  else if b = 1 then some volatileOnly
  else if b = 2 then some removableMediaOnly
  else if b = 3 then some oneTimeBootSelection
  else if b = 4 then some boundedTestRegionWrite
  else if b = 5 then some bootConfigurationChange
  else if b = 6 then some trustRootChange
  else if b = 7 then some tpmPolicyChange
  else if b = 8 then some destructiveStorage
  else .none

theorem fromCode_code (m : Mutation) : fromCode m.code = some m := by
  cases m <;> rfl

end Mutation

/-- One structured assertion. -/
structure Assertion where
  id : String
  expected : String
  observed : String
  pass : Bool
  source : String
  note : String
  deriving DecidableEq

/-- Reference to a ledger event recorded for the run. -/
structure LedgerRef where
  index : UInt64
  hash : String
  deriving DecidableEq

/-- Binding to the exclusive resource lease that protected a hardware run. -/
structure LeaseRef where
  holdId : String
  resource : String
  deriving DecidableEq

/-- Canonical evidence receipt, version 1. -/
structure Receipt where
  schema : String
  version : UInt32
  id : String
  kind : String
  tier : Tier
  result : Verdict
  timestamp : UInt64
  repo : String
  commit : String
  dirty : Bool
  toolchain : String
  procedure : String
  machine : String
  envClass : String
  inputArtifacts : List String
  outputArtifacts : List String
  assertions : List Assertion
  dependencies : List String
  declaredMutation : Mutation
  observedMutation : Mutation
  authority : String
  outputDigest : String
  externalRefs : List String
  ledger : Option LedgerRef
  lease : Option LeaseRef
  requiredFeatures : List String
  reserved : String
  deriving DecidableEq

/-- Verification outcome for one receipt or chain. -/
structure Report where
  status : Verdict
  reasons : List String
  deriving DecidableEq

def Report.ofPass (reason : String) : Report := ⟨.pass, [reason]⟩

def Report.ofFail (reasons : List String) : Report := ⟨.fail, reasons⟩

def sampleReceipt (tier : Tier) (dependencies : List String) : Receipt where
  schema := "EvidenceReceiptV1"
  version := 1
  id := ""
  kind := "seed-0b"
  tier := tier
  result := .pass
  timestamp := 1786000000
  repo := "aienos"
  commit := String.ofList (List.replicate 40 'a')
  dirty := false
  toolchain := "rustc 1.90.0"
  procedure := "scripts/seed0b.sh"
  machine := "qemu-virt-aarch64"
  envClass := tier.asStr
  inputArtifacts := []
  outputArtifacts := []
  assertions := [⟨"artifact_signature_valid", "valid", "valid", true, "console", ""⟩]
  dependencies := dependencies
  declaredMutation := .none
  observedMutation := .none
  authority := "owner"
  outputDigest := String.ofList (List.replicate 64 'd')
  externalRefs := []
  ledger := none
  lease := none
  requiredFeatures := []
  reserved := ""

end SovereignCore.Evidence
