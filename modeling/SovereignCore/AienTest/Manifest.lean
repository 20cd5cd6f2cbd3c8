import SovereignCore.AienTest.Paths

/-!
# Gate manifests and verdicts

* `Manifest` : the fields of a gate manifest that planning, identity and scheduling read; `pool` : the scarcest pool it lists;
* `Verdict` : the six verdicts with their exit codes; `campaignVerdict` : any FAIL, else the highest of the others.
-/

namespace SovereignCore.AienTest

/-- Epistemic requirement of a check. -/
inductive Exactness
  | exact
  | bounded
  | approximate
  | advisory
  deriving DecidableEq, Repr

/-- What a check's identity binds to. -/
inductive CacheScope
  | portable
  | arch
  | machine
  | hardware
  deriving DecidableEq, Repr

/-- Pass condition beyond exit status and observations. -/
structure Oracle where
  golden : Option String := none
  compare : Option String := none
  deriving DecidableEq, Repr

inductive Pool
  | host
  | qemu
  | gb10
  deriving DecidableEq, Repr

structure Manifest where
  gate : String
  requires : List String := []
  dependsOn : List String := []
  inputs : List String := []
  build : Option String := none
  checks : List String := []
  exactness : Exactness := .exact
  cacheScope : CacheScope := .portable
  oracle : Oracle := {}
  digest : String := ""
  inputs_valid : ∀ i ∈ inputs, validRelPath i = true := by decide
  deriving DecidableEq, Repr

def Manifest.pool (m : Manifest) : Pool :=
  if "gb10" ∈ m.requires ∨ "nvrm" ∈ m.requires then .gb10 else if "qemu" ∈ m.requires then .qemu else .host

inductive Verdict
  | pass
  | fail
  | notRun
  | blockedHardware
  | blockedOperator
  | missingImplementation
  deriving DecidableEq, Repr

namespace Verdict

def exitCode : Verdict → Nat
  | pass => 0
  | fail => 1
  | notRun => 2
  | blockedHardware => 3
  | blockedOperator => 4
  | missingImplementation => 5

def asStr : Verdict → String
  | pass => "PASS"
  | fail => "FAIL"
  | notRun => "NOT_RUN"
  | blockedHardware => "BLOCKED_HARDWARE"
  | blockedOperator => "BLOCKED_OPERATOR"
  | missingImplementation => "MISSING_IMPLEMENTATION"

def worse (a b : Verdict) : Verdict := if a.exitCode < b.exitCode then b else a

theorem worse_pass {a b : Verdict} : worse a b = pass ↔ a = pass ∧ b = pass := by
  cases a <;> cases b <;> simp [worse, exitCode]

theorem foldl_worse_pass {vs : List Verdict} {a : Verdict} :
    vs.foldl worse a = pass ↔ a = pass ∧ ∀ v ∈ vs, v = pass := by
  induction vs generalizing a with
  | nil => simp
  | cons v vs ih => rw [List.foldl_cons, ih, worse_pass, List.forall_mem_cons, and_assoc]

end Verdict

/-- The verdict of a campaign of gates: any FAIL, else the highest of the others. -/
def campaignVerdict (vs : List Verdict) : Verdict := if .fail ∈ vs then .fail else vs.foldl Verdict.worse .pass

theorem campaignVerdict_pass {vs : List Verdict} : campaignVerdict vs = .pass ↔ ∀ v ∈ vs, v = .pass := by
  unfold campaignVerdict
  split_ifs with hfail
  · exact iff_of_false (by decide) fun h => absurd (h _ hfail) (by decide)
  · rw [Verdict.foldl_worse_pass, and_iff_right rfl]

end SovereignCore.AienTest
