import SovereignCore.Evidence.Verify

/-!
# Gates

A gate manifest lists the prerequisites that close a gate; it is evaluated against the receipts of the store. A
requirement names a kind of receipts, or another gate. The manifests are given by name; nested gates and chains take
fuel.

* `Gate.validate`, `loadManifest` : the manifests;
* `bestCandidate`, `evalRequirement`, `evaluate` : the evaluation.
-/

namespace SovereignCore.Evidence

open Text

/-! ## Manifests -/

/-- A source constraint on an assertion. -/
structure AssertionSource where
  id : String
  source : String
  deriving DecidableEq

/-- Status reported when required proof is absent from the store. -/
inductive MissingAs
  | blocked
  | incomplete
  deriving DecidableEq, Repr

def MissingAs.verdict : MissingAs → Verdict
  | blocked => .blocked
  | incomplete => .incomplete

/-- One prerequisite of a gate. -/
structure Requirement where
  name : String
  kind : String
  gateRef : Option String := none
  resource : Option String := none
  repo : Option String := none
  machine : Option String := none
  procedureContains : Option String := none
  minInputArtifacts : Nat := 0
  dependencyKinds : List String := []
  minTier : Tier := .hostTest
  assertions : List String := []
  assertionSources : List AssertionSource := []
  mutation : Option Mutation := none
  requireClean : Bool := false
  missingAs : MissingAs := .blocked
  missingReason : Option String := none
  deriving DecidableEq

/-- The prerequisites that close a gate. -/
structure Gate where
  gate : String
  requires : List Requirement
  deriving DecidableEq

/-- The checks on one requirement of the gate, after the names in `seen`. -/
def Requirement.check (gate : String) (seen : List String) (req : Requirement) : Except String Unit := do
  refuse (blank req.name) s!"gate {gate} has an unnamed requirement"
  refuse (req.gateRef.any blank) s!"gate {gate} requirement {debug req.name} has an empty gate reference"
  refuse (req.name ∈ seen) s!"gate {gate} lists requirement {debug req.name} twice"
  refuse (req.gateRef.isSome ∧ blank req.kind = false)
    s!"gate {gate} requirement {debug req.name} names both a gate and a receipt kind"
  refuse (req.gateRef = none ∧ blank req.kind)
    s!"gate {gate} requirement {debug req.name} names neither a gate nor a receipt kind"
  req.assertionSources.forM fun constrained => refuse (constrained.id ∉ req.assertions)
    s!"gate {gate} requirement {debug req.name} constrains source of assertion {debug constrained.id} it never requires"
  refuse (req.gateRef.isSome ∧ req.dependencyKinds ≠ [])
    s!"gate {gate} nested gate requirement {debug req.name} cannot declare receipt dependency kinds"

def checkRequirements (gate : String) : List String → List Requirement → Except String Unit
  | _, [] => .ok ()
  | seen, req :: reqs => do
    req.check gate seen
    checkRequirements gate (req.name :: seen) reqs

def Gate.validate (g : Gate) : Except String Unit := do
  refuse (blank g.gate) "gate manifest has no gate name"
  checkRequirements g.gate [] g.requires

/-- Manifests by name, each with what the JSON library makes of its text. -/
abbrev Manifests := List (String × Except String Gate)

def loadManifest (manifests : Manifests) (gate : String) : Except String Gate := do
  let text ← orError s!"no manifest for gate {debug gate}: pass --gate <file>" (manifests.lookup gate)
  let manifest ← text.mapError fun e => s!"gate manifest invalid: {e}"
  refuse (manifest.gate ≠ gate) s!"gate manifest name {debug manifest.gate} does not match requested {debug gate}"
  manifest.validate
  .ok manifest

/-! ## Evaluation -/

/-- Outcome of one requirement. -/
structure GateLine where
  name : String
  status : Verdict
  detail : String
  deriving DecidableEq

/-- Outcome of a gate. -/
structure GateReport where
  gate : String
  status : Verdict
  lines : List GateLine
  deriving DecidableEq

def gateRank : Verdict → Nat
  | .fail => 0
  | .blocked => 1
  | .incomplete => 2
  | .skipped => 3
  | .pass => 4

def worse (a b : Verdict) : Verdict := if gateRank a ≤ gateRank b then a else b

/-- A receipt at tier `given` satisfies a requirement of tier `need`. -/
def tierSatisfies (need given : Tier) : Bool :=
  if given = .testOnlyTrust then need = .testOnlyTrust
  else if need.isPhysical ∧ given.isPhysical = false then false
  else need.rank ≤ given.rank

/-- `a` ranks above `b`: a PASS first, then the higher tier, then the later one. -/
def outranks (a b : Receipt) : Bool :=
  if (a.result = .pass) ≠ (b.result = .pass) then a.result = .pass
  else if a.tier.rank ≠ b.tier.rank then b.tier.rank < a.tier.rank
  else b.timestamp < a.timestamp

section Functions

variable (blake : List UInt8 → Digest) (c : LineCodec)

/-- One more receipt id in the search; a receipt that does not load ends it. -/
def considerCandidate (store : Store) (kind : String) (best : Option Receipt) (id : String) :
    Option (Option Receipt) := do
  let receipt ← (loadReceipt blake store id).toOption
  if receipt.kind ≠ kind then some best
  else if best.all (outranks receipt) then some (some receipt)
  else some best

def bestCandidate (store : Store) (kind : String) : Option Receipt :=
  ((listReceipts store).foldlM (considerCandidate blake store kind) none).join

def short (id : String) : String := String.ofList (id.toList.take 16)

def debugOption (o : Option String) : String := debug (o.getD "")

def joined (texts : List String) : String := "; ".intercalate texts

def Requirement.line (req : Requirement) (status : Verdict) (detail : String) : GateLine := ⟨req.name, status, detail⟩

/-- A required assertion: the status so far, and the problems so far. -/
def noteAssertion (req : Requirement) (receipt : Receipt) (state : Verdict × List String) (wanted : String) :
    Verdict × List String :=
  match receipt.assertions.find? (·.id = wanted) with
  | some a => if a.pass then state else (.fail, state.2 ++ [s!"assertion {debug wanted} failed"])
  | none => (if state.1 ≠ .fail then req.missingAs.verdict else state.1,
      state.2 ++ [s!"assertion {debug wanted} missing"])

/-- A source constraint. -/
def noteSource (req : Requirement) (receipt : Receipt) (state : Verdict × List String) (wanted : AssertionSource) :
    Verdict × List String :=
  match receipt.assertions.find? (·.id = wanted.id) with
  | some a =>
    if a.pass ∧ a.source = wanted.source then state
    else if a.pass = false then (.fail, state.2 ++ [s!"assertion {debug wanted.id} failed"])
    else (.fail, state.2 ++
      [s!"assertion {debug wanted.id} source {debug a.source} does not match required {debug wanted.source}"])
  | none => (if state.1 ≠ .fail then req.missingAs.verdict else state.1,
      state.2 ++ [s!"assertion {debug wanted.id} missing"])

def assertionState (req : Requirement) (receipt : Receipt) : Verdict × List String :=
  req.assertionSources.foldl (noteSource req receipt) (req.assertions.foldl (noteAssertion req receipt) (.pass, []))

def refuseLine (p : Prop) [Decidable p] (line : GateLine) : Except GateLine Unit := if p then .error line else .ok ()

def checkHardware (store : Store) (req : Requirement) (receipt : Receipt) : Except GateLine Unit :=
  if receipt.tier.isHardware then
    match leaseStatus c receipt store with
    | some r =>
      refuseLine (r.status ≠ .pass)
        (req.line (if r.status = .fail then .fail else .blocked) s!"{req.kind}: {joined r.reasons}")
    | none => .ok ()
  else .ok ()

def checkReceipt (store : Store) (req : Requirement) (receipt : Receipt) : Except GateLine Unit := do
  refuseLine (receipt.result ≠ .pass)
    (req.line receipt.result s!"{req.kind}: receipt {short receipt.id} records {receipt.result.asStr}")
  refuseLine (tierSatisfies req.minTier receipt.tier = false) (req.line .blocked
    s!"{req.kind}: receipt tier {receipt.tier.asStr} cannot satisfy required {req.minTier.asStr}")
  refuseLine (req.resource.any fun resource =>
      receipt.machine ≠ resource ∨ receipt.lease.all (·.resource ≠ resource))
    (req.line .incomplete s!"{req.kind}: receipt and exclusive hold must bind resource {debugOption req.resource}")
  refuseLine (req.repo.any (receipt.repo ≠ ·))
    (req.line .fail s!"{req.kind}: repository identity does not match required {debugOption req.repo}")
  refuseLine (req.machine.any (receipt.machine ≠ ·))
    (req.line .fail s!"{req.kind}: machine identity does not match required {debugOption req.machine}")
  refuseLine (req.procedureContains.any (contains receipt.procedure · = false))
    (req.line .fail s!"{req.kind}: procedure identity must include {debugOption req.procedureContains}")
  let count := receipt.inputArtifacts.length
  refuseLine (count < req.minInputArtifacts) (req.line req.missingAs.verdict
    s!"{req.kind}: requires at least {req.minInputArtifacts} input artifact digests, receipt has {count}")
  refuseLine (req.requireClean ∧ receipt.dirty) (req.line .blocked
    s!"{req.kind}: gate requires a clean source tree but receipt {short receipt.id} is dirty")
  let (status, problems) := assertionState req receipt
  refuseLine (problems ≠ []) (req.line status s!"{req.kind}: {joined problems}")
  refuseLine (req.mutation.any fun mutation =>
      receipt.declaredMutation ≠ mutation ∨ receipt.observedMutation ≠ mutation)
    (req.line .fail s!"{req.kind}: declared/observed mutation must both be {(req.mutation.getD .none).asStr}")
  checkHardware c store req receipt

/-- The line from the chain of the chosen receipt. The code asks for the chain twice, of the same store. -/
def chainLine (req : Requirement) (receipt : Receipt) (chain : Except String ChainReport) : GateLine :=
  match chain with
  | .error e => req.line .incomplete s!"{req.kind}: cannot verify receipt dependency chain: {e}"
  | .ok chain =>
    if chain.status ≠ .pass then req.line chain.status
      s!"{req.kind}: receipt dependency chain {chain.status.asStr}: {joined chain.reasons}"
    else
      let missing := req.dependencyKinds.filter fun kind => !chain.lines.any (·.kind = kind)
      let listed := ", ".intercalate missing
      if missing ≠ [] then req.line req.missingAs.verdict
        s!"{req.kind}: required receipt dependency kinds missing from verified chain: {listed}"
      else req.line .pass s!"{req.kind}: receipt {short receipt.id} tier {receipt.tier.asStr}"

def evalKind (fuel : Nat) (store : Store) (req : Requirement) : Option GateLine :=
  match bestCandidate blake store req.kind with
  | none =>
    let detail := match req.missingReason with
      | none => s!"MISSING: no receipt of kind {debug req.kind} in store"
      | some reason => s!"MISSING: {reason}"
    some (req.line req.missingAs.verdict detail)
  | some receipt =>
    match checkReceipt c store req receipt with
    | .error line => some line
    | .ok () => (verifyChain blake c fuel (fileName receipt.id) store).map (chainLine req receipt)

def nestedLine (req : Requirement) (child : String) (report : GateReport) : GateLine :=
  let missed := (report.lines.filter (·.status ≠ .pass)).map fun l => s!"{l.name}: {l.detail}"
  let summary := if joined missed = "" then s!"all {report.lines.length} requirements PASS" else joined missed
  req.line report.status s!"{child}: {report.status.asStr} ({summary})"

/-- Evaluate one requirement against the store; `inner` evaluates a nested gate. -/
def evalRequirement (inner : Gate → List String → Option GateReport) (fuel : Nat) (store : Store)
    (manifests : Manifests) (stack : List String) (req : Requirement) : Option GateLine :=
  match req.gateRef with
  | some child =>
    if req.kind ≠ "" then some (req.line .fail "manifest requirement cannot name both a gate and receipt kind")
    else if child ∈ stack then some (req.line .fail s!"gate dependency cycle through {child}")
    else
      match loadManifest manifests child with
      | .error e => some (req.line .blocked s!"BLOCKED {child}: {e}")
      | .ok manifest => (inner manifest (stack ++ [child])).map (nestedLine req child)
  | none =>
    if req.kind = "" then some (req.line .fail "manifest requirement has neither gate_ref nor receipt kind")
    else evalKind blake c fuel store req

def gateReport (manifest : Gate) (lines : List GateLine) : GateReport :=
  let status := lines.foldl (fun status line => worse status line.status) .pass
  -- no requirements means nothing is proven
  ⟨manifest.gate, if manifest.requires = [] then .incomplete else status, lines⟩

def evaluateInner (fuel : Nat) (store : Store) (manifests : Manifests) : Nat → Gate → List String → Option GateReport
  | 0, _, _ => none
  | depth + 1, manifest, stack =>
    (manifest.requires.mapM (evalRequirement blake c (evaluateInner fuel store manifests depth) fuel store manifests
      stack)).map (gateReport manifest)

/-- Evaluate a gate manifest against the store; `none` when the fuel runs out. -/
def evaluate (fuel : Nat) (store : Store) (manifests : Manifests) (manifest : Gate) : Option GateReport :=
  evaluateInner blake c fuel store manifests fuel manifest [manifest.gate]

end Functions

end SovereignCore.Evidence
