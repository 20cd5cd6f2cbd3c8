import Mathlib
import SovereignCore.Closure.Digest
import SovereignCore.Closure.Graph
import SovereignCore.Closure.Manifest
import SovereignCore.Evidence.Line
import SovereignCore.Evidence.Verdicts

/-!
# Verification of the closure

`verify` checks every component with a manifest: its declared edges and pins, its receipt and everything that receipt
depends on, and its current sources. Each check looks at one component and one edge; that nothing is found says
something of the whole closure.

* `Workspace`, `load`, `walkReceipts`, `checkComponent`, `verify` : the pipeline and its findings;
* `walk_clean` : a walk without findings has seen everything reachable, all of it stored and untainted;
* `Clean`, `clean_of_nil` : what a component without findings satisfies;
* `verify_sound` : what no findings at all say of the transitive closure.
-/

namespace SovereignCore.Closure

open Std Relation Text Evidence

inductive Code
  | unverifiedDependency
  | missingReceipt
  | receiptHashMismatch
  | dependencyNotPinned
  | dependencyCycle
  | staleReceipt
  | undeclaredImport
  | taintedArtifact
  | unknownVerifierProfile
  deriving DecidableEq, Repr

def Code.exitCode : Code → Nat
  | unverifiedDependency => 10
  | missingReceipt => 11
  | receiptHashMismatch => 12
  | dependencyNotPinned => 13
  | dependencyCycle => 14
  | staleReceipt => 15
  | undeclaredImport => 16
  | taintedArtifact => 17
  | unknownVerifierProfile => 18

structure Finding where
  code : Code
  component : String
  detail : String
  deriving DecidableEq, Repr

/-- Order by code, then component, then detail. The exit codes grow as the codes are declared. -/
def Finding.le (a b : Finding) : Bool :=
  a.code.exitCode < b.code.exitCode ∨ (a.code = b.code ∧
    (a.component < b.component ∨ (a.component = b.component ∧ a.detail ≤ b.detail)))

/-- A workspace package: its directory and its internal path dependencies. -/
structure Package where
  name : String
  dir : String
  deps : ExtTreeSet String

/-- What is read of a checkout. -/
structure Workspace where
  root : String
  packages : List Package
  manifestText : String → Option (Except String String)
  sources : String → Listing
  /-- The text of `closure.lock`, if it can be read. -/
  lock : Option String

/-- Whether to write the lock first, and how the write ends. -/
inductive WriteLock
  | no
  | written
  | failed (error : String)

def lockFile : String := "closure.lock"

def lockHeader : String := "closure-lock v1"

def profileMinTier (profile : String) : Option Tier :=
  if profile = "host-v1" then some .hostTest
  else if profile = "qemu-v1" then some .qemu
  else if profile = "production-v1" then some .production
  else none

/-! ## Receipts -/

inductive Load
  | missing
  | mismatch (text : String)
  | ok (receipt : Receipt)

section Functions

variable (blake : List UInt8 → Evidence.Digest) (c : LineCodec)

def load (store : Store) (id : String) : Load :=
  match store.file (Evidence.fileName id) with
  | none => .missing
  | some (.error e) => .mismatch s!"not a valid receipt: {e}"
  | some (.ok r) =>
    match receiptId blake r with
    | .error e => .mismatch e
    | .ok canonical =>
      if canonical ≠ id ∨ lower r.id ≠ id then
        .mismatch s!"file {id} has canonical identity {canonical} and claims {r.id}"
      else .ok r

theorem load_ok {store : Store} {id : String} {r : Receipt} :
    load blake store id = .ok r ↔
      store.file (Evidence.fileName id) = some (.ok r) ∧ receiptId blake r = .ok id ∧ lower r.id = id := by
  unfold load
  constructor
  · intro h
    split at h
    · cases h
    · cases h
    · rename_i r' hfile
      split at h
      · cases h
      · rename_i canonical hid
        split_ifs at h with hne
        obtain rfl := Load.ok.inj h
        rw [not_or, not_not, not_not] at hne
        exact ⟨hfile, hne.1 ▸ hid, hne.2⟩
  · rintro ⟨hfile, hid, hlower⟩
    rw [hfile]
    dsimp only
    rw [hid]
    dsimp only
    rw [if_neg (by simp [hlower])]

structure ChainFacts where
  findings : List (Code × String) := []
  tainted : List String := []
  root : Option Receipt := none

/-- The ids that the receipt of an id depends on, the last one first. -/
def needs (store : Store) (id : String) : List String :=
  match load blake store id with
  | .ok r => (r.dependencies.map lower).reverse
  | _ => []

def storedIds (store : Store) : List String :=
  store.receipts.filterMap fun file => file.2.toOption.map fun r => lower r.id

theorem mem_storedIds {store : Store} {id : String} {r : Receipt} (h : load blake store id = .ok r) :
    id ∈ storedIds store := by
  obtain ⟨hfile, -, hlower⟩ := (load_ok blake).1 h
  obtain ⟨l, l', hl, -⟩ := List.lookup_eq_some_iff.1 hfile
  unfold storedIds
  rw [List.mem_filterMap]
  refine ⟨(Evidence.fileName id, .ok r), ?_, ?_⟩
  · rw [hl]
    simp
  · simp [Except.toOption, hlower]

def taints (cur : String) (r : Receipt) : List String :=
  (if r.dirty then [s!"{cur} recorded from a dirty tree"] else []) ++
    if r.tier = .testOnlyTrust then [s!"{cur} is TEST_ONLY_TRUST"] else []

/-- The loop of `walk_receipts`. The vector `todo` has its end first here. -/
def walkFrom (store : Store) (id : String) (seen todo : List String) (facts : ChainFacts) : ChainFacts :=
  match todo with
  | [] => facts
  | cur :: todo =>
    if _hseen : cur ∈ seen then walkFrom store id seen todo facts
    else
      match _hload : load blake store cur with
      | .missing => walkFrom store id (cur :: seen) todo
          { facts with findings := facts.findings ++ [(.missingReceipt, s!"receipt {cur} not in store")] }
      | .mismatch m => walkFrom store id (cur :: seen) todo
          { facts with findings := facts.findings ++ [(.receiptHashMismatch, s!"receipt {cur}: {m}")] }
      | .ok r => walkFrom store id (cur :: seen) (needs blake store cur ++ todo)
          { facts with
            tainted := facts.tainted ++ taints cur r
            root := if cur = id then some r else facts.root }
termination_by Search.load (needs blake store) (storedIds store) todo seen
decreasing_by
  · simp [Search.load]
  · exact Search.load_pop
  · exact Search.load_pop
  · exact Search.load_push (mem_storedIds blake _hload) _hseen

/-- Walk the receipt graph from an id: what is missing, mismatched and tainted. -/
def walkReceipts (store : Store) (id : String) : ChainFacts := walkFrom blake store id [] [id] {}

/-- The chain report of a receipt file. The fuel is enough for every store. -/
def chainReportOf (store : Store) (id : String) : Except String ChainReport :=
  (verifyChain blake c (store.mentioned.card + 1) (Evidence.fileName id) store).getD (.error "")

/-! ## One component -/

def declareCompare (actual declared : ExtTreeSet String) : List (Code × String) :=
  (actual.toList.filter (· ∉ declared)).map (fun n => (.undeclaredImport, n)) ++
    (declared.toList.filter (· ∉ actual)).map fun n => (.unverifiedDependency, n)

def declarationFindings (m : Manifest) (pkg : Package) : List (Code × String) :=
  (declareCompare pkg.deps (.ofList m.deps.keys)).map fun d =>
    (d.1, if d.1 = .undeclaredImport then s!"edge to {d.2} is not declared in {Manifest.fileName}"
      else s!"declared dep {d.2} is not an edge of the graph")

def edgeFindings (m : Manifest) (manifests : ExtTreeMap String Manifest) (dep : String) : List (Code × String) :=
  match m.deps[dep]? with
  | none => []
  | some pin =>
    match manifests[dep]? with
    | none => [(.unverifiedDependency, s!"dependency {dep} has no {Manifest.fileName}")]
    | some dm =>
      match pin with
      | none => [(.dependencyNotPinned, s!"dep {dep} declared without a receipt pin")]
      | some p =>
        if p ≠ dm.receipt then
          [(.dependencyNotPinned, s!"dep {dep} pinned to {p} but {dep} is qualified by {dm.receipt}")]
        else []

def pinFindings (m : Manifest) (root : Receipt) (entry : String × Option String) : List (Code × String) :=
  match entry.2 with
  | none => []
  | some p =>
    if p ∉ root.dependencies.map lower then
      [(.dependencyNotPinned, s!"receipt {m.receipt} does not depend on pinned receipt {p} of {entry.1}")]
    else []

def rootFindings (m : Manifest) (root : Receipt) : List (Code × String) :=
  m.deps.toList.flatMap (pinFindings m root) ++
    (if m.source ∉ root.inputArtifacts then
      [(.staleReceipt, s!"receipt {m.receipt} was not taken at {m.source}")] else []) ++
    (match profileMinTier m.profile with
      | none => []
      | some need =>
        if root.tier ≠ .testOnlyTrust ∧ tierSatisfies need root.tier = false then
          [(.unverifiedDependency, s!"receipt tier {root.tier.asStr} does not satisfy profile {m.profile}")]
        else []) ++
    if root.result ≠ .pass then
      [(.unverifiedDependency, s!"receipt {m.receipt} result is {root.result.asStr}")] else []

def chainFindings (m : Manifest) (store : Store) : List (Code × String) :=
  match chainReportOf blake c store m.receipt with
  | .error e => [(.unverifiedDependency, s!"chain error: {e}")]
  | .ok rep =>
    if rep.status ≠ .pass then
      let why := "; ".intercalate rep.reasons
      [(if contains why "dependency cycle" then .dependencyCycle else .unverifiedDependency,
        s!"chain {rep.status.asStr}: {why}")]
    else []

/-- The current source against the digest that the manifest records. -/
def sourceFindings (m : Manifest) (pkg : Package) (sources : Listing) : List (Code × String) :=
  match sourceDigest blake pkg.dir sources with
  | .error e => [(.staleReceipt, s!"cannot digest source: {e}")]
  | .ok d =>
    if s!"blake3:{d}" ≠ m.source then
      [(.staleReceipt, s!"source is blake3:{d} but manifest records {m.source}")] else []

def checkComponent (m : Manifest) (pkg : Package) (manifests : ExtTreeMap String Manifest) (store : Store)
    (sources : Listing) : List (Code × String) :=
  let facts := walkReceipts blake store m.receipt
  (if profileMinTier m.profile = none then
      [(.unknownVerifierProfile, s!"profile {debug m.profile} is not known to this verifier")] else []) ++
    declarationFindings m pkg ++
    pkg.deps.toList.flatMap (edgeFindings m manifests) ++
    facts.findings ++
    facts.tainted.map (fun t => (.taintedArtifact, t)) ++
    (match facts.root with
      | none => []
      | some root => rootFindings m root) ++
    (if facts.findings = [] then chainFindings blake c m store else []) ++
    sourceFindings blake m pkg sources

/-! ## The pipeline -/

def readManifest (ws : Workspace) (pkg : Package) : Option (Except String Manifest) :=
  (ws.manifestText pkg.dir).map fun text => do
    let text ← text
    let m ← Manifest.parse text
    if m.component = pkg.name then .ok m
    else .error s!"component {debug m.component} does not match package {debug pkg.name}"

/-- The manifests by package name; of packages with one name, the last. -/
def manifestsOf (ws : Workspace) : ExtTreeMap String Manifest :=
  ws.packages.foldl (fun ms pkg =>
    match readManifest ws pkg with
    | some (.ok m) => ms.insert pkg.name m
    | _ => ms) ∅

def badManifests (ws : Workspace) : List Finding :=
  ws.packages.filterMap fun pkg =>
    match readManifest ws pkg with
    | some (.error e) => some ⟨.unverifiedDependency, pkg.name, s!"bad {Manifest.fileName}: {e}"⟩
    | _ => none

def byName (packages : List Package) : ExtTreeMap String Package :=
  packages.foldl (fun m pkg => m.insert pkg.name pkg) ∅

def graphOf (packages : List Package) : Graph := packages.foldl (fun g pkg => g.insert pkg.name pkg.deps) ∅

/-- The lock: a line for each component, then its transitive dependencies with their receipts. -/
def renderLock (manifests : ExtTreeMap String Manifest) (graph : Graph) : String :=
  manifests.toList.foldl (fun s entry =>
    (graph.closureOf entry.1).toList.foldl (fun s dep =>
      let id := (manifests[dep]?.map Manifest.receipt).getD "-"
      s ++ s!"needs {entry.1} {dep} {id}\n")
      (s ++ s!"component {entry.1} {entry.2.receipt} {entry.2.source}\n"))
    s!"{lockHeader}\n"

/-- The component and the dependency of a `needs` line. -/
def needsPair (line : String) : Option (String × String) :=
  match (line.toList.splitOn ' ').map String.ofList with
  | "needs" :: component :: dep :: _ => some (component, dep)
  | _ => none

/-- The pairs of the lock on disk that the rebuilt lock does not have. -/
def extraNeeds (have_ want : String) : List (String × String) :=
  let wanted := (lines want).filterMap needsPair
  (((lines have_).filterMap needsPair).filter (· ∉ wanted)).mergeSort
    (fun a b => a.1 < b.1 ∨ (a.1 = b.1 ∧ a.2 ≤ b.2)) |>.destutter (· ≠ ·)

def withoutExtraNeeds (have_ want : String) : String :=
  let wanted := (lines want).filterMap needsPair
  String.join (((lines have_).filter fun line => ¬ ∃ p ∈ needsPair line, p ∉ wanted).map (· ++ "\n"))

def lockFindings (want : String) : Option String → List Finding
  | none => [⟨.dependencyNotPinned, "-", s!"{lockFile} is missing"⟩]
  | some have_ =>
    if have_ = want then []
    else
      (extraNeeds have_ want).map (fun p =>
        ⟨.unverifiedDependency, p.1, s!"{lockFile} pins {p.2} for {p.1}, which does not depend on it"⟩) ++
      if withoutExtraNeeds have_ want ≠ want then
        [⟨.dependencyNotPinned, "-", s!"{lockFile} does not match the rebuilt closure"⟩] else []

structure Outcome where
  findings : List Finding
  components : Nat
  passed : List (String × String)

def componentFindings (ws : Workspace) (store : Store) : List Finding :=
  let manifests := manifestsOf ws
  let bad := badManifests ws
  bad ++
    (if manifests.isEmpty ∧ bad = [] then
      [⟨.unverifiedDependency, "-", s!"no {Manifest.fileName} found under {ws.root}"⟩] else []) ++
    (match (graphOf ws.packages).findCycle with
      | none => []
      | some cycle => [⟨.dependencyCycle, cycle.headD "", " -> ".intercalate cycle⟩]) ++
    manifests.toList.flatMap fun entry =>
      match (byName ws.packages)[entry.1]? with
      | none => []
      | some pkg => (checkComponent blake c entry.2 pkg manifests store (ws.sources pkg.dir)).map fun f =>
          ⟨f.1, entry.2.component, f.2⟩

def checkLock (ws : Workspace) (want : String) (writeLock : WriteLock) : Except String (List Finding) :=
  match writeLock with
  | .no => .ok (lockFindings want ws.lock)
  | .written => .ok (lockFindings want (some want))
  | .failed e => .error s!"cannot write {ws.root}/{lockFile}: {e}"

/-- Run every check. An error is one that callers treat as failure too. -/
def verify (ws : Workspace) (store : Store) (writeLock : WriteLock) : Except String Outcome := do
  let manifests := manifestsOf ws
  let found := componentFindings blake c ws store
  let locks ← (if found = [] then checkLock ws (renderLock manifests (graphOf ws.packages)) writeLock else .ok [] :
    Except String (List Finding))
  let findings := ((found ++ locks).mergeSort Finding.le).destutter (· ≠ ·)
  return {
    findings
    components := manifests.size
    passed := (manifests.toList.filter fun entry => ¬ ∃ f ∈ findings, f.component = entry.1).map fun entry =>
      (entry.1, entry.2.receipt) }

end Functions

/-! ## A walk without findings -/

section Walk

variable {blake : List UInt8 → Evidence.Digest} {store : Store} {id : String} {seen todo : List String} {facts : ChainFacts}

/-- The receipt of `x` names `y` among its dependencies. -/
def Needs (blake : List UInt8 → Evidence.Digest) (store : Store) (x y : String) : Prop :=
  ∃ r, load blake store x = .ok r ∧ ∃ dep ∈ r.dependencies, lower dep = y

theorem mem_needs {x y : String} : y ∈ needs blake store x ↔ Needs blake store x y := by
  unfold needs Needs
  split
  · rename_i r hload
    simp [hload]
  · rename_i hnot
    constructor
    · intro h
      exact absurd h List.not_mem_nil
    · rintro ⟨r, hload, -⟩
      exact absurd hload (hnot r)

theorem needs_ok {r : Receipt} (h : load blake store id = .ok r) :
    needs blake store id = (r.dependencies.map lower).reverse := by
  unfold needs
  rw [h]

def Fine (blake : List UInt8 → Evidence.Digest) (store : Store) (x : String) : Prop :=
  ∃ r, load blake store x = .ok r ∧ r.dirty = false ∧ r.tier ≠ .testOnlyTrust

theorem taints_nil {x : String} {r : Receipt} : taints x r = [] ↔ r.dirty = false ∧ r.tier ≠ .testOnlyTrust := by
  unfold taints
  rw [List.append_eq_nil_iff]
  cases r.dirty <;> by_cases ht : r.tier = .testOnlyTrust <;> simp [ht]

theorem walkFrom_grows : facts.findings <+: (walkFrom blake store id seen todo facts).findings ∧
    facts.tainted <+: (walkFrom blake store id seen todo facts).tainted := by
  fun_induction walkFrom blake store id seen todo facts with
  | case1 seen facts => exact ⟨List.prefix_rfl, List.prefix_rfl⟩
  | case2 seen facts cur todo hseen ih => exact ih
  | case3 seen facts cur todo hseen hload ih => exact ⟨(List.prefix_append _ _).trans ih.1, ih.2⟩
  | case4 seen facts cur todo hseen m hload ih => exact ⟨(List.prefix_append _ _).trans ih.1, ih.2⟩
  | case5 seen facts cur todo hseen r hload ih => exact ⟨ih.1, (List.prefix_append _ _).trans ih.2⟩

theorem findings_nil (h : (walkFrom blake store id seen todo facts).findings = []) : facts.findings = [] :=
  List.prefix_nil.1 (h ▸ walkFrom_grows.1)

theorem tainted_nil (h : (walkFrom blake store id seen todo facts).tainted = []) : facts.tainted = [] :=
  List.prefix_nil.1 (h ▸ walkFrom_grows.2)

/-- The loop, while the receipts seen are fine and all they need is seen or still to do. -/
theorem walkFrom_clean (hf : (walkFrom blake store id seen todo facts).findings = [])
    (ht : (walkFrom blake store id seen todo facts).tainted = [])
    (hseen : ∀ x ∈ seen, Fine blake store x ∧ ∀ y, Needs blake store x y → y ∈ seen ∨ y ∈ todo)
    (hid : id ∈ seen ∨ id ∈ todo) (hroot : id ∈ seen → ∃ r, load blake store id = .ok r ∧ facts.root = some r) :
    (∃ S : Set String, (∀ x, x ∈ seen ∨ x ∈ todo → x ∈ S) ∧ (∀ x ∈ S, Fine blake store x) ∧
      Reach.Closed (Needs blake store) S) ∧
    ∃ r, load blake store id = .ok r ∧ (walkFrom blake store id seen todo facts).root = some r := by
  fun_induction walkFrom blake store id seen todo facts with
  | case1 seen facts =>
    refine ⟨⟨{x | x ∈ seen}, ?_, fun x hx => (hseen x hx).1, ?_⟩, hroot (hid.resolve_right List.not_mem_nil)⟩
    · intro x hx
      exact hx.resolve_right List.not_mem_nil
    · intro x hx y hxy
      exact ((hseen x hx).2 y hxy).resolve_right List.not_mem_nil
  | case2 seen facts cur todo hcur ih =>
    -- `cur` is among the seen
    have hdrop : ∀ x, x ∈ seen ∨ x ∈ cur :: todo → x ∈ seen ∨ x ∈ todo := by
      rintro x (hx | hx)
      · exact Or.inl hx
      · obtain rfl | hx := List.mem_cons.1 hx
        · exact Or.inl hcur
        · exact Or.inr hx
    obtain ⟨⟨S, hS, hfine, hclosed⟩, hgot⟩ := ih hf ht (fun x hx => ⟨(hseen x hx).1, fun y hy => hdrop y ((hseen x hx).2 y hy)⟩)
      (hdrop id hid) hroot
    exact ⟨⟨S, fun x hx => hS x (hdrop x hx), hfine, hclosed⟩, hgot⟩
  | case3 seen facts cur todo hcur hload ih =>
    have hnil := findings_nil hf
    simp at hnil
  | case4 seen facts cur todo hcur m hload ih =>
    have hnil := findings_nil hf
    simp at hnil
  | case5 seen facts cur todo hcur r hload ih =>
    have htaint : taints cur r = [] := by
      have hnil := tainted_nil ht
      exact (List.append_eq_nil_iff.1 hnil).2
    have hmove : ∀ x, x ∈ seen ∨ x ∈ cur :: todo → x ∈ cur :: seen ∨ x ∈ needs blake store cur ++ todo := by
      rintro x (hx | hx)
      · exact Or.inl (List.mem_cons_of_mem _ hx)
      · obtain rfl | hx := List.mem_cons.1 hx
        · exact Or.inl List.mem_cons_self
        · exact Or.inr (List.mem_append_right _ hx)
    have hseen' : ∀ x ∈ cur :: seen, Fine blake store x ∧
        ∀ y, Needs blake store x y → y ∈ cur :: seen ∨ y ∈ needs blake store cur ++ todo := by
      intro x hx
      obtain rfl | hx := List.mem_cons.1 hx
      · exact ⟨⟨r, hload, taints_nil.1 htaint⟩, fun y hy => Or.inr (List.mem_append_left _ (mem_needs.2 hy))⟩
      · exact ⟨(hseen x hx).1, fun y hy => hmove y ((hseen x hx).2 y hy)⟩
    have hroot' : id ∈ cur :: seen → ∃ r', load blake store id = .ok r' ∧
        (if cur = id then some r else facts.root) = some r' := by
      intro hin
      by_cases heq : cur = id
      · exact ⟨r, heq ▸ hload, if_pos heq⟩
      · obtain rfl | hin := List.mem_cons.1 hin
        · exact absurd rfl heq
        · rw [if_neg heq]
          exact hroot hin
    obtain ⟨⟨S, hS, hfine, hclosed⟩, hgot⟩ := ih hf ht hseen' (hmove id hid) hroot'
    exact ⟨⟨S, fun x hx => hS x (hmove x hx), hfine, hclosed⟩, hgot⟩

/-- A walk without findings and taints has seen everything that can be reached, all of it fine. -/
theorem walk_clean (hf : (walkReceipts blake store id).findings = []) (ht : (walkReceipts blake store id).tainted = []) :
    (∀ x, ReflTransGen (Needs blake store) id x → Fine blake store x) ∧
      ∃ r, load blake store id = .ok r ∧ (walkReceipts blake store id).root = some r := by
  obtain ⟨⟨S, hS, hfine, hclosed⟩, hroot⟩ := walkFrom_clean hf ht (fun x hx => absurd hx List.not_mem_nil)
    (Or.inr List.mem_cons_self) (fun hin => absurd hin List.not_mem_nil)
  refine ⟨fun x hx => hfine x ?_, hroot⟩
  have hid : id ∈ S := hS id (Or.inr List.mem_cons_self)
  obtain rfl | hx := reflTransGen_iff_eq_or_transGen.1 hx
  · exact hid
  · exact hclosed.transGen hid hx

theorem walkFrom_ok {cur : String} {r : Receipt} (hcur : cur ∉ seen) (hload : load blake store cur = .ok r) :
    walkFrom blake store id seen (cur :: todo) facts = walkFrom blake store id (cur :: seen) (needs blake store cur ++ todo)
      { facts with
        tainted := facts.tainted ++ taints cur r
        root := if cur = id then some r else facts.root } := by
  rw [walkFrom, dif_neg hcur]
  split
  · rename_i h
    rw [hload] at h
    cases h
  · rename_i h
    rw [hload] at h
    cases h
  · rename_i r' h
    obtain rfl := Load.ok.inj (hload.symm.trans h)
    rfl

/-- The fuel of a chain report is enough: a chain in order gives no finding. -/
theorem chain_of_inOrder {c : LineCodec} {m : Manifest} {root : Receipt} {rootReport : Report}
    (hfile : store.file (Evidence.fileName m.receipt) = some (.ok root))
    (hverdict : verifyWithStore blake c (.ok root) store = .ok (root, rootReport))
    (hin : InOrder (leaseStatus c · store) (storeResolver blake c store) root rootReport) :
    chainFindings blake c m store = [] := by
  have hbelow : ∀ x, Below (storeResolver blake c store) root x → x ∈ store.mentioned := fun x hx =>
    below_mentioned hfile hx
  obtain ⟨report, hyields, hpass, -⟩ := verify_graph_exact (leaseStatus c · store) (storeResolver blake c store) root
    rootReport (store.mentioned.finite_toSet.subset hbelow)
  obtain ⟨report', hrun, -⟩ := chain_outcome (leaseStatus c · store) rootReport hbelow (Nat.lt_succ_self _)
  obtain rfl := hyields.unique (.of_run hrun)
  unfold chainFindings chainReportOf verifyChain
  rw [hfile, orError, Result.ok_bind, hverdict]
  dsimp only
  rw [hrun]
  dsimp only [Option.map_some, Option.getD_some]
  rw [if_neg (not_not.2 (hpass.2 hin))]

end Walk

/-! ## A component without findings -/

section Components

variable {blake : List UInt8 → Evidence.Digest} {c : LineCodec} {ws : Workspace} {store : Store} {m : Manifest}
  {pkg : Package} {manifests : ExtTreeMap String Manifest} {sources : Listing}

/-- Every edge is pinned to the receipt of a dependency with a manifest; the receipt passes, binds the pins and the
source, and everything it reaches is fine; the source is as recorded. -/
structure Clean (blake : List UInt8 → Evidence.Digest) (store : Store) (manifests : ExtTreeMap String Manifest)
    (sources : Listing) (m : Manifest) (pkg : Package) : Prop where
  edges : ∀ dep ∈ pkg.deps, ∃ dm, manifests[dep]? = some dm ∧ m.deps[dep]? = some (some dm.receipt)
  reached : ∀ x, ReflTransGen (Needs blake store) m.receipt x → Fine blake store x
  receipt : ∃ r, load blake store m.receipt = .ok r ∧ r.result = .pass ∧ m.source ∈ r.inputArtifacts ∧
    ∀ (dep p : String), m.deps[dep]? = some (some p) → p ∈ r.dependencies.map lower
  source : ∃ d, sourceDigest blake pkg.dir sources = .ok d ∧ m.source = s!"blake3:{d}"

theorem ite_nil {α : Type} {p : Prop} [Decidable p] {a : α} (h : (if p then [a] else []) = []) : ¬ p := by
  intro hp
  rw [if_pos hp] at h
  cases h

theorem declared_of_nil (h : declarationFindings m pkg = []) {dep : String} (hdep : dep ∈ pkg.deps) : dep ∈ m.deps := by
  unfold declarationFindings declareCompare at h
  have hfilter := (List.append_eq_nil_iff.1 (List.map_eq_nil_iff.1 h)).1
  have hnone := List.filter_eq_nil_iff.1 (List.map_eq_nil_iff.1 hfilter) dep (ExtTreeSet.mem_toList.2 hdep)
  simpa using hnone

/-- A declared edge is pinned to the receipt of the dependency's manifest. -/
theorem pinned_of_nil {dep : String} (h : edgeFindings m manifests dep = []) (hdep : dep ∈ m.deps) :
    ∃ dm, manifests[dep]? = some dm ∧ m.deps[dep]? = some (some dm.receipt) := by
  obtain ⟨pin, hpin⟩ := Table.mem_iff.1 hdep
  unfold edgeFindings at h
  rw [hpin] at h
  dsimp only at h
  split at h
  · cases h
  · rename_i dm hdm
    split at h
    · cases h
    · split_ifs at h with hne
      exact ⟨dm, hdm, by rw [hpin, not_not.1 hne]⟩

theorem pins_of_nil {root : Receipt} (h : m.deps.toList.flatMap (pinFindings m root) = []) {dep p : String}
    (hpin : m.deps[dep]? = some (some p)) : p ∈ root.dependencies.map lower := by
  have hnone := List.flatMap_eq_nil_iff.1 h (dep, some p) (ExtTreeMap.mem_toList_iff_getElem?_eq_some.2 hpin)
  unfold pinFindings at hnone
  dsimp only at hnone
  exact not_not.1 (ite_nil hnone)

theorem clean_of_nil (h : checkComponent blake c m pkg manifests store sources = []) :
    Clean blake store manifests sources m pkg := by
  unfold checkComponent at h
  simp only [List.append_eq_nil_iff] at h
  obtain ⟨⟨⟨⟨⟨⟨⟨-, hdeclared⟩, hedges⟩, hfound⟩, htainted⟩, hroot⟩, -⟩, hsource⟩ := h
  obtain ⟨hreached, r, hload, hr⟩ := walk_clean hfound (List.map_eq_nil_iff.1 htainted)
  rw [hr] at hroot
  unfold rootFindings at hroot
  simp only [List.append_eq_nil_iff] at hroot
  obtain ⟨⟨⟨hpins, hinput⟩, -⟩, hresult⟩ := hroot
  refine ⟨?_, hreached, ⟨r, hload, not_not.1 (ite_nil hresult), not_not.1 (ite_nil hinput), fun dep p => pins_of_nil hpins⟩, ?_⟩
  · intro dep hdep
    exact pinned_of_nil (List.flatMap_eq_nil_iff.1 hedges dep (ExtTreeSet.mem_toList.2 hdep)) (declared_of_nil hdeclared hdep)
  · unfold sourceFindings at hsource
    split at hsource
    · cases hsource
    · rename_i d hd
      exact ⟨d, hd, (not_not.1 (ite_nil hsource)).symm⟩

theorem rootFindings_nil {m : Manifest} {root : Receipt} {need : Tier}
    (hpins : ∀ dep p : String, m.deps[dep]? = some (some p) → p ∈ root.dependencies.map lower)
    (hsource : m.source ∈ root.inputArtifacts) (hprofile : profileMinTier m.profile = some need)
    (htier : tierSatisfies need root.tier = true) (hresult : root.result = .pass) : rootFindings m root = [] := by
  have hpins' : m.deps.toList.flatMap (pinFindings m root) = [] := by
    rw [List.flatMap_eq_nil_iff]
    rintro ⟨dep, pin⟩ hentry
    unfold pinFindings
    cases pin with
    | none => rfl
    | some p => exact if_neg (not_not.2 (hpins dep p (ExtTreeMap.mem_toList_iff_getElem?_eq_some.1 hentry)))
  unfold rootFindings
  rw [hpins', if_neg (not_not.2 hsource), hprofile, if_neg (not_not.2 hresult)]
  dsimp only
  rw [if_neg (by simp [htier])]
  rfl

theorem checkComponent_nil {blake : List UInt8 → Evidence.Digest} {c : LineCodec} {store : Store} {m : Manifest}
    {pkg : Package} {manifests : ExtTreeMap String Manifest} {sources : Listing} {root : Receipt}
    (hprofile : profileMinTier m.profile ≠ none) (hdeclared : declarationFindings m pkg = [])
    (hedges : ∀ dep ∈ pkg.deps, edgeFindings m manifests dep = [])
    (hwalk : walkReceipts blake store m.receipt = { root := some root }) (hroot : rootFindings m root = [])
    (hchain : chainFindings blake c m store = []) (hsource : sourceFindings blake m pkg sources = []) :
    checkComponent blake c m pkg manifests store sources = [] := by
  have hedges' : pkg.deps.toList.flatMap (edgeFindings m manifests) = [] :=
    List.flatMap_eq_nil_iff.2 fun dep hdep => hedges dep (ExtTreeSet.mem_toList.1 hdep)
  unfold checkComponent
  rw [if_neg hprofile, hdeclared, hedges', hwalk, hchain, hsource]
  dsimp only
  rw [hroot]
  rfl

/-! ## The whole workspace -/

theorem graphOf_eq (packages : List Package) (n : String) :
    (graphOf packages)[n]? = (byName packages)[n]?.map Package.deps := by
  have hfold : ∀ (ps : List Package) (g : Graph) (b : ExtTreeMap String Package),
      (∀ k : String, g[k]? = b[k]?.map Package.deps) → ∀ k : String,
        (ps.foldl (fun g pkg => g.insert pkg.name pkg.deps) g)[k]? =
          (ps.foldl (fun m pkg => m.insert pkg.name pkg) b)[k]?.map Package.deps := by
    intro ps
    induction ps with
    | nil => exact fun g b hgb => hgb
    | cons p ps ih =>
      intro g b hgb
      refine ih _ _ fun k => ?_
      rw [Table.get_insert, Table.get_insert]
      split_ifs
      · rfl
      · exact hgb k
  refine hfold packages ∅ ∅ (fun k => ?_) n
  rw [ExtTreeMap.getElem?_empty, ExtTreeMap.getElem?_empty]
  rfl

/-- An edge of the graph is a dependency of the package of that name. -/
theorem edge_iff {packages : List Package} {x y : String} :
    (graphOf packages).Edge x y ↔ ∃ pkg, (byName packages)[x]? = some pkg ∧ y ∈ pkg.deps := by
  unfold Graph.Edge Graph.deps
  rw [graphOf_eq, ExtTreeSet.mem_toList]
  cases hpkg : (byName packages)[x]? with
  | none => simp
  | some pkg => simp

theorem byName_of_manifest {n : String} (h : (manifestsOf ws)[n]? = some m) : ∃ pkg, (byName ws.packages)[n]? = some pkg := by
  have hfold : ∀ (ps : List Package) (ms : ExtTreeMap String Manifest) (b : ExtTreeMap String Package),
      (∀ k : String, ms[k]?.isSome → b[k]?.isSome) → ∀ k : String,
        (ps.foldl (fun ms pkg =>
          match readManifest ws pkg with
          | some (.ok m) => ms.insert pkg.name m
          | _ => ms) ms)[k]?.isSome → (ps.foldl (fun m pkg => m.insert pkg.name pkg) b)[k]?.isSome := by
    intro ps
    induction ps with
    | nil => exact fun ms b hkeys => hkeys
    | cons p ps ih =>
      intro ms b hkeys
      refine ih _ _ fun k => ?_
      rw [Table.get_insert]
      by_cases hk : p.name = k
      · rw [if_pos hk]
        exact fun _ => rfl
      · rw [if_neg hk]
        dsimp only
        split
        · rw [Table.get_insert, if_neg hk]
          exact hkeys k
        · exact hkeys k
  refine Option.isSome_iff_exists.1 (hfold ws.packages ∅ ∅ (fun k hk => ?_) n (h ▸ rfl))
  rw [ExtTreeMap.getElem?_empty] at hk
  cases hk

theorem found_nil {w : WriteLock} {out : Outcome} (h : verify blake c ws store w = .ok out) (hclean : out.findings = []) :
    componentFindings blake c ws store = [] := by
  unfold verify at h
  obtain ⟨locks, -, h⟩ := Result.bind_ok.1 h
  obtain rfl := Except.ok.inj h
  have hnil := (List.destutter_eq_nil _).1 hclean
  have hperm := (List.mergeSort_perm (componentFindings blake c ws store ++ locks) Finding.le).symm
  rw [hnil] at hperm
  exact (List.append_eq_nil_iff.1 hperm.eq_nil).1

theorem clean_of_found (h : componentFindings blake c ws store = []) {n : String} (hm : (manifestsOf ws)[n]? = some m) :
    ∃ pkg, (byName ws.packages)[n]? = some pkg ∧ Clean blake store (manifestsOf ws) (ws.sources pkg.dir) m pkg := by
  obtain ⟨pkg, hpkg⟩ := byName_of_manifest hm
  refine ⟨pkg, hpkg, ?_⟩
  have hall := (List.append_eq_nil_iff.1 h).2
  have hone := List.flatMap_eq_nil_iff.1 hall (n, m) (ExtTreeMap.mem_toList_iff_getElem?_eq_some.2 hm)
  rw [hpkg] at hone
  exact clean_of_nil (List.map_eq_nil_iff.1 hone)

theorem acyclic_of_found (h : componentFindings blake c ws store = []) (x : String) :
    ¬ TransGen (graphOf ws.packages).Edge x x := by
  have hcycle := (List.append_eq_nil_iff.1 (List.append_eq_nil_iff.1 h).1).2
  refine Graph.findCycle_none_iff.1 ?_ x
  cases hfind : (graphOf ws.packages).findCycle with
  | none => rfl
  | some cycle =>
    rw [hfind] at hcycle
    cases hcycle

/-- What is found of a component in the closure of another: a manifest, a package, and a receipt that is stored under its
canonical id, passes, is reached from the other's receipt and was taken at the current source. -/
structure Qualified (blake : List UInt8 → Evidence.Digest) (ws : Workspace) (store : Store) (m : Manifest) (d : String)
    (dm : Manifest) (pkg : Package) (r : Receipt) : Prop where
  manifest : (manifestsOf ws)[d]? = some dm
  package : (byName ws.packages)[d]? = some pkg
  stored : store.file (Evidence.fileName dm.receipt) = some (.ok r)
  canonical : receiptId blake r = .ok dm.receipt
  passes : r.result = .pass
  reached : TransGen (Needs blake store) m.receipt dm.receipt
  source : ∃ digest, sourceDigest blake pkg.dir (ws.sources pkg.dir) = .ok digest ∧ dm.source = s!"blake3:{digest}"
  input : dm.source ∈ r.inputArtifacts

/-- One edge: the pin is the dependency's receipt, and the receipt depends on it. -/
theorem Clean.step {n : String} (hfound : componentFindings blake c ws store = []) (hm : (manifestsOf ws)[n]? = some m)
    {d : String} (hedge : (graphOf ws.packages).Edge n d) :
    ∃ dm, (manifestsOf ws)[d]? = some dm ∧ Needs blake store m.receipt dm.receipt := by
  obtain ⟨pkg, hpkg, hclean⟩ := clean_of_found hfound hm
  obtain ⟨pkg', hpkg', hdep⟩ := edge_iff.1 hedge
  obtain rfl := Option.some.inj (hpkg.symm.trans hpkg')
  obtain ⟨dm, hdm, hpin⟩ := hclean.edges d hdep
  obtain ⟨r, hload, -, -, hpins⟩ := hclean.receipt
  obtain ⟨dep, hmem, hlower⟩ := List.mem_map.1 (hpins d dm.receipt hpin)
  exact ⟨dm, hdm, r, hload, dep, hmem, hlower⟩

/-- Along the edges of the graph, from manifest to manifest and from receipt to receipt. -/
theorem closure_reached {n : String} (hfound : componentFindings blake c ws store = []) (hm : (manifestsOf ws)[n]? = some m)
    {d : String} (hpath : TransGen (graphOf ws.packages).Edge n d) :
    ∃ dm, (manifestsOf ws)[d]? = some dm ∧ TransGen (Needs blake store) m.receipt dm.receipt := by
  induction hpath with
  | single hedge =>
    obtain ⟨dm, hdm, hneeds⟩ := Clean.step hfound hm hedge
    exact ⟨dm, hdm, .single hneeds⟩
  | tail _ hedge ih =>
    obtain ⟨bm, hbm, hreached⟩ := ih
    obtain ⟨dm, hdm, hneeds⟩ := Clean.step hfound hbm hedge
    exact ⟨dm, hdm, hreached.tail hneeds⟩

end Components

/-- **Verification of the closure is sound.** Where `verify` ends without findings, the package graph has no cycle; every
receipt that a component's receipt reaches is stored under its id and neither dirty nor test only; and every package in a
component's transitive closure is qualified. -/
theorem verify_sound (blake : List UInt8 → Evidence.Digest) (c : LineCodec) (ws : Workspace) (store : Store) (w : WriteLock)
    (out : Outcome) (h : verify blake c ws store w = .ok out) (hclean : out.findings = []) :
    (∀ x, ¬ TransGen (graphOf ws.packages).Edge x x) ∧
    ∀ (n : String) (m : Manifest), (manifestsOf ws)[n]? = some m →
      (∀ x, ReflTransGen (Needs blake store) m.receipt x →
        ∃ r, load blake store x = .ok r ∧ r.dirty = false ∧ r.tier ≠ .testOnlyTrust) ∧
      ∀ d, TransGen (graphOf ws.packages).Edge n d → ∃ dm pkg r, Qualified blake ws store m d dm pkg r := by
  have hfound := found_nil h hclean
  refine ⟨acyclic_of_found hfound, fun n m hm => ⟨?_, fun d hd => ?_⟩⟩
  · obtain ⟨pkg, -, hcomponent⟩ := clean_of_found hfound hm
    exact hcomponent.reached
  · obtain ⟨dm, hdm, hreached⟩ := closure_reached hfound hm hd
    obtain ⟨pkg, hpkg, hcomponent⟩ := clean_of_found hfound hdm
    obtain ⟨r, hload, hpass, hinput, -⟩ := hcomponent.receipt
    obtain ⟨hstored, hcanonical, -⟩ := (load_ok blake).1 hload
    exact ⟨dm, pkg, r, hdm, hpkg, hstored, hcanonical, hpass, hreached, hcomponent.source, hinput⟩

/-! A workspace of two packages, one on top of the other, with a receipt for each. The values are BLAKE3's. -/

section Sample

open SourceTree

def baseSource : Evidence.Digest :=
  #v[173, 212, 104, 240, 124, 153, 149, 84, 95, 220, 160, 122, 83, 87, 87, 246, 178, 45, 55, 109, 52, 37, 62, 200,
    114, 253, 8, 78, 29, 147, 111, 209]

def topSource : Evidence.Digest :=
  ⟨#[155, 122, 13, 125, 165, 52, 153, 129, 7, 198, 51, 143, 208, 168, 15, 120, 115, 137, 24, 85, 41, 88, 143, 3,
    226, 181, 129, 24, 80, 223, 15, 163], by decide⟩

def baseId : Evidence.Digest :=
  #v[25, 108, 156, 101, 240, 160, 80, 18, 178, 244, 230, 101, 40, 215, 127, 249, 110, 47, 0, 54, 110, 223, 218, 70,
    1, 218, 191, 196, 215, 212, 219, 6]

def topId : Evidence.Digest :=
  #v[164, 226, 59, 139, 140, 122, 76, 255, 116, 211, 236, 127, 243, 124, 210, 110, 114, 234, 101, 58, 204, 200, 141, 63,
    127, 132, 147, 151, 214, 41, 57, 145]

def sourceText (d : Evidence.Digest) : String := String.ofList ("blake3:".toList ++ Hex.hexDigits d.toList)

def baseReceipt : Receipt :=
  { sampleReceipt .hostTest [] with id := hex baseId, inputArtifacts := [sourceText baseSource] }

def topReceipt : Receipt :=
  { sampleReceipt .hostTest [hex baseId] with
    id := hex topId
    kind := "seed-0c"
    inputArtifacts := [sourceText topSource] }

def twoHash (x : List UInt8) : Evidence.Digest :=
  if x = wire baseReceipt then baseId
  else if x = wire topReceipt then topId
  else if x = digestDomain then baseSource
  else topSource

def twoStore : Store :=
  ⟨none, none, [(Evidence.fileName (hex baseId), .ok baseReceipt), (Evidence.fileName (hex topId), .ok topReceipt)]⟩

def manifestLines (component : String) (receipt source : Evidence.Digest) : List Char :=
  "closure-manifest v1\ncomponent ".toList ++ component.toList ++ "\nprofile host-v1\nreceipt ".toList ++
    Hex.hexDigits receipt.toList ++ "\nsource blake3:".toList ++ Hex.hexDigits source.toList ++ ['\n']

def twoPackages : Workspace where
  root := "."
  packages := [⟨"base", "base", ∅⟩, ⟨"top", "top", ExtTreeSet.ofList ["base"]⟩]
  manifestText := fun dir =>
    if dir = "base" then some (.ok (String.ofList (manifestLines "base" baseId baseSource)))
    else if dir = "top" then
      some (.ok (String.ofList (manifestLines "top" topId topSource ++ "dep base ".toList ++ Hex.hexDigits baseId.toList ++
        ['\n'])))
    else none
  sources := fun dir => if dir = "top" then (single slashed kept_slashed).listing else .done
  lock := none

def baseManifest : Manifest := ⟨"base", "host-v1", hex baseId, sourceText baseSource, ∅⟩

def topManifest : Manifest :=
  ⟨"top", "host-v1", hex topId, sourceText topSource, (∅ : ExtTreeMap String (Option String)).insert "base" (some (hex baseId))⟩

set_option maxRecDepth 10000 in
theorem parse_base : Manifest.parse (String.ofList (manifestLines "base" baseId baseSource)) = .ok baseManifest := by
  unfold Manifest.parse
  rw [String.toList_ofList]
  rfl

set_option maxRecDepth 10000 in
theorem parse_top : Manifest.parse (String.ofList (manifestLines "top" topId topSource ++ "dep base ".toList ++
    Hex.hexDigits baseId.toList ++ ['\n'])) = .ok topManifest := by
  unfold Manifest.parse
  rw [String.toList_ofList]
  rfl

/-- What the two receipts, their bytes and their packages show by evaluation. -/
theorem two_evaluated :
    (((checkIdentity baseReceipt = .ok () ∧ checkContent baseReceipt = .ok ()) ∧
        checkIdentity topReceipt = .ok () ∧ checkContent topReceipt = .ok ()) ∧ wire topReceipt ≠ wire baseReceipt ∧
      (Evidence.fileName (hex topId) == Evidence.fileName (hex baseId)) = false) ∧
    (digestDomain ≠ wire baseReceipt ∧ digestDomain ≠ wire topReceipt) ∧
    (digestDomain ++ entryBytes ("a/b", []) ≠ wire baseReceipt ∧ digestDomain ++ entryBytes ("a/b", []) ≠ wire topReceipt ∧
      digestDomain ++ entryBytes ("a/b", []) ≠ digestDomain) ∧
    (graphOf twoPackages.packages).findCycle = none ∧ declarationFindings baseManifest ⟨"base", "base", ∅⟩ = [] ∧
      declarationFindings topManifest ⟨"top", "top", ExtTreeSet.ofList ["base"]⟩ = [] := by
  decide +kernel

theorem base_valid : Valid baseReceipt := valid_iff.1 two_evaluated.1.1.1

theorem top_valid : Valid topReceipt := valid_iff.1 two_evaluated.1.1.2

theorem twoHash_base : twoHash (wire baseReceipt) = baseId := if_pos rfl

theorem twoHash_top : twoHash (wire topReceipt) = topId := by
  unfold twoHash
  rw [if_neg two_evaluated.1.2.1, if_pos rfl]

theorem lower_hex (d : Evidence.Digest) : lower (hex d) = hex d := (isHash_hexText d.length_toList).2

theorem base_file : twoStore.file (Evidence.fileName (hex baseId)) = some (.ok baseReceipt) := List.lookup_cons_self

theorem top_file : twoStore.file (Evidence.fileName (hex topId)) = some (.ok topReceipt) := by
  unfold Store.file twoStore
  rw [List.lookup_cons, two_evaluated.1.2.2]
  exact List.lookup_cons_self

theorem load_base : load twoHash twoStore (hex baseId) = .ok baseReceipt := by
  refine (load_ok twoHash).2 ⟨base_file, ?_, lower_hex baseId⟩
  unfold receiptId
  rw [canonicalBytes_ok.2 ⟨base_valid, rfl⟩, Result.ok_bind, twoHash_base]
  rfl

theorem load_top : load twoHash twoStore (hex topId) = .ok topReceipt := by
  refine (load_ok twoHash).2 ⟨top_file, ?_, lower_hex topId⟩
  unfold receiptId
  rw [canonicalBytes_ok.2 ⟨top_valid, rfl⟩, Result.ok_bind, twoHash_top]
  rfl

/-- The verdict on a receipt without ledger and lease references whose bytes and rules check out. -/
theorem verify_plain {r : Receipt} {text : Except String Receipt} (htext : text = .ok r) (hv : Valid r)
    (hid : lower r.id = hex (twoHash (wire r))) (hledger : r.ledger = none) (hlease : r.lease = none)
    (hpass : r.result = .pass) (hrules : (checkConsistency r).status = .pass) :
    verifyWithStore twoHash serde text twoStore = .ok (r, .ofPass "identity, ledger, and lease bindings check out") := by
  subst htext
  unfold verifyWithStore
  rw [verifyBytes_of (canonicalBytes_ok.2 ⟨hv, rfl⟩) hid, Result.ok_bind]
  dsimp only
  rw [if_neg (by rw [hrules]; decide)]
  unfold checkLedgerRef checkLeaseRef
  rw [hledger, hlease]
  show (if (checkConsistency r).status ≠ .pass then _ else if r.result ≠ .pass then _ else _) = _
  rw [if_neg (not_not.2 hrules), if_neg (not_not.2 hpass)]

theorem base_verdict : verifyWithStore twoHash serde (.ok baseReceipt) twoStore =
    .ok (baseReceipt, .ofPass "identity, ledger, and lease bindings check out") :=
  verify_plain rfl base_valid (by rw [twoHash_base]; exact lower_hex baseId) rfl rfl rfl rfl

theorem top_verdict : verifyWithStore twoHash serde (.ok topReceipt) twoStore =
    .ok (topReceipt, .ofPass "identity, ledger, and lease bindings check out") :=
  verify_plain rfl top_valid (by rw [twoHash_top]; exact lower_hex topId) rfl rfl rfl rfl

theorem base_resolves : storeResolver twoHash serde twoStore (hex baseId) =
    .ok (baseReceipt, .ofPass "identity, ledger, and lease bindings check out") := by
  have hhash : (hex baseId).utf8ByteSize = 64 ∧ isHex (hex baseId) = true := by
    have hboth : isHash (hex baseId) = true := (isHash_hexText baseId.length_toList).1
    simpa [isHash] using hboth
  have hload : loadReceipt twoHash twoStore (hex baseId) = .ok baseReceipt := by
    unfold loadReceipt
    dsimp only
    rw [lower_hex, if_neg (by simp [hhash.1, hhash.2]), base_file, orError, Result.ok_bind,
      verifyBytes_of (canonicalBytes_ok.2 ⟨base_valid, rfl⟩) (by rw [twoHash_base]; exact lower_hex baseId), Result.ok_bind]
    exact if_neg (not_not.2 (lower_hex baseId))
  unfold storeResolver
  rw [hload, Result.ok_bind, base_file, orError, Result.ok_bind, base_verdict]
  rfl

theorem base_below {x : String} : ¬ Below (storeResolver twoHash serde twoStore) baseReceipt x := by
  rintro ⟨dep, hdep, -⟩
  exact absurd hdep List.not_mem_nil

theorem base_dep {y : String} : ¬ Dep (storeResolver twoHash serde twoStore) (hex baseId) y := by
  rintro ⟨r, report, hr, dep, hdep, -⟩
  rw [base_resolves] at hr
  obtain ⟨rfl, -⟩ := Prod.mk.inj (Except.ok.inj hr)
  exact absurd hdep List.not_mem_nil

theorem top_below {x : String} (h : Below (storeResolver twoHash serde twoStore) topReceipt x) : x = hex baseId := by
  obtain ⟨dep, hdep, hpath⟩ := h
  obtain rfl : dep = hex baseId := List.mem_singleton.1 hdep
  rw [lower_hex] at hpath
  obtain heq | hpath := reflTransGen_iff_eq_or_transGen.1 hpath
  · exact heq
  · obtain ⟨y, hy, -⟩ := TransGen.head'_iff.1 hpath
    exact absurd hy base_dep

theorem base_inOrder : InOrder (leaseStatus serde · twoStore) (storeResolver twoHash serde twoStore) baseReceipt
    (.ofPass "identity, ledger, and lease bindings check out") where
  passes := rfl
  sound := fun _ hx => absurd hx base_below
  acyclic := fun ⟨_, hx, _⟩ => base_below hx
  trusted := fun _ _ _ _ hx => absurd hx base_below

theorem top_inOrder : InOrder (leaseStatus serde · twoStore) (storeResolver twoHash serde twoStore) topReceipt
    (.ofPass "identity, ledger, and lease bindings check out") where
  passes := rfl
  sound := by
    intro x hx
    obtain rfl := top_below hx
    refine ⟨baseReceipt, _, base_resolves, rfl, ?_⟩
    intro l hl
    have hnone : leaseStatus serde baseReceipt twoStore = none := if_pos rfl
    cases hnone.symm.trans hl
  acyclic := by
    rintro ⟨x, hx, hcycle⟩
    obtain rfl := top_below hx
    obtain ⟨y, hy, -⟩ := TransGen.head'_iff.1 hcycle
    exact base_dep hy
  trusted := by
    intro htier
    cases htier

theorem needs_base : needs twoHash twoStore (hex baseId) = [] := needs_ok load_base

theorem needs_top : needs twoHash twoStore (hex topId) = [hex baseId] := by
  rw [needs_ok load_top]
  show [lower (hex baseId)] = _
  rw [lower_hex]

theorem walk_base : walkReceipts twoHash twoStore (hex baseId) = { root := some baseReceipt } := by
  unfold walkReceipts
  rw [walkFrom_ok List.not_mem_nil load_base, needs_base, if_pos rfl, List.nil_append, walkFrom, taints_nil.2 ⟨rfl, by decide⟩,
    List.nil_append]

theorem walk_top : walkReceipts twoHash twoStore (hex topId) = { root := some topReceipt } := by
  have hne : hex baseId ≠ hex topId := by
    intro heq
    exact absurd (Vector.toList_inj.1 (Hex.hexText_inj.1 heq)) (by decide)
  unfold walkReceipts
  rw [walkFrom_ok List.not_mem_nil load_top, needs_top, if_pos rfl, List.append_nil,
    walkFrom_ok (by simpa using hne) load_base, needs_base, if_neg hne, List.nil_append, walkFrom,
    taints_nil.2 ⟨rfl, by decide⟩, taints_nil.2 ⟨rfl, by decide⟩, List.nil_append, List.append_nil]

theorem sourceText_eq (d : Evidence.Digest) : s!"blake3:{hex d}" = sourceText d := by
  apply String.toList_injective
  unfold sourceText
  rw [String.toList_ofList]
  show (("blake3:" ++ hex d) : String).toList = _
  rw [String.toList_append]
  unfold Evidence.hex Hex.hexText
  rw [String.toList_ofList (l := Hex.hexDigits d.toList)]

theorem base_source : sourceDigest twoHash "base" .done = .ok (hex baseSource) := by
  refine sourceDigest_ok.2 ⟨digestDomain, ?_, ?_⟩
  · unfold preimage collect
    rw [Result.ok_bind]
    unfold keyed
    rw [List.map_nil, List.mergeSort_nil]
    exact congrArg Except.ok (List.append_nil _)
  · obtain ⟨hbase, htop⟩ := two_evaluated.2.1
    unfold twoHash
    rw [if_neg hbase, if_neg htop, if_pos rfl]
    rfl

theorem top_source : sourceDigest twoHash "top" (single slashed kept_slashed).listing = .ok (hex topSource) := by
  refine sourceDigest_ok.2 ⟨_, preimage_single "top" kept_slashed, ?_⟩
  rw [relText_slashed]
  obtain ⟨hbase, htop, hdomain⟩ := two_evaluated.2.2.1
  unfold twoHash
  rw [if_neg hbase, if_neg htop, if_neg hdomain]
  rfl

theorem base_manifest : readManifest twoPackages ⟨"base", "base", ∅⟩ = some (.ok baseManifest) := by
  unfold readManifest
  have htext : twoPackages.manifestText "base" = some (.ok (String.ofList (manifestLines "base" baseId baseSource))) := by
    unfold twoPackages
    dsimp only
    rw [if_pos rfl]
  dsimp only
  rw [htext, Option.map_some, Result.ok_bind, parse_base, Result.ok_bind, if_pos (show baseManifest.component = "base" from rfl)]

theorem top_manifest : readManifest twoPackages ⟨"top", "top", ExtTreeSet.ofList ["base"]⟩ = some (.ok topManifest) := by
  unfold readManifest
  have htext : twoPackages.manifestText "top" = some (.ok (String.ofList (manifestLines "top" topId topSource ++
      "dep base ".toList ++ Hex.hexDigits baseId.toList ++ ['\n']))) := by
    unfold twoPackages
    dsimp only
    rw [if_neg (by decide), if_pos rfl]
  dsimp only
  rw [htext, Option.map_some, Result.ok_bind, parse_top, Result.ok_bind, if_pos (show topManifest.component = "top" from rfl)]

theorem two_manifests : manifestsOf twoPackages =
    ((∅ : ExtTreeMap String Manifest).insert "base" baseManifest).insert "top" topManifest := by
  unfold manifestsOf
  show List.foldl _ ∅ [_, _] = _
  rw [List.foldl_cons, List.foldl_cons, List.foldl_nil, base_manifest, top_manifest]

theorem two_byName : byName twoPackages.packages =
    ((∅ : ExtTreeMap String Package).insert "base" ⟨"base", "base", ∅⟩).insert "top" ⟨"top", "top", ExtTreeSet.ofList ["base"]⟩ := by
  unfold byName
  show List.foldl _ ∅ [_, _] = _
  rw [List.foldl_cons, List.foldl_cons, List.foldl_nil]

theorem two_graph : (graphOf twoPackages.packages).findCycle = none := two_evaluated.2.2.2.1

theorem sourceFindings_nil {m : Manifest} {pkg : Package} {sources : Listing} {d : Evidence.Digest}
    (h : sourceDigest twoHash pkg.dir sources = .ok (hex d)) (hm : m.source = sourceText d) :
    sourceFindings twoHash m pkg sources = [] := by
  unfold sourceFindings
  rw [h]
  dsimp only
  rw [sourceText_eq, if_neg (not_not.2 hm.symm)]

theorem base_component {manifests : ExtTreeMap String Manifest} :
    checkComponent twoHash serde baseManifest ⟨"base", "base", ∅⟩ manifests twoStore .done = [] := by
  refine checkComponent_nil (by decide) two_evaluated.2.2.2.2.1 ?_ walk_base ?_
    (chain_of_inOrder base_file base_verdict base_inOrder) (sourceFindings_nil base_source rfl)
  · intro dep hdep
    exact absurd hdep (by simp)
  · exact rootFindings_nil (fun dep p hpin => absurd hpin (by simp [baseManifest])) List.mem_cons_self rfl rfl rfl

theorem top_component {manifests : ExtTreeMap String Manifest} (hbase : manifests["base"]? = some baseManifest) :
    checkComponent twoHash serde topManifest ⟨"top", "top", ExtTreeSet.ofList ["base"]⟩ manifests twoStore
      (single slashed kept_slashed).listing = [] := by
  refine checkComponent_nil (by decide) two_evaluated.2.2.2.2.2 ?_ walk_top ?_
    (chain_of_inOrder top_file top_verdict top_inOrder) (sourceFindings_nil top_source rfl)
  · intro dep hdep
    obtain rfl : "base" = dep := by simpa using hdep
    have hpin : topManifest.deps["base"]? = some (some (hex baseId)) := ExtTreeMap.getElem?_insert_self
    unfold edgeFindings
    rw [hpin, hbase]
    exact if_neg (not_not.2 rfl)
  · refine rootFindings_nil (fun dep p hpin => ?_) List.mem_cons_self rfl rfl rfl
    have hget : topManifest.deps[dep]? = if "base" = dep then some (some (hex baseId)) else none := by
      unfold topManifest
      rw [Table.get_insert, ExtTreeMap.getElem?_empty]
    rw [hget] at hpin
    split_ifs at hpin
    obtain rfl := Option.some.inj (Option.some.inj hpin)
    exact List.mem_map.2 ⟨hex baseId, List.mem_cons_self, lower_hex baseId⟩

theorem two_bad : badManifests twoPackages = [] := by
  unfold badManifests
  rw [List.filterMap_eq_nil_iff]
  intro pkg hpkg
  obtain rfl | hpkg := List.mem_cons.1 hpkg
  · rw [base_manifest]
  · obtain rfl := List.mem_singleton.1 hpkg
    rw [top_manifest]

theorem two_clean : componentFindings twoHash serde twoPackages twoStore = [] := by
  unfold componentFindings
  dsimp only
  rw [two_bad, two_graph, two_manifests, if_neg (by simp), List.nil_append, List.nil_append]
  dsimp only
  rw [List.nil_append, List.flatMap_eq_nil_iff]
  rintro ⟨n, m⟩ hentry
  rw [ExtTreeMap.mem_toList_iff_getElem?_eq_some, Table.get_insert, Table.get_insert] at hentry
  dsimp only
  split_ifs at hentry with htop hbase
  · obtain rfl := htop
    obtain rfl := Option.some.inj hentry
    have hpkg : (byName twoPackages.packages)["top"]? = some ⟨"top", "top", ExtTreeSet.ofList ["base"]⟩ := by
      rw [two_byName, Table.get_insert, if_pos rfl]
    have hmanifest : (((∅ : ExtTreeMap String Manifest).insert "base" baseManifest).insert "top" topManifest)["base"]? =
        some baseManifest := by
      rw [Table.get_insert, if_neg (by decide), Table.get_insert, if_pos rfl]
    have hsources : twoPackages.sources "top" = (single slashed kept_slashed).listing := by
      unfold twoPackages
      dsimp only
      rw [if_pos rfl]
    rw [hpkg]
    dsimp only
    rw [hsources, top_component hmanifest, List.map_nil]
  · obtain rfl := hbase
    obtain rfl := Option.some.inj hentry
    have hpkg : (byName twoPackages.packages)["base"]? = some ⟨"base", "base", ∅⟩ := by
      rw [two_byName, Table.get_insert, if_neg (by decide), Table.get_insert, if_pos rfl]
    have hsources : twoPackages.sources "base" = .done := by
      unfold twoPackages
      dsimp only
      rw [if_neg (by decide)]
    rw [hpkg]
    dsimp only
    rw [hsources, base_component, List.map_nil]
  · rw [ExtTreeMap.getElem?_empty] at hentry
    cases hentry

/-- The lock is written and matches; below `top` stands `base`. -/
theorem verify_sound_two : ∃ out, verify twoHash serde twoPackages twoStore .written = .ok out ∧ out.findings = [] ∧
    ∃ dm pkg r, Qualified twoHash twoPackages twoStore topManifest "base" dm pkg r := by
  have hlock : ∀ want, checkLock twoPackages want .written = .ok [] := by
    intro want
    exact congrArg Except.ok (if_pos rfl)
  have hrun : ∃ out, verify twoHash serde twoPackages twoStore .written = .ok out ∧ out.findings = [] := by
    unfold verify
    dsimp only
    rw [two_clean, if_pos rfl, hlock, Result.ok_bind]
    refine ⟨_, rfl, ?_⟩
    dsimp only
    rw [List.append_nil, List.mergeSort_nil]
    rfl
  obtain ⟨out, hout, hnone⟩ := hrun
  have htop : (manifestsOf twoPackages)["top"]? = some topManifest := by
    rw [two_manifests, Table.get_insert, if_pos rfl]
  have hedge : (graphOf twoPackages.packages).Edge "top" "base" := by
    refine edge_iff.2 ⟨⟨"top", "top", ExtTreeSet.ofList ["base"]⟩, ?_, by simp⟩
    rw [two_byName, Table.get_insert, if_pos rfl]
  exact ⟨out, hout, hnone, ((verify_sound twoHash serde twoPackages twoStore .written out hout hnone).2 "top" topManifest
    htop).2 "base" (.single hedge)⟩

end Sample

end SovereignCore.Closure
