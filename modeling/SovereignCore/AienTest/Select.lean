import SovereignCore.AienTest.Identity
import SovereignCore.AienTest.Judge

/-!
# The plan for a change

`compute` finds the gates that watch a changed path, takes the always set, all dependents and all dependencies with them,
and lists them in the order of the graph.

* `Inputs` : what the planner reads from the two commits and the request; `watched`, `compute` : the planner;
* `Watches` : some path of a gate covers a changed one; `Reached` : what the selection is meant to hold;
* `mem_selected` : the selection is what is reached; `mem_unmapped` : what is reported as unmapped.
-/

namespace SovereignCore.AienTest

open Std Text Ranges Result Relation

/-- Paths whose change blocks a commit unless the operator says otherwise. -/
def pipelineConfig : List String := [".aien/", "tests/gates/", ".github/workflows/", ".forgejo/", "tools/aien-test/"]

def underConfig (path : String) : Bool := pipelineConfig.any fun c => covers c path

def isCrumbFile (path : String) : Bool :=
  path = ".crumb" ∨ "/.crumb".toList.isSuffixOf path.toList ∨ path = ".crumb.local" ∨
    "/.crumb.local".toList.isSuffixOf path.toList

def impliedInputs (rel : String) (rows : ExtTreeMap String String) : List String :=
  (impliedPlaces rel).flatMap fun place => rows.keys.filter fun path => atPlace place path

/-- Every path a gate watches: explicit inputs, implied inputs, its manifest and its golden file. -/
def watched (n : Node) (rows : ExtTreeMap String String) : List String :=
  sortedUnique (n.manifest.inputs.map trimSlashes ++ impliedInputs n.path rows ++ [n.path] ++
    (n.manifest.oracle.golden.map trimSlashes).toList)

structure Inputs where
  base : String
  head : String
  /-- Paths changed between the commits, and uncommitted ones that were asked for. -/
  changed : List String
  commit : Commit
  graph : Graph
  baseIds : List String
  crumb : List String
  pins : List String
  /-- `.aien/always` at the base. -/
  always : List String
  /-- `.aien/unmapped-ok` at the base. -/
  okPatterns : List String
  operator : Bool
  compiler : String
  flags : List String
  binding : Binding
  cached : List String

namespace Inputs

variable (inp : Inputs)

/-- Some path that a gate watches covers `path`. -/
def watches (n : Node) (path : String) : Bool := (watched n inp.commit.tree).any fun input => covers input path

def because (n : Node) : Option String := (inp.changed ++ inp.crumb).find? fun path => inp.watches n path

def exempt (path : String) : Bool :=
  ".gate".toList.isSuffixOf path.toList ∨ isCrumbFile path ∨ underConfig path ∨
    inp.okPatterns.any fun pattern => globMatch pattern path

def unmapped : List String :=
  inp.changed.filter fun path => ¬ (inp.exempt path ∨ inp.graph.nodes.any fun n => inp.watches n path)

def alwaysGates : List String := inp.always.filter fun g => g ∈ inp.graph.nodes.map Node.id

def seeds : List String :=
  sortedUnique (((inp.graph.nodes.filter fun n => (inp.because n).isSome).map Node.id) ++ inp.alwaysGates)

def targets : List String :=
  sortedUnique (inp.seeds ++ inp.seeds.flatMap inp.graph.transitiveDependents)

def selected : List String := inp.graph.withDependencies inp.targets

def configChanged : List String := inp.changed.filter underConfig

def blocked : Option String :=
  if inp.configChanged ≠ [] ∧ ¬ inp.operator then some "PIPELINE_CONFIG_CHANGED" else none

/-- Gates at the base, then always-set gates, that do not exist at the head. -/
def removed : List String :=
  let gone := inp.baseIds.filter fun g => g ∉ inp.graph.nodes.map Node.id
  (inp.always.filter fun g => g ∉ inp.graph.nodes.map Node.id).foldl
    (fun removed g => if g ∈ removed then removed else removed ++ [g]) gone

def bound : Binding :=
  if inp.binding.hardwareIdentity = "" then { inp.binding with hardwareIdentity := inp.binding.machineDigest }
  else inp.binding

def sectionOf (m : Manifest) : Section × String :=
  match inp.blocked with
  | some b => (.blocked, b)
  | none =>
    if "operator" ∈ m.requires ∧ ¬ inp.operator then (.blocked, "OPERATOR_STEP_PENDING")
    else if m.exactness = .advisory then (.advisory, "")
    else if m.pool = .gb10 then (.needsGb10, "")
    else if m.pool = .qemu ∨ "aarch64" ∈ m.requires ∨ "bare_metal" ∈ m.requires then (.needsSpark, "")
    else if m.gate ∈ inp.cached then (.cached, "")
    else (.required, "")

def whySelected (n : Node) : String :=
  if n.id ∈ inp.alwaysGates then "always"
  else
    match inp.because n with
    | some path => path
    | none => if inp.seeds.any fun s => n.id ∈ inp.graph.transitiveDependents s then "dependent" else "dependency"

def entry (ids : ExtTreeMap String String) (n : Node) : Entry where
  gate := n.id
  checkId := (ids[n.id]?).getD ""
  pool := n.manifest.pool
  exactness := n.manifest.exactness
  cacheScope := n.manifest.cacheScope
  required := n.manifest.exactness ≠ .advisory
  section_ := (inp.sectionOf n.manifest).1
  reason := (inp.sectionOf n.manifest).2
  dependsOn := declaredDependencies n.manifest
  always := n.id ∈ inp.alwaysGates
  because := inp.whySelected n

def entries (ids : ExtTreeMap String String) : List Entry :=
  (inp.graph.ordered.filter fun n => n.id ∈ inp.selected).map (inp.entry ids)

def notes : List String :=
  (if inp.configChanged ≠ [] ∧ inp.operator then ["pipeline configuration changed; allowed by --operator"] else []) ++
  (inp.always.filter fun g => g ∉ inp.graph.nodes.map Node.id).map
    (fun g => s!"always-set gate {g} does not exist at HEAD") ++
  (if inp.binding.hardwareIdentity = "" ∧ (inp.graph.nodes.any fun n => n.manifest.cacheScope = .hardware) then
    ["hardware identity not given; the machine digest stands in for cache_scope: hardware"] else []) ++
  ((inp.graph.ordered.filter fun n =>
    n.id ∈ inp.selected ∧ "operator" ∈ n.manifest.requires ∧ inp.operator ∧ inp.blocked = none).map
    fun n => s!"operator gate {n.id}: started by --operator")

end Inputs

/-- A digest over gates, check ids and dependencies, sorted by gate. -/
def digestOf (sha256Hex : ByteArray → String) (entries : List Entry) : Except String String :=
  idOf sha256Hex (.arr ((entries.insertionSort fun a b => a.gate ≤ b.gate).map fun e =>
    .obj [("gate", .str e.gate), ("check_id", .str e.checkId), ("depends_on", .arr (e.dependsOn.map .str))]))

theorem digestOf_total (sha256Hex : ByteArray → String) (entries : List Entry) :
    ∃ digest, digestOf sha256Hex entries = .ok digest := by
  unfold digestOf
  generalize (entries.insertionSort fun a b => a.gate ≤ b.gate) = sortedEntries
  have hrow : ∀ e : Entry, (Value.obj [("gate", .str e.gate), ("check_id", .str e.checkId),
      ("depends_on", .arr (e.dependsOn.map .str))]).exact = true := by
    intro e
    have hstr : (e.dependsOn.map Value.str).all Value.exact = true := by
      rw [List.all_map, List.all_eq_true]
      exact fun _ _ => rfl
    simp only [Value.exact, exactMembers, exactItems_eq, hstr, Bool.and_self]
  have hexact : (Value.arr (sortedEntries.map fun e => .obj [("gate", .str e.gate), ("check_id", .str e.checkId),
      ("depends_on", .arr (e.dependsOn.map .str))])).exact = true := by
    rw [Value.exact, exactItems_eq, List.all_map, List.all_eq_true]
    exact fun e _ => hrow e
  obtain ⟨text, htext⟩ := canonical_total hexact
  exact ⟨_, bind_ok.2 ⟨text, htext, rfl⟩⟩

theorem entries_distinct (inp : Inputs) (ids : ExtTreeMap String String) : ((inp.entries ids).map Entry.gate).Nodup := by
  unfold Inputs.entries
  rw [List.map_map]
  exact inp.graph.ordered_nodup.sublist (List.filter_sublist.map _)

def compute (sha256Hex : ByteArray → String) (inp : Inputs) : Except String Plan := do
  let ids ← checkIds sha256Hex inp.commit inp.graph inp.compiler inp.flags inp.bound
  let graphDigest ← digestOf sha256Hex (inp.entries ids)
  .ok {
    base := inp.base, head := inp.head, changed := inp.changed, crumbPaths := inp.crumb, pins := inp.pins,
    unmapped := inp.unmapped, removed := inp.removed, configChanged := inp.configChanged, blocked := inp.blocked,
    entries := inp.entries ids, graphDigest := graphDigest, notes := inp.notes, distinct := entries_distinct inp ids }

/-! ## What is selected -/

namespace Inputs

variable {inp : Inputs} {path h : String}

/-- Gate `h` is below a gate that rests on a seed: a gate that watches a changed path, or one that always runs. -/
def Reached (inp : Inputs) (h : String) : Prop :=
  ∃ s t, (s ∈ inp.always ∨ ∃ n ∈ inp.graph.nodes, n.id = s ∧ ∃ p ∈ inp.changed ++ inp.crumb, inp.watches n p = true) ∧
    s ∈ inp.graph.nodes.map Node.id ∧ ReflTransGen inp.graph.Edge t s ∧ ReflTransGen inp.graph.Edge t h

theorem mem_seeds {s : String} : s ∈ inp.seeds ↔
    (s ∈ inp.always ∨ ∃ n ∈ inp.graph.nodes, n.id = s ∧ ∃ p ∈ inp.changed ++ inp.crumb, inp.watches n p = true) ∧
      s ∈ inp.graph.nodes.map Node.id := by
  have hbecause : ∀ n, (inp.because n).isSome = true ↔ ∃ p ∈ inp.changed ++ inp.crumb, inp.watches n p = true := by
    intro n
    unfold because
    rw [List.find?_isSome]
  unfold seeds alwaysGates
  rw [mem_sortedUnique, List.mem_append, List.mem_map, List.mem_filter, decide_eq_true_eq]
  simp only [List.mem_filter, hbecause]
  constructor
  · rintro (⟨n, ⟨hn, hp⟩, rfl⟩ | ⟨halways, hmem⟩)
    · exact ⟨Or.inr ⟨n, hn, rfl, hp⟩, List.mem_map_of_mem hn⟩
    · exact ⟨Or.inl halways, hmem⟩
  · rintro ⟨halways | ⟨n, hn, rfl, hp⟩, hmem⟩
    · exact Or.inr ⟨halways, hmem⟩
    · exact Or.inl ⟨n, ⟨hn, hp⟩, rfl⟩

theorem mem_targets {t : String} : t ∈ inp.targets ↔ ∃ s ∈ inp.seeds, ReflTransGen inp.graph.Edge t s := by
  unfold targets
  rw [mem_sortedUnique, List.mem_append, List.mem_flatMap]
  constructor
  · rintro (hseed | ⟨s, hs, ht⟩)
    · exact ⟨t, hseed, .refl⟩
    · exact ⟨s, hs, ((Graph.mem_transitiveDependents (mem_seeds.1 hs).2).1 ht).to_reflTransGen⟩
  · rintro ⟨s, hs, ht⟩
    rcases reflTransGen_iff_eq_or_transGen.1 ht with rfl | ht
    · exact Or.inl hs
    · exact Or.inr ⟨s, hs, (Graph.mem_transitiveDependents (mem_seeds.1 hs).2).2 ht⟩

theorem targets_known {t : String} (ht : t ∈ inp.targets) : t ∈ inp.graph.nodes.map Node.id := by
  obtain ⟨s, hs, hts⟩ := mem_targets.1 ht
  rcases ReflTransGen.cases_head hts with rfl | ⟨b, ⟨n, hn, rfl, _⟩, _⟩
  · exact (mem_seeds.1 hs).2
  · exact List.mem_map_of_mem hn

/-- The selection is what the seeds reach up, and from there down. -/
theorem mem_selected : h ∈ inp.selected ↔ inp.Reached h := by
  unfold selected Reached
  rw [Graph.mem_withDependencies fun t ht => targets_known ht]
  constructor
  · rintro ⟨t, ht, hth⟩
    obtain ⟨s, hs, hts⟩ := mem_targets.1 ht
    obtain ⟨hseed, hknown⟩ := mem_seeds.1 hs
    exact ⟨s, t, hseed, hknown, hts, hth⟩
  · rintro ⟨s, t, hseed, hknown, hts, hth⟩
    exact ⟨t, mem_targets.2 ⟨s, mem_seeds.2 ⟨hseed, hknown⟩, hts⟩, hth⟩

theorem Reached.known (hr : inp.Reached h) : h ∈ inp.graph.nodes.map Node.id := by
  obtain ⟨s, t, -, hknown, hts, hth⟩ := hr
  rcases ReflTransGen.cases_tail hth with rfl | ⟨b, _, hedge⟩
  · rcases ReflTransGen.cases_head hts with rfl | ⟨b, ⟨n, hn, rfl, _⟩, _⟩
    · exact hknown
    · exact List.mem_map_of_mem hn
  · exact hedge.known

theorem mem_entries {ids : ExtTreeMap String String} : h ∈ (inp.entries ids).map Entry.gate ↔ inp.Reached h := by
  unfold entries
  rw [List.map_map, List.mem_map]
  constructor
  · rintro ⟨n, hn, rfl⟩
    obtain ⟨-, hsel⟩ := List.mem_filter.1 hn
    have hsel : n.id ∈ inp.selected := by simpa using hsel
    exact mem_selected.1 hsel
  · intro hr
    obtain ⟨n, hn, rfl⟩ := List.mem_map.1 hr.known
    exact ⟨n, List.mem_filter.2 ⟨Graph.mem_ordered.2 hn, decide_eq_true (mem_selected.2 hr)⟩, rfl⟩

theorem mem_unmapped : path ∈ inp.unmapped ↔
    path ∈ inp.changed ∧ inp.exempt path = false ∧ ∀ n ∈ inp.graph.nodes, inp.watches n path = false := by
  unfold unmapped
  rw [List.mem_filter]
  simp

end Inputs

end SovereignCore.AienTest
