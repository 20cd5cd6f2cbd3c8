import SovereignCore.AienTest.Manifest
import SovereignCore.Lib.Text
import SovereignCore.Lib.Topo
import Mathlib.Data.Prod.Lex

/-!
# The gate graph

`build` links parsed manifests by their `depends_on` lists. Nodes are sorted by gate id and named by it, where the
source uses their position in that list.

* `Node`, `GraphError`, `build`, `findCycle` : the graph and what is refused;
* `Graph` : an accepted graph, with distinct gates, known dependencies, and an order that has each gate once and after
  all it depends on;
* `ordered_split` : the same about the nodes in order;
* `mem_withDependencies`, `mem_transitiveDependents` : the two queries as closures of `Edge`.
-/

namespace SovereignCore.AienTest

open Text Topo Relation

structure Node where
  path : String
  manifest : Manifest
  deriving Repr

def Node.id (n : Node) : String := n.manifest.gate

def Node.deps (n : Node) : List String := sortedUnique n.manifest.dependsOn

inductive GraphError
  | duplicateGate (id : String) (paths : List String)
  | unknownDependency (gate dep : String)
  | cycle (ids : List String)
  deriving DecidableEq, Repr

def node? (nodes : List Node) (id : String) : Option Node := nodes.find? fun n => n.id = id

def depsOf (nodes : List Node) (id : String) : List String := ((node? nodes id).map Node.deps).getD []

/-- Gates that list `id` directly in their `depends_on`. -/
def directDependents (nodes : List Node) (id : String) : List String :=
  (nodes.filter fun n => id ∈ n.deps).map Node.id

/-! ## One cycle -/

inductive Mark
  | fresh
  | active
  | done
  deriving DecidableEq, Repr

structure Visit where
  mark : String → Mark
  stack : List String

/-- Depth first from `n`; a cycle ends the search. -/
def visit (deps : String → List String) : Nat → String → Visit → Except (List String) Visit
  | 0, _, s => .ok s
  | fuel + 1, n, s => do
    let s : Visit := ⟨Function.update s.mark n .active, s.stack ++ [n]⟩
    let s ← (deps n).foldlM (fun (s : Visit) d =>
      match s.mark d with
      | .active => .error (s.stack.drop ((s.stack.idxOf? d).getD 0) ++ [d])
      | .fresh => visit deps fuel d s
      | .done => .ok s) s
    .ok ⟨Function.update s.mark n .done, s.stack.dropLast⟩

/-- One cycle, if there is any; a path has no more than all the nodes. -/
def findCycle (ids : List String) (deps : String → List String) : Option (List String) :=
  let visits := ids.foldlM (fun s n => if s.mark n = .fresh then visit deps ids.length n s else .ok s)
    (⟨fun _ => .fresh, []⟩ : Visit)
  match visits with
  | .error cycle => some cycle
  | .ok _ => none

/-! ## Building -/

def sortEntries (entries : List Node) : List Node :=
  entries.insertionSort fun a b => toLex (a.id, a.path) ≤ toLex (b.id, b.path)

def firstRepeat : List Node → Option String
  | a :: b :: rest => if a.id = b.id then some a.id else firstRepeat (b :: rest)
  | _ => none

/-- The first dependency, in the order of the nodes, that is no gate. -/
def firstUnknown (nodes : List Node) : Option (String × String) :=
  nodes.findSome? fun n => (n.manifest.dependsOn.find? (· ∉ nodes.map Node.id)).map fun d => (n.id, d)

/-- The dependency graph. -/
structure Graph where
  nodes : List Node
  order : List String
  sorted : (nodes.map Node.id).Pairwise (· < ·)
  known : ∀ n ∈ nodes, ∀ d ∈ n.deps, d ∈ nodes.map Node.id
  perm : order.Perm (nodes.map Node.id)
  depsFirst : DepsFirst (depsOf nodes) [] order

theorem pairwise_of_firstRepeat {entries : List Node} (h : firstRepeat (sortEntries entries) = none) :
    ((sortEntries entries).map Node.id).Pairwise (· < ·) := by
  have hsorted : (sortEntries entries).Pairwise fun a b => a.id ≤ b.id := by
    have htotal := List.pairwise_insertionSort (fun a b : Node => toLex (a.id, a.path) ≤ toLex (b.id, b.path)) entries
    exact htotal.imp fun hab => (Prod.Lex.le_iff.1 hab).elim le_of_lt fun h => le_of_eq h.1
  generalize sortEntries entries = nodes at h hsorted
  refine List.isChain_iff_pairwise.1 ?_
  induction nodes with
  | nil => exact .nil
  | cons a rest ih =>
    cases rest with
    | nil => exact .singleton _
    | cons b rest =>
      unfold firstRepeat at h
      split_ifs at h with hab
      have hle := List.rel_of_pairwise_cons hsorted List.mem_cons_self
      exact .cons_cons (lt_of_le_of_ne hle hab) (ih h hsorted.of_cons)

theorem known_of_firstUnknown {nodes : List Node} (h : firstUnknown nodes = none) :
    ∀ n ∈ nodes, ∀ d ∈ n.deps, d ∈ nodes.map Node.id := by
  intro n hn d hd
  have hfind := List.findSome?_eq_none_iff.1 h n hn
  have hall := List.find?_eq_none.1 (Option.map_eq_none_iff.1 hfind) d (mem_sortedUnique.1 hd)
  simpa using hall

section Linked

variable {nodes : List Node} {n : Node} {id d : String}

theorem node?_mem (hnd : (nodes.map Node.id).Nodup) (hn : n ∈ nodes) : node? nodes n.id = some n := by
  unfold node?
  cases hfind : nodes.find? fun x => x.id = n.id with
  | none => exact absurd (decide_eq_true rfl) (List.find?_eq_none.1 hfind n hn)
  | some n' =>
    have hid : n'.id = n.id := by simpa using List.find?_some hfind
    rw [List.inj_on_of_nodup_map hnd (List.mem_of_find?_eq_some hfind) hn hid]

theorem node?_some (h : node? nodes id = some n) : n ∈ nodes ∧ n.id = id :=
  ⟨List.mem_of_find?_eq_some h, by simpa using List.find?_some h⟩

theorem mem_depsOf (hnd : (nodes.map Node.id).Nodup) :
    d ∈ depsOf nodes id ↔ ∃ n ∈ nodes, n.id = id ∧ d ∈ n.deps := by
  unfold depsOf
  constructor
  · intro h
    cases hnode : node? nodes id with
    | none => simp [hnode] at h
    | some n =>
      rw [hnode] at h
      exact ⟨n, (node?_some hnode).1, (node?_some hnode).2, h⟩
  · rintro ⟨n, hn, rfl, hd⟩
    rw [node?_mem hnd hn]
    exact hd

theorem linked_nodes (hnd : (nodes.map Node.id).Nodup) :
    Linked (nodes.map Node.id) (depsOf nodes) (directDependents nodes) where
  mem_dependents i j := by
    unfold directDependents
    rw [List.mem_map, List.mem_map, mem_depsOf hnd]
    constructor
    · rintro ⟨n, hn, rfl⟩
      obtain ⟨hn, hi⟩ := List.mem_filter.1 hn
      exact ⟨⟨n, hn, rfl⟩, n, hn, rfl, by simpa using hi⟩
    · rintro ⟨-, n, hn, rfl, hi⟩
      exact ⟨n, List.mem_filter.2 ⟨hn, decide_eq_true hi⟩, rfl⟩
  dependents_nodup i := hnd.sublist (List.filter_sublist.map Node.id)
  deps_nodup j := by
    unfold depsOf
    cases node? nodes j with
    | none => exact List.nodup_nil
    | some n => exact (sortedUnique_pairwise _).imp ne_of_lt

end Linked

def build (entries : List Node) : Except GraphError Graph :=
  let nodes := sortEntries entries
  match hrepeat : firstRepeat nodes with
  | some id => .error (.duplicateGate id ((nodes.filter fun n => n.id = id).map Node.path))
  | none =>
    match hunknown : firstUnknown nodes with
    | some (gate, dep) => .error (.unknownDependency gate dep)
    | none =>
      let order := topologicalOrder (nodes.map Node.id) (depsOf nodes) (directDependents nodes)
      if hlen : order.length = (nodes.map Node.id).length then
        have hsorted := pairwise_of_firstRepeat hrepeat
        have hlinked := linked_nodes (hsorted.imp ne_of_lt)
        .ok ⟨nodes, order, hsorted, known_of_firstUnknown hunknown,
          topologicalOrder_perm hlinked (hsorted.imp ne_of_lt) hlen,
          (topologicalOrder_sound hlinked (hsorted.imp ne_of_lt)).2.2⟩
      else .error (.cycle ((findCycle (nodes.map Node.id) (depsOf nodes)).getD []))

theorem build_nodes {entries : List Node} {g : Graph} (h : build entries = .ok g) : g.nodes.Perm entries := by
  unfold build at h
  dsimp only at h
  split at h
  · cases h
  · split at h
    · cases h
    · split_ifs at h
      obtain rfl := Except.ok.inj h
      exact List.perm_insertionSort _ _

namespace Graph

variable (g : Graph)

theorem nodup : (g.nodes.map Node.id).Nodup := g.sorted.imp ne_of_lt

def ordered : List Node := g.order.filterMap (node? g.nodes)

/-- `targets` plus everything they depend on. -/
def withDependencies (targets : List String) : List String :=
  sortedUnique (reach (depsOf g.nodes) (targets.length + g.nodes.length) targets.reverse [] ++ targets)

/-- All gates that rest on `i`, directly or through other gates. -/
def transitiveDependents (i : String) : List String :=
  sortedUnique (reach (directDependents g.nodes) (1 + g.nodes.length) [i] [])

/-- Gate `a` lists `b` in its `depends_on`. -/
def Edge (a b : String) : Prop := ∃ n ∈ g.nodes, n.id = a ∧ b ∈ n.manifest.dependsOn

variable {g} {a b x : String}

theorem mem_depsOf_iff : b ∈ depsOf g.nodes a ↔ g.Edge a b := by
  rw [mem_depsOf g.nodup]
  unfold Edge Node.deps
  simp only [mem_sortedUnique]

theorem mem_directDependents_iff : a ∈ directDependents g.nodes b ↔ g.Edge a b := by
  rw [(linked_nodes g.nodup).mem_dependents, mem_depsOf_iff]
  refine and_iff_right_of_imp ?_
  rintro ⟨n, hn, rfl, _⟩
  exact List.mem_map_of_mem hn

theorem Edge.known (h : g.Edge a b) : b ∈ g.nodes.map Node.id := by
  obtain ⟨n, hn, _, hb⟩ := h
  exact g.known n hn b (mem_sortedUnique.2 hb)

theorem mem_withDependencies {targets : List String} (ht : ∀ t ∈ targets, t ∈ g.nodes.map Node.id) :
    x ∈ g.withDependencies targets ↔ ∃ t ∈ targets, ReflTransGen g.Edge t x := by
  have hclosed : ∀ u ∈ g.nodes.map Node.id, ∀ v ∈ depsOf g.nodes u, v ∈ g.nodes.map Node.id :=
    fun u _ v hv => (mem_depsOf_iff.1 hv).known
  have hedge : (fun a b => b ∈ depsOf g.nodes a) = g.Edge := by
    funext a b
    exact propext mem_depsOf_iff
  have hreach := mem_reach g.nodup hclosed ht (Nat.le_refl (targets.length + (g.nodes.map Node.id).length)) x
  rw [hedge, List.length_map] at hreach
  unfold withDependencies
  rw [mem_sortedUnique, List.mem_append, hreach]
  constructor
  · rintro (⟨t, hmem, h⟩ | hmem)
    · exact ⟨t, hmem, h.to_reflTransGen⟩
    · exact ⟨x, hmem, .refl⟩
  · rintro ⟨t, hmem, h⟩
    rcases reflTransGen_iff_eq_or_transGen.1 h with rfl | h
    · exact Or.inr hmem
    · exact Or.inl ⟨t, hmem, h⟩

theorem mem_transitiveDependents (ha : a ∈ g.nodes.map Node.id) :
    x ∈ g.transitiveDependents a ↔ TransGen g.Edge x a := by
  have hclosed : ∀ u ∈ g.nodes.map Node.id, ∀ v ∈ directDependents g.nodes u, v ∈ g.nodes.map Node.id := by
    intro u _ v hv
    obtain ⟨n, hn, rfl, _⟩ := mem_directDependents_iff.1 hv
    exact List.mem_map_of_mem hn
  have hedge : (fun a b => b ∈ directDependents g.nodes a) = Function.swap g.Edge := by
    funext a b
    exact propext mem_directDependents_iff
  have hreach := mem_reach g.nodup hclosed (List.forall_mem_singleton.2 ha)
    (Nat.le_refl ([a].length + (g.nodes.map Node.id).length)) x
  rw [hedge, List.length_map, List.length_singleton, List.reverse_singleton] at hreach
  unfold transitiveDependents
  rw [mem_sortedUnique, hreach]
  simp only [List.mem_singleton, exists_eq_left]
  exact transGen_swap

/-! ## The nodes in order -/

theorem map_id_filterMap {ids : List String} (h : ∀ i ∈ ids, i ∈ g.nodes.map Node.id) :
    (ids.filterMap (node? g.nodes)).map Node.id = ids := by
  induction ids with
  | nil => rfl
  | cons i ids ih =>
    obtain ⟨n, hn, rfl⟩ := List.mem_map.1 (h i List.mem_cons_self)
    rw [List.filterMap_cons_some (node?_mem g.nodup hn), List.map_cons, ih fun j hj => h j (List.mem_cons_of_mem _ hj)]

theorem map_id_ordered : g.ordered.map Node.id = g.order :=
  map_id_filterMap fun _ hi => g.perm.mem_iff.1 hi

theorem mem_ordered {n : Node} : n ∈ g.ordered ↔ n ∈ g.nodes := by
  unfold ordered
  rw [List.mem_filterMap]
  constructor
  · rintro ⟨i, _, hi⟩
    exact (node?_some hi).1
  · intro hn
    exact ⟨n.id, g.perm.mem_iff.2 (List.mem_map_of_mem hn), node?_mem g.nodup hn⟩

theorem ordered_nodup : (g.ordered.map Node.id).Nodup := by
  rw [map_id_ordered]
  exact g.perm.nodup_iff.2 g.nodup

theorem ordered_split {before rest : List Node} {n : Node} (h : g.ordered = before ++ n :: rest) {d : String}
    (hd : d ∈ n.manifest.dependsOn) : d ∈ before.map Node.id := by
  have hn : n ∈ g.nodes := mem_ordered.1 (h ▸ List.mem_append_right _ List.mem_cons_self)
  have hfirst := g.depsFirst
  rw [← map_id_ordered, h, List.map_append, List.map_cons] at hfirst
  have hbefore := hfirst.split d (mem_depsOf_iff.2 ⟨n, hn, rfl, hd⟩)
  rwa [List.nil_append] at hbefore

end Graph

def loneNode : Node := ⟨"tests/a.gate", { gate := "a", digest := "54f26ece5f27e587488cab53f0db92d0c1d8bee950e2a2d24060a7eb03115063" }⟩

def loneGraph : Graph where
  nodes := [loneNode]
  order := ["a"]
  sorted := List.pairwise_singleton _ _
  known := by simp [loneNode, Node.deps, sortedUnique, Text.sorted]
  perm := .refl _
  depsFirst := ⟨fun d hd => absurd hd (by simp [loneNode, depsOf, node?, Node.id, Node.deps, sortedUnique, Text.sorted]), trivial⟩

end SovereignCore.AienTest
