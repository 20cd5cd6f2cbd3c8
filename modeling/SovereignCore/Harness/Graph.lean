import SovereignCore.Lib.Search
import SovereignCore.Lib.Table

/-!
# The producer/consumer dependency graph

Nodes are task ids. An edge `producer → consumer` means the consumer needs the producer's artifact. The source keeps
both directions as ordered maps of ordered sets and checks every insert, so that the graph is always a DAG.

* `addNode`, `checkEdge`, `addEdge`, `path` : the operations;
* `Edge` : the relation the graph stands for;
* `WF` : both directions agree, every endpoint is a node, no task depends on itself through others;
* `addNode_spec`, `addEdge_spec` : what an accepted insert changes, and that it keeps `WF`.
-/

namespace SovereignCore.Harness

open Std

inductive GraphError where
  | duplicateNode (id : String)
  | missingNode (id : String)
  | selfEdge (id : String)
  | duplicateEdge (producer consumer : String)
  | cycle (path : List String)
  deriving DecidableEq, Repr

structure DependencyGraph where
  producers : ExtTreeMap String (ExtTreeSet String) := ∅
  consumers : ExtTreeMap String (ExtTreeSet String) := ∅

namespace DependencyGraph

/-! ## Operations -/

def contains (g : DependencyGraph) (id : String) : Bool := g.producers.contains id

def producersOf (g : DependencyGraph) (id : String) : List String := (g.producers[id]?.getD ∅).toList

def consumersOf (g : DependencyGraph) (id : String) : List String := (g.consumers[id]?.getD ∅).toList

def addNode (g : DependencyGraph) (id : String) : Except GraphError DependencyGraph :=
  if g.contains id then .error (.duplicateNode id)
  else .ok { producers := g.producers.insert id ∅, consumers := g.consumers.insert id ∅ }

/-- A path `start → … → target` along existing edges, if one exists. -/
def path (g : DependencyGraph) (start target : String) : Option (List String) :=
  match Search.findPath g.consumersOf target (g.consumers.size + 1) [start] [start] [] with
  | some parent => some (target :: Search.trail parent parent.length target).reverse
  | none => none

def checkEdge (g : DependencyGraph) (producer consumer : String) : Except GraphError Unit :=
  if ¬ g.contains producer then .error (.missingNode producer)
  else if ¬ g.contains consumer then .error (.missingNode consumer)
  else if producer = consumer then .error (.selfEdge producer)
  else if consumer ∈ g.consumersOf producer then .error (.duplicateEdge producer consumer)
  else
    -- the new edge closes a cycle iff the producer is reachable from the consumer
    match g.path consumer producer with
    | some path => .error (.cycle (path ++ [consumer]))
    | none => .ok ()

def addEdge (g : DependencyGraph) (producer consumer : String) : Except GraphError DependencyGraph := do
  g.checkEdge producer consumer
  return { consumers := g.consumers.modify producer (·.insert consumer)
           producers := g.producers.modify consumer (·.insert producer) }

/-- One edge from each listed producer into `consumer`, in order. -/
def addEdges (consumer : String) (producers : List String) (g : DependencyGraph) :
    Except GraphError DependencyGraph :=
  producers.foldlM (fun g p => g.addEdge p consumer) g

/-! ## The relation -/

/-- `consumer` needs the artifact of `producer`. -/
def Edge (g : DependencyGraph) (producer consumer : String) : Prop := consumer ∈ g.consumersOf producer

structure WF (g : DependencyGraph) : Prop where
  nodes : ∀ id, id ∈ g.consumers ↔ g.contains id = true
  mirror : ∀ p c, p ∈ g.producersOf c ↔ g.Edge p c
  known : ∀ p c, g.Edge p c → g.contains p = true ∧ g.contains c = true
  acyclic : Search.Acyclic g.Edge

theorem empty_wf : ({} : DependencyGraph).WF where
  nodes _ := by simp [contains]
  mirror _ _ := by simp [producersOf, Edge, consumersOf]
  known _ _ h := by simp [Edge, consumersOf] at h
  acyclic := by
    intro x h
    obtain ⟨y, h, -⟩ := Relation.TransGen.head'_iff.1 h
    simp [Edge, consumersOf] at h

variable {g g' : DependencyGraph} {p c id start target : String}

theorem consumersOf_nodup : (g.consumersOf id).Nodup := Table.toList_nodup _

theorem path_none (hwf : g.WF) (hstart : g.contains start = true) (h : g.path start target = none) :
    ¬ Relation.ReflTransGen g.Edge start target := by
  unfold path at h
  split at h
  · cases h
  · rename_i hnone
    have hmem : ∀ x, x ∈ g.consumers.keys ↔ g.contains x = true := by
      intro x
      rw [ExtTreeMap.mem_keys]
      exact hwf.nodes x
    refine Search.findPath_none (U := g.consumers.keys) ExtTreeMap.nodup_keys
      (fun _ _ => consumersOf_nodup) (fun u _ v hv => (hmem v).2 (hwf.known u v hv).2)
      ((hmem start).2 hstart) ?_ hnone
    rw [ExtTreeMap.length_keys]
    omega

theorem checkEdge_ok (hwf : g.WF) (h : g.checkEdge p c = .ok ()) :
    g.contains p = true ∧ g.contains c = true ∧ p ≠ c ∧ ¬ g.Edge p c ∧ ¬ Relation.ReflTransGen g.Edge c p := by
  unfold checkEdge at h
  split at h
  · simp at h
  · rename_i hp
    split at h
    · simp at h
    · rename_i hc
      split at h
      · simp at h
      · rename_i hne
        split at h
        · simp at h
        · rename_i hedge
          split at h
          · simp at h
          · rename_i hpath
            simp only [Bool.not_eq_true, Bool.not_eq_false] at hp hc
            exact ⟨hp, hc, hne, hedge, path_none hwf hc hpath⟩

theorem addNode_ok (h : g.addNode id = .ok g') :
    g.contains id = false ∧
      g' = { producers := g.producers.insert id ∅, consumers := g.consumers.insert id ∅ } := by
  unfold addNode at h
  split at h
  · simp at h
  · rename_i hc
    exact ⟨by simpa using hc, by simpa using h.symm⟩

theorem addNode_spec (hwf : g.WF) (h : g.addNode id = .ok g') :
    g.contains id = false ∧ g'.WF ∧ (∀ x, g'.contains x = true ↔ x = id ∨ g.contains x = true) ∧
      (∀ x y, g'.Edge x y ↔ g.Edge x y) := by
  obtain ⟨hnew, hg'⟩ := addNode_ok h
  have hcons : g.consumers[id]? = none := Table.notMem_iff.1 fun hm => by simp [(hwf.nodes id).1 hm] at hnew
  have hprod : g.producers[id]? = none := ExtTreeMap.getElem?_eq_none_of_contains_eq_false hnew
  have hcof : ∀ x, g'.consumersOf x = g.consumersOf x := by
    intro x
    rw [hg']
    unfold consumersOf
    rw [Table.get_insert]
    split
    · rename_i he
      rw [← he, hcons]
      rfl
    · rfl
  have hpof : ∀ x, g'.producersOf x = g.producersOf x := by
    intro x
    rw [hg']
    unfold producersOf
    rw [Table.get_insert]
    split
    · rename_i he
      rw [← he, hprod]
      rfl
    · rfl
  have hedge : ∀ x y, g'.Edge x y ↔ g.Edge x y := fun x y => by unfold Edge; rw [hcof]
  have hcont : ∀ x, g'.contains x = true ↔ x = id ∨ g.contains x = true := by
    intro x
    rw [hg']
    unfold contains
    rw [ExtTreeMap.contains_insert, Bool.or_eq_true, beq_iff_eq, LawfulEqOrd.compare_eq_iff_eq]
    exact or_congr_left eq_comm
  refine ⟨hnew, ⟨fun x => ?_, fun x y => ?_, fun x y hxy => ?_, ?_⟩, hcont, hedge⟩
  · rw [hcont, hg', ExtTreeMap.mem_insert, hwf.nodes x, LawfulEqOrd.compare_eq_iff_eq]
    exact or_congr_left eq_comm
  · rw [hpof, hedge]
    exact hwf.mirror x y
  · have := hwf.known x y ((hedge x y).1 hxy)
    exact ⟨(hcont x).2 (Or.inr this.1), (hcont y).2 (Or.inr this.2)⟩
  · exact hwf.acyclic.mono fun x y hxy => (hedge x y).1 hxy

theorem addEdge_ok (h : g.addEdge p c = .ok g') :
    g.checkEdge p c = .ok () ∧ g' = { consumers := g.consumers.modify p (·.insert c)
                                      producers := g.producers.modify c (·.insert p) } := by
  unfold addEdge at h
  cases hc : g.checkEdge p c with
  | error e => rw [hc] at h; simp [bind, Except.bind] at h
  | ok _ =>
    rw [hc] at h
    simp only [bind, Except.bind, pure, Except.pure, Except.ok.injEq] at h
    exact ⟨rfl, h.symm⟩

theorem mem_modify_insert {m : ExtTreeMap String (ExtTreeSet String)} {k v x y : String} (hk : k ∈ m) :
    y ∈ ExtTreeSet.toList ((m.modify k (·.insert v))[x]?.getD ∅) ↔
      y ∈ ExtTreeSet.toList (m[x]?.getD ∅) ∨ (x = k ∧ y = v) := by
  rw [ExtTreeSet.mem_toList, ExtTreeSet.mem_toList, Table.get_modify]
  obtain ⟨s, hs⟩ := Table.mem_iff.1 hk
  by_cases h : k = x
  · subst h
    rw [if_pos rfl, hs, Option.map_some, Option.getD_some, Option.getD_some, Table.mem_setInsert]
    tauto
  · rw [if_neg h]
    have : ¬ x = k := fun he => h he.symm
    tauto

theorem addEdge_spec (hwf : g.WF) (h : g.addEdge p c = .ok g') :
    g'.WF ∧ (∀ x, g'.contains x = g.contains x) ∧ (∀ x y, g'.Edge x y ↔ g.Edge x y ∨ (x = p ∧ y = c)) ∧
      g.contains p = true := by
  obtain ⟨hcheck, hg'⟩ := addEdge_ok h
  obtain ⟨hp, hc, -, -, hreach⟩ := checkEdge_ok hwf hcheck
  have hedge : ∀ x y, g'.Edge x y ↔ g.Edge x y ∨ (x = p ∧ y = c) := by
    intro x y
    rw [hg']
    exact mem_modify_insert ((hwf.nodes p).2 hp)
  have hprod : ∀ x y, x ∈ g'.producersOf y ↔ x ∈ g.producersOf y ∨ (y = c ∧ x = p) := by
    intro x y
    rw [hg']
    exact mem_modify_insert (ExtTreeMap.mem_iff_contains.2 hc)
  have hcont : ∀ x, g'.contains x = g.contains x := by
    intro x
    rw [hg']
    unfold contains
    rw [ExtTreeMap.contains_modify]
  refine ⟨⟨fun x => ?_, fun x y => ?_, fun x y hxy => ?_, ?_⟩, hcont, hedge, hp⟩
  · rw [hcont, hg', ExtTreeMap.mem_modify]
    exact hwf.nodes x
  · rw [hprod, hedge, hwf.mirror x y]
    tauto
  · rw [hcont, hcont]
    rcases (hedge x y).1 hxy with hxy | ⟨rfl, rfl⟩
    · exact hwf.known x y hxy
    · exact ⟨hp, hc⟩
  · exact hwf.acyclic.addEdge (fun x y hxy => (hedge x y).1 hxy) hreach

theorem addEdges_spec {ps : List String} (hwf : g.WF) (h : addEdges c ps g = .ok g') :
    g'.WF ∧ (∀ x, g'.contains x = g.contains x) ∧ (∀ x y, g'.Edge x y ↔ g.Edge x y ∨ (x ∈ ps ∧ y = c)) ∧
      ∀ p ∈ ps, g.contains p = true := by
  induction ps generalizing g with
  | nil =>
    simp only [addEdges, List.foldlM_nil, pure, Except.pure, Except.ok.injEq] at h
    subst h
    exact ⟨hwf, fun _ => rfl, by simp, by simp⟩
  | cons p ps ih =>
    simp only [addEdges, List.foldlM_cons, bind, Except.bind] at h
    split at h
    · simp at h
    · rename_i g1 h1
      obtain ⟨hwf1, hc1, he1, hp1⟩ := addEdge_spec hwf h1
      obtain ⟨hwf', hc', he', hp'⟩ := ih hwf1 h
      refine ⟨hwf', fun x => (hc' x).trans (hc1 x), fun x y => ?_, fun q hq => ?_⟩
      · rw [he', he1, List.mem_cons]
        tauto
      · rcases List.mem_cons.1 hq with rfl | hq
        · exact hp1
        · rw [← hc1]
          exact hp' q hq

end DependencyGraph

end SovereignCore.Harness
