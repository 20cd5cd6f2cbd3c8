import SovereignCore.Harness.Graph

/-!
# Cycle checking

* `build` : a graph as its own operations make it; `build_wf` : it is well-formed;
* `path_some` : a path that is found is one;
* `checkEdge_exact` : a cycle is reported exactly when the edge would close one.
-/

namespace SovereignCore.Harness.DependencyGraph

variable {g : DependencyGraph} {p c start target : String} {l : List String}

inductive GraphOp where
  | addNode (id : String)
  | addEdge (producer consumer : String)

/-- One operation; a refused one leaves the graph as it is. -/
def step (g : DependencyGraph) : GraphOp → DependencyGraph
  | .addNode id => (g.addNode id).toOption.getD g
  | .addEdge producer consumer => (g.addEdge producer consumer).toOption.getD g

def build (ops : List GraphOp) : DependencyGraph := ops.foldl step {}

theorem WF.step (h : g.WF) (op : GraphOp) : (g.step op).WF := by
  cases op with
  | addNode id =>
    show ((g.addNode id).toOption.getD g).WF
    cases hadd : g.addNode id with
    | error e => exact h
    | ok g' => exact (addNode_spec h hadd).2.1
  | addEdge p c =>
    show ((g.addEdge p c).toOption.getD g).WF
    cases hadd : g.addEdge p c with
    | error e => exact h
    | ok g' => exact (addEdge_spec h hadd).1

theorem WF.foldl : ∀ (ops : List GraphOp) {g : DependencyGraph}, g.WF → (ops.foldl DependencyGraph.step g).WF
  | [], _, h => h
  | op :: ops, _, h => WF.foldl ops (h.step op)

theorem build_wf (ops : List GraphOp) : (build ops).WF := WF.foldl ops empty_wf

theorem path_some (h : g.path start target = some l) :
    l.IsChain g.Edge ∧ l.head? = some start ∧ l.getLast? = some target := by
  unfold path at h
  split at h
  · rename_i parent hfound
    cases h
    obtain ⟨hchain, hhead⟩ := Search.findPath_some (fun _ => consumersOf_nodup) hfound
    refine ⟨hchain, hhead, ?_⟩
    rw [List.getLast?_reverse, List.head?_cons]
  · cases h

def EdgeWith (g : DependencyGraph) (producer consumer x y : String) : Prop :=
  g.Edge x y ∨ (x = producer ∧ y = consumer)

theorem checkEdge_cycle (h : g.checkEdge p c = .error (.cycle l)) :
    p ≠ c ∧ ∃ path, g.path c p = some path ∧ l = path ++ [c] := by
  unfold checkEdge at h
  split_ifs at h with hp hc hne hedge
  · cases h
  · cases h
  · split at h
    · rename_i path hpath
      cases h
      exact ⟨hne, path, hpath, rfl⟩
    · cases h
  · cases h
  · cases h

/-- A reported cycle is a cycle of the graph with the edge. -/
theorem checkEdge_cycle_chain (h : g.checkEdge p c = .error (.cycle l)) :
    l.IsChain (g.EdgeWith p c) ∧ l.head? = some c ∧ l.getLast? = some c ∧ 2 ≤ l.length := by
  obtain ⟨-, path, hpath, rfl⟩ := checkEdge_cycle h
  obtain ⟨hchain, hhead, hlast⟩ := path_some hpath
  refine ⟨?_, ?_, ?_, ?_⟩
  · refine List.isChain_append.2 ⟨hchain.imp fun _ _ => .inl, List.isChain_singleton c, fun x hx y hy => ?_⟩
    rw [hlast] at hx
    obtain rfl : p = x := Option.some.inj hx
    obtain rfl : c = y := Option.some.inj hy
    exact .inr ⟨rfl, rfl⟩
  · rw [List.head?_append, hhead]
    rfl
  · rw [List.getLast?_append]
    rfl
  · cases path with
    | nil => cases hhead
    | cons x path =>
      rw [List.length_append, List.length_cons, List.length_singleton]
      omega

/-- **Cycle checking is exact**: between two different tasks a cycle is reported exactly when the edge would close one, and
the reported path is such a cycle; an edge from a task to itself has a refusal of its own. -/
theorem checkEdge_exact (ops : List GraphOp) (p c : String) :
    (p ≠ c → ((∃ path, (build ops).checkEdge p c = .error (.cycle path)) ↔
      ¬ Search.Acyclic ((build ops).EdgeWith p c))) ∧
    (∀ path, (build ops).checkEdge p c = .error (.cycle path) →
      path.IsChain ((build ops).EdgeWith p c) ∧ path.head? = path.getLast? ∧ 2 ≤ path.length) ∧
    (p = c → (build ops).checkEdge p c =
      .error (if (build ops).contains p then .selfEdge p else .missingNode p)) := by
  have hwf := build_wf ops
  generalize build ops = g at hwf
  refine ⟨fun hne => ⟨?_, fun hcycle => ?_⟩, fun path h => ?_, ?_⟩
  · rintro ⟨path, h⟩ hacyclic
    obtain ⟨hchain, hhead, hlast, hlen⟩ := checkEdge_cycle_chain h
    cases path with
    | nil => cases hhead
    | cons x path =>
      obtain rfl : x = c := Option.some.inj hhead
      refine hacyclic x (Search.transGen_of_chain hchain ?_ hlast)
      rintro rfl
      exact absurd hlen (Nat.not_succ_le_self 1)
  · by_contra hnone
    refine hcycle (hwf.acyclic.addEdge (fun x y hxy => hxy) fun hreach => hnone ?_)
    -- The consumer reaches the producer: both are known, and the edge is not there yet.
    have hends : g.contains p = true ∧ g.contains c = true := by
      obtain ⟨q, hq, -⟩ := Relation.ReflTransGen.cases_head hreach |>.resolve_left (Ne.symm hne)
      obtain hp | ⟨r, -, hr⟩ := Relation.ReflTransGen.cases_tail hreach
      · exact absurd hp hne
      · exact ⟨(hwf.known r p hr).2, (hwf.known c q hq).1⟩
    have hnew : c ∉ g.consumersOf p := fun hedge => hwf.acyclic c (Relation.TransGen.tail' hreach hedge)
    unfold checkEdge
    rw [if_neg (not_not.2 hends.1), if_neg (not_not.2 hends.2), if_neg hne, if_neg hnew]
    cases hpath : g.path c p with
    | none => exact absurd hreach (path_none hwf hends.2 hpath)
    | some path => exact ⟨_, rfl⟩
  · obtain ⟨hchain, hhead, hlast, hlen⟩ := checkEdge_cycle_chain h
    exact ⟨hchain, hhead.trans hlast.symm, hlen⟩
  · rintro rfl
    unfold checkEdge
    by_cases hp : g.contains p = true
    · rw [if_neg (not_not.2 hp), if_neg (not_not.2 hp), if_pos rfl, if_pos hp]
    · rw [if_pos hp, if_neg hp]

/-- An edge from a task to itself closes a cycle, and is not reported as one. -/
theorem selfEdge_is_no_cycle : (build [.addNode "a"]).checkEdge "a" "a" = .error (.selfEdge "a") ∧
    ¬ Search.Acyclic ((build [.addNode "a"]).EdgeWith "a" "a") := by
  constructor
  · decide +kernel
  · intro h
    exact h "a" (.single (.inr ⟨rfl, rfl⟩))

end SovereignCore.Harness.DependencyGraph
