import SovereignCore.Lib.Reach
import SovereignCore.Lib.Search
import SovereignCore.Lib.Table

/-!
# The dependency graph of the workspace

A graph maps a node to the set of nodes it depends on. A node that is only depended on has no entry of its own.
The two searches are loops over vectors that are pushed and popped at their end; the vectors are lists here with that
end first.

* `findCycle` : the depth-first search with its marks; `closureOf` : the transitive closure of a node;
* `Edge`, `IsCycle` : what the graph stands for;
* `Searching` : what holds at every turn of the depth-first loop, `search_spec` : what the loop ends with;
* `mem_closureOf`, `findCycle_none_iff`, `findCycle_isCycle` : both searches are exact.
-/

namespace SovereignCore.Closure

open Std Relation

/-- node -> set of nodes it depends on. -/
abbrev Graph := ExtTreeMap String (ExtTreeSet String)

namespace Graph

/-- The dependencies of a node in order; a node without an entry has none. -/
def deps (g : Graph) (n : String) : List String := (g[n]?.getD ∅).toList

inductive Mark where
  | opened
  | done
  deriving DecidableEq, Repr

abbrev Marks := ExtTreeMap String Mark

variable {g : Graph} {mark : Marks} {stack : List (String × List String)} {node next x y : String} {todo : List String}

theorem notMem_of_deps (h : x ∉ g) : g.deps x = [] := by
  rw [deps, Table.notMem_iff.1 h]
  rfl

/-! ## The depth-first search -/

/-- What the loop has still to do: an edge to try counts twice and a frame once, for the stack and for every node with
an entry that has no mark. -/
def load (g : Graph) (mark : Marks) (stack : List (String × List String)) : Nat :=
  (stack.map fun frame => 2 * frame.2.length + 1).sum +
    ((g.keys.filter (· ∉ mark.keys)).map fun k => 2 * (g.deps k).length + 1).sum

theorem unmarked_insert (g : Graph) (mark : Marks) (n : String) (m : Mark) :
    g.keys.filter (· ∉ (mark.insert n m).keys) = g.keys.filter (· ∉ n :: mark.keys) := by
  apply List.filter_congr
  intro k _
  simp only [ExtTreeMap.mem_keys, ExtTreeMap.mem_insert, LawfulEqOrd.compare_eq_iff_eq, List.mem_cons, @eq_comm _ n k]

theorem load_leave (g : Graph) (mark : Marks) (node : String) (stack : List (String × List String)) :
    load g (mark.insert node .done) stack < load g mark ((node, []) :: stack) := by
  have hle := Search.sum_filter_mark_le (fun k => 2 * (g.deps k).length + 1) g.keys mark.keys node
  simp only [load, unmarked_insert, List.map_cons, List.sum_cons, List.length_nil]
  omega

theorem load_skip (g : Graph) (mark : Marks) (node next : String) (todo : List String)
    (stack : List (String × List String)) :
    load g mark ((node, todo) :: stack) < load g mark ((node, next :: todo) :: stack) := by
  simp only [load, List.map_cons, List.sum_cons, List.length_cons]
  omega

theorem load_enter (g : Graph) (node : String) (todo : List String) (stack : List (String × List String))
    (h : mark[next]? = none) :
    load g (mark.insert next .opened) ((next, (g.deps next).reverse) :: (node, todo) :: stack) <
      load g mark ((node, next :: todo) :: stack) := by
  have hnot : next ∉ mark.keys := by
    rw [ExtTreeMap.mem_keys]
    exact Table.notMem_iff.2 h
  simp only [load, unmarked_insert, List.map_cons, List.sum_cons, List.length_cons, List.length_reverse]
  by_cases hkey : next ∈ g
  · have := Search.sum_filter_mark (fun k => 2 * (g.deps k).length + 1) (ExtTreeMap.mem_keys.2 hkey) hnot
    omega
  · have := Search.sum_filter_mark_le (fun k => 2 * (g.deps k).length + 1) g.keys mark.keys next
    rw [notMem_of_deps hkey, List.length_nil]
    omega

/-- The loop of the search from one start. `error` is the early return with a cycle: the stack from the open node on,
closed by that node. -/
def search (g : Graph) (mark : Marks) (stack : List (String × List String)) : Except (List String) Marks :=
  match stack with
  | [] => .ok mark
  | (node, []) :: below => search g (mark.insert node .done) below
  | (node, next :: todo) :: below =>
    match _h : mark[next]? with
    | some .opened =>
      .error ((((node, todo) :: below).map Prod.fst).reverse.dropWhile (· ≠ next) ++ [next])
    | some .done => search g mark ((node, todo) :: below)
    | none => search g (mark.insert next .opened) ((next, (g.deps next).reverse) :: (node, todo) :: below)
termination_by load g mark stack
decreasing_by
  · exact load_leave g mark node below
  · exact load_skip g mark node next todo below
  · exact load_enter g node todo below _h

def findCycleFrom (g : Graph) : List String → Marks → Option (List String)
  | [], _ => none
  | start :: rest, mark =>
    if start ∈ mark then findCycleFrom g rest mark
    else
      match search g (mark.insert start .opened) [(start, (g.deps start).reverse)] with
      | .error path => some path
      | .ok mark => findCycleFrom g rest mark

/-- Returns one cycle as a path `a -> b -> ... -> a` if the graph has any. -/
def findCycle (g : Graph) : Option (List String) := findCycleFrom g g.keys ∅

/-! ## The transitive closure -/

/-- The pops still to come: what is listed, and the dependencies of the nodes not seen. -/
def pops (g : Graph) (seen : ExtTreeSet String) (todo : List String) : Nat :=
  todo.length + ((g.keys.filter (· ∉ seen.toList)).map fun k => (g.deps k).length).sum

theorem pops_expand {g : Graph} {seen : ExtTreeSet String} {n : String} {todo : List String} (h : n ∉ seen) :
    pops g (seen.insert n) ((g.deps n).reverse ++ todo) < pops g seen (n :: todo) := by
  have hnot : n ∉ seen.toList := fun hn => h (ExtTreeSet.mem_toList.1 hn)
  have hfilter : g.keys.filter (· ∉ (seen.insert n).toList) = g.keys.filter (· ∉ n :: seen.toList) := by
    apply List.filter_congr
    intro k _
    simp only [ExtTreeSet.mem_toList, Table.mem_setInsert, List.mem_cons]
  simp only [pops, hfilter, List.length_append, List.length_reverse, List.length_cons]
  by_cases hkey : n ∈ g
  · have := Search.sum_filter_mark (fun k => (g.deps k).length) (ExtTreeMap.mem_keys.2 hkey) hnot
    omega
  · have := Search.sum_filter_mark_le (fun k => (g.deps k).length) g.keys seen.toList n
    rw [notMem_of_deps hkey, List.length_nil]
    omega

def closureFrom (g : Graph) (seen : ExtTreeSet String) (todo : List String) : ExtTreeSet String :=
  match todo with
  | [] => seen
  | n :: todo =>
    if _h : n ∈ seen then closureFrom g seen todo
    else closureFrom g (seen.insert n) ((g.deps n).reverse ++ todo)
termination_by pops g seen todo
decreasing_by
  · simp [pops]
  · exact pops_expand _h

/-- Transitive closure of `start` (excluding `start` itself unless cyclic). -/
def closureOf (g : Graph) (start : String) : ExtTreeSet String := closureFrom g ∅ (g.deps start).reverse

/-! ## What the graph stands for -/

/-- `x` depends on `y` directly. -/
def Edge (g : Graph) (x y : String) : Prop := y ∈ g.deps x

def IsCycle (g : Graph) (path : List String) : Prop :=
  ∃ x mid, path = x :: (mid ++ [x]) ∧ path.IsChain g.Edge

theorem IsCycle.transGen {path : List String} (h : g.IsCycle path) : ∃ x, TransGen g.Edge x x := by
  obtain ⟨x, mid, rfl, hchain⟩ := h
  refine ⟨x, Search.transGen_of_chain hchain (by simp) ?_⟩
  rw [← List.cons_append, List.getLast?_append_cons, List.getLast?_singleton]

/-! ## The closure is exact -/

/-- A walk that starts among the nodes seen ends there, or passes a node still to do. -/
theorem seen_or_todo {seen : ExtTreeSet String} (hseen : ∀ n ∈ seen, ∀ y, g.Edge n y → y ∈ seen ∨ y ∈ todo)
    (hx : x ∈ seen) (hxy : ReflTransGen g.Edge x y) : y ∈ seen ∨ ∃ n ∈ todo, ReflTransGen g.Edge n y := by
  induction hxy with
  | refl => exact Or.inl hx
  | @tail b c _ hbc ih =>
    obtain hb | ⟨n, hn, hnb⟩ := ih
    · obtain hc | hc := hseen b hb c hbc
      · exact Or.inl hc
      · exact Or.inr ⟨c, hc, ReflTransGen.refl⟩
    · exact Or.inr ⟨n, hn, hnb.tail hbc⟩

theorem mem_closureFrom (seen : ExtTreeSet String) (todo : List String)
    (hseen : ∀ n ∈ seen, ∀ y, g.Edge n y → y ∈ seen ∨ y ∈ todo) :
    y ∈ closureFrom g seen todo ↔ y ∈ seen ∨ ∃ x ∈ todo, ReflTransGen g.Edge x y := by
  fun_induction closureFrom g seen todo with
  | case1 seen => simp
  | case2 seen n todo hn ih =>
    have hseen' : ∀ m ∈ seen, ∀ y, g.Edge m y → y ∈ seen ∨ y ∈ todo := by
      intro m hm z hz
      obtain hz | hz := hseen m hm z hz
      · exact Or.inl hz
      · obtain rfl | hz := List.mem_cons.1 hz
        · exact Or.inl hn
        · exact Or.inr hz
    rw [ih hseen']
    constructor
    · rintro (hy | ⟨x, hx, hxy⟩)
      · exact Or.inl hy
      · exact Or.inr ⟨x, List.mem_cons_of_mem _ hx, hxy⟩
    · rintro (hy | ⟨x, hx, hxy⟩)
      · exact Or.inl hy
      · obtain rfl | hx := List.mem_cons.1 hx
        · exact seen_or_todo hseen' hn hxy
        · exact Or.inr ⟨x, hx, hxy⟩
  | case3 seen n todo hn ih =>
    have hseen' : ∀ m ∈ seen.insert n, ∀ y, g.Edge m y → y ∈ seen.insert n ∨ y ∈ (g.deps n).reverse ++ todo := by
      intro m hm z hz
      rw [Table.mem_setInsert, List.mem_append, List.mem_reverse]
      obtain rfl | hm := Table.mem_setInsert.1 hm
      · exact Or.inr (Or.inl hz)
      · obtain hz | hz := hseen m hm z hz
        · exact Or.inl (Or.inr hz)
        · obtain rfl | hz := List.mem_cons.1 hz
          · exact Or.inl (Or.inl rfl)
          · exact Or.inr (Or.inr hz)
    rw [ih hseen', Table.mem_setInsert]
    constructor
    · rintro ((rfl | hy) | ⟨x, hx, hxy⟩)
      · exact Or.inr ⟨y, List.mem_cons_self, ReflTransGen.refl⟩
      · exact Or.inl hy
      · obtain hx | hx := List.mem_append.1 hx
        · exact Or.inr ⟨n, List.mem_cons_self, ReflTransGen.head (List.mem_reverse.1 hx) hxy⟩
        · exact Or.inr ⟨x, List.mem_cons_of_mem _ hx, hxy⟩
    · rintro (hy | ⟨x, hx, hxy⟩)
      · exact Or.inl (Or.inr hy)
      · obtain rfl | hx := List.mem_cons.1 hx
        · obtain rfl | ⟨z, hxz, hzy⟩ := hxy.cases_head
          · exact Or.inl (Or.inl rfl)
          · exact Or.inr ⟨z, List.mem_append_left _ (List.mem_reverse.2 hxz), hzy⟩
        · exact Or.inr ⟨x, List.mem_append_right _ hx, hxy⟩

theorem mem_closureOf : y ∈ g.closureOf x ↔ TransGen g.Edge x y := by
  rw [closureOf, mem_closureFrom ∅ _ (fun n hn => absurd hn ExtTreeSet.not_mem_empty)]
  constructor
  · rintro (hy | ⟨z, hz, hzy⟩)
    · exact absurd hy ExtTreeSet.not_mem_empty
    · exact TransGen.head' (List.mem_reverse.1 hz) hzy
  · intro h
    obtain ⟨z, hxz, hzy⟩ := TransGen.head'_iff.1 h
    exact Or.inr ⟨z, List.mem_reverse.2 hxz, hzy⟩

/-! ## The search is exact -/

def settled (mark : Marks) : Set String := {x | mark[x]? = some .done}

/-- What holds at every turn of the loop: the open nodes are those of the stack, each a dependency of the one below;
nothing of a stacked node is forgotten; the settled nodes keep to themselves and lie on no cycle. -/
structure Searching (g : Graph) (mark : Marks) (stack : List (String × List String)) : Prop where
  opened : ∀ x, mark[x]? = some .opened ↔ x ∈ stack.map Prod.fst
  nodup : (stack.map Prod.fst).Nodup
  climbs : (stack.map Prod.fst).IsChain fun x y => g.Edge y x
  todo : ∀ frame ∈ stack, ∀ y ∈ frame.2, g.Edge frame.1 y
  explored : Reach.Explored g.Edge (settled mark) none stack
  closed : Reach.Closed g.Edge (settled mark)
  acyclic : Reach.Acyclic g.Edge (settled mark)

theorem settled_insert_done : settled (mark.insert x .done) = insert x (settled mark) := by
  ext y
  simp only [settled, Set.mem_ofPred_eq, Set.mem_insert_iff, Table.get_insert]
  by_cases h : x = y
  · simp [h]
  · simp [h, Ne.symm h]

theorem settled_insert_opened (h : mark[x]? = none) : settled (mark.insert x .opened) = settled mark := by
  ext y
  simp only [settled, Set.mem_ofPred_eq, Table.get_insert]
  by_cases hxy : x = y
  · subst hxy
    simp [h]
  · simp [hxy]

theorem Searching.leave (h : Searching g mark ((node, []) :: stack)) :
    Searching g (mark.insert node .done) stack := by
  have hopen : mark[node]? = some .opened := (h.opened node).2 (by simp)
  have hnot : node ∉ settled mark := by
    intro hn
    rw [settled, Set.mem_ofPred_eq, hopen] at hn
    cases hn
  obtain ⟨hfresh, hnodup⟩ := List.nodup_cons.1 h.nodup
  -- nothing is left to try, and nothing is stacked on the node
  have hout : ∀ y, g.Edge node y → y ∈ settled mark := by
    intro y hy
    obtain hy | hy | hy := h.explored.1 y hy
    · cases hy
    · exact hy
    · cases hy
  refine ⟨fun x => ?_, hnodup, h.climbs.tail, fun frame hf => h.todo frame (List.mem_cons_of_mem _ hf), ?_, ?_, ?_⟩
  · rw [Table.get_insert]
    by_cases hx : node = x
    · subst hx
      simpa using hfresh
    · rw [if_neg hx, h.opened x]
      simp [Ne.symm hx]
  · rw [settled_insert_done]
    exact h.explored.2.leave (Set.subset_insert _ _) (Set.mem_insert _ _)
  · rw [settled_insert_done]
    exact h.closed.insert hout
  · rw [settled_insert_done]
    exact Reach.Acyclic.insert h.closed h.acyclic hout hnot

theorem Searching.skip (h : Searching g mark ((node, next :: todo) :: stack)) (hdone : mark[next]? = some .done) :
    Searching g mark ((node, todo) :: stack) where
  opened := h.opened
  nodup := h.nodup
  climbs := h.climbs
  todo := by
    intro frame hf y hy
    obtain rfl | hf := List.mem_cons.1 hf
    · exact h.todo _ List.mem_cons_self y (List.mem_cons_of_mem _ hy)
    · exact h.todo frame (List.mem_cons_of_mem _ hf) y hy
  explored := h.explored.skip hdone
  closed := h.closed
  acyclic := h.acyclic

theorem Searching.enter (h : Searching g mark ((node, next :: todo) :: stack)) (hnone : mark[next]? = none) :
    Searching g (mark.insert next .opened) ((next, (g.deps next).reverse) :: (node, todo) :: stack) := by
  have hnot : next ∉ ((node, todo) :: stack).map Prod.fst := by
    intro hn
    have := (h.opened next).2 hn
    rw [hnone] at this
    cases this
  refine ⟨fun x => ?_, List.nodup_cons.2 ⟨hnot, h.nodup⟩, ?_, ?_, ?_, ?_, ?_⟩
  · rw [Table.get_insert, List.map_cons, List.mem_cons]
    by_cases hx : next = x
    · simp [hx]
    · rw [if_neg hx, h.opened x]
      simp [Ne.symm hx]
  · exact List.IsChain.cons_cons (h.todo _ List.mem_cons_self next List.mem_cons_self) h.climbs
  · intro frame hf y hy
    obtain rfl | hf := List.mem_cons.1 hf
    · exact List.mem_reverse.1 hy
    · obtain rfl | hf := List.mem_cons.1 hf
      · exact h.todo _ List.mem_cons_self y (List.mem_cons_of_mem _ hy)
      · exact h.todo frame (List.mem_cons_of_mem _ hf) y hy
  · rw [settled_insert_opened hnone]
    exact h.explored.enter fun y hy => List.mem_reverse.2 hy
  · rw [settled_insert_opened hnone]
    exact h.closed
  · rw [settled_insert_opened hnone]
    exact h.acyclic

/-- A chain cut at one of its nodes, whose last node leads back to that node. -/
theorem isCycle_of_chain : ∀ {l : List String}, l.IsChain g.Edge → next ∈ l →
    (∀ last ∈ l.getLast?, g.Edge last next) → g.IsCycle (l.dropWhile (· ≠ next) ++ [next])
  | [], _, hmem, _ => absurd hmem List.not_mem_nil
  | z :: l, hchain, hmem, hlast => by
    by_cases hz : z = next
    · subst hz
      rw [List.dropWhile_cons_of_neg (by simp)]
      refine ⟨z, l, rfl, hchain.append (.singleton z) fun last hl first hf => ?_⟩
      obtain rfl : z = first := by simpa using hf
      exact hlast last hl
    · have hmem' : next ∈ l := (List.mem_cons.1 hmem).resolve_left (Ne.symm hz)
      obtain ⟨w, l', rfl⟩ := List.exists_cons_of_ne_nil (List.ne_nil_of_mem hmem')
      rw [List.dropWhile_cons_of_pos (by simpa using hz)]
      exact isCycle_of_chain hchain.tail hmem' (by simpa using hlast)

/-- An open node met again closes a cycle: the stack from it to the top, and the edge just tried. -/
theorem Searching.cycle (h : Searching g mark ((node, next :: todo) :: stack)) (hopen : mark[next]? = some .opened) :
    g.IsCycle ((((node, todo) :: stack).map Prod.fst).reverse.dropWhile (· ≠ next) ++ [next]) := by
  refine isCycle_of_chain (List.isChain_reverse.2 h.climbs) (List.mem_reverse.2 ((h.opened next).1 hopen)) ?_
  intro last hlast
  obtain rfl : node = last := by simpa using hlast
  exact h.todo _ List.mem_cons_self next List.mem_cons_self

theorem search_spec (h : Searching g mark stack) :
    match search g mark stack with
    | .ok mark' => Searching g mark' [] ∧ ∀ x ∈ mark, x ∈ mark'
    | .error path => g.IsCycle path := by
  fun_induction search g mark stack with
  | case1 mark => exact ⟨h, fun x hx => hx⟩
  | case2 mark node below ih =>
    have := ih h.leave
    revert this
    cases search g (mark.insert node .done) below with
    | error path => exact id
    | ok mark' => exact fun hm => ⟨hm.1, fun x hx => hm.2 x (ExtTreeMap.mem_insert.2 (Or.inr hx))⟩
  | case3 mark node next todo below hopen => exact h.cycle hopen
  | case4 mark node next todo below hdone ih => exact ih (h.skip hdone)
  | case5 mark node next todo below hnone ih =>
    have := ih (h.enter hnone)
    revert this
    cases search g (mark.insert next .opened) ((next, (g.deps next).reverse) :: (node, todo) :: below) with
    | error path => exact id
    | ok mark' => exact fun hm => ⟨hm.1, fun x hx => hm.2 x (ExtTreeMap.mem_insert.2 (Or.inr hx))⟩

theorem Searching.start (h : Searching g mark []) (hx : x ∉ mark) :
    Searching g (mark.insert x .opened) [(x, (g.deps x).reverse)] := by
  have hnone := Table.notMem_iff.1 hx
  refine ⟨fun y => ?_, List.nodup_singleton x, .singleton x, ?_, ?_, ?_, ?_⟩
  · rw [Table.get_insert]
    by_cases hy : x = y
    · simp [hy]
    · rw [if_neg hy, h.opened y]
      simp [Ne.symm hy]
  · intro frame hf y hy
    obtain rfl := List.mem_singleton.1 hf
    exact List.mem_reverse.1 hy
  · exact ⟨fun y hy => Or.inl (List.mem_reverse.2 hy), trivial⟩
  · rw [settled_insert_opened hnone]
    exact h.closed
  · rw [settled_insert_opened hnone]
    exact h.acyclic

theorem findCycleFrom_none : ∀ {starts : List String} {mark : Marks}, Searching g mark [] →
    findCycleFrom g starts mark = none →
    ∃ mark', Searching g mark' [] ∧ (∀ x ∈ mark, x ∈ mark') ∧ ∀ x ∈ starts, x ∈ mark'
  | [], mark, h, _ => ⟨mark, h, fun x hx => hx, fun x hx => absurd hx List.not_mem_nil⟩
  | start :: rest, mark, h, hnone => by
    rw [findCycleFrom] at hnone
    split at hnone
    · rename_i hstart
      obtain ⟨mark', h', hmark, hrest⟩ := findCycleFrom_none h hnone
      exact ⟨mark', h', hmark, List.forall_mem_cons.2 ⟨hmark start hstart, hrest⟩⟩
    · rename_i hstart
      have hspec := search_spec (h.start hstart)
      split at hnone
      · cases hnone
      · rename_i mark₁ heq
        rw [heq] at hspec
        obtain ⟨mark', h', hmark, hrest⟩ := findCycleFrom_none hspec.1 hnone
        have hkeep : ∀ x ∈ mark.insert start .opened, x ∈ mark' := fun x hx => hmark x (hspec.2 x hx)
        refine ⟨mark', h', fun x hx => hkeep x (ExtTreeMap.mem_insert.2 (Or.inr hx)), ?_⟩
        exact List.forall_mem_cons.2 ⟨hkeep start ExtTreeMap.mem_insert_self, hrest⟩

theorem findCycleFrom_some {path : List String} : ∀ {starts : List String} {mark : Marks}, Searching g mark [] →
    findCycleFrom g starts mark = some path → g.IsCycle path
  | [], _, _, hsome => by cases hsome
  | start :: rest, mark, h, hsome => by
    rw [findCycleFrom] at hsome
    split at hsome
    · exact findCycleFrom_some h hsome
    · rename_i hstart
      have hspec := search_spec (h.start hstart)
      split at hsome
      · rename_i heq
        rw [heq] at hspec
        rw [← Option.some.inj hsome]
        exact hspec
      · rename_i heq
        rw [heq] at hspec
        exact findCycleFrom_some hspec.1 hsome

theorem Searching.empty (g : Graph) : Searching g ∅ [] where
  opened := by simp
  nodup := List.nodup_nil
  climbs := .nil
  todo := by simp
  explored := trivial
  closed := fun x hx => by simp [settled] at hx
  acyclic := fun x hx => by simp [settled] at hx

theorem findCycle_isCycle {path : List String} (h : g.findCycle = some path) : g.IsCycle path :=
  findCycleFrom_some (.empty g) h

/-- Marks that leave nothing open settle every node they reach: a graph whose nodes are all marked has no cycle. -/
theorem Searching.no_cycle (h : Searching g mark []) (hkeys : ∀ k ∈ g.keys, k ∈ mark) (x : String) :
    ¬ TransGen g.Edge x x := by
  intro hcycle
  obtain ⟨y, hxy, _⟩ := TransGen.head'_iff.1 hcycle
  have hkey : x ∈ g := by
    by_contra hx
    rw [Edge, notMem_of_deps hx] at hxy
    cases hxy
  obtain ⟨m, hm⟩ := Table.mem_iff.1 (hkeys x (ExtTreeMap.mem_keys.2 hkey))
  cases m with
  | opened => exact absurd ((h.opened x).1 hm) List.not_mem_nil
  | done => exact h.acyclic x hm hcycle

theorem findCycle_none_iff : g.findCycle = none ↔ ∀ x, ¬ TransGen g.Edge x x := by
  constructor
  · intro hnone
    obtain ⟨mark, h, _, hkeys⟩ := findCycleFrom_none (.empty g) hnone
    exact h.no_cycle hkeys
  · intro hacyclic
    by_contra hsome
    obtain ⟨path, hpath⟩ := Option.ne_none_iff_exists'.1 hsome
    obtain ⟨x, hx⟩ := (findCycle_isCycle hpath).transGen
    exact hacyclic x hx

/-- Both searches are exact: the closure of a node is what it reaches, and the cycle search finds a cycle, a real one,
just when there is one. -/
theorem closure_exact (g : Graph) :
    (∀ x y, y ∈ g.closureOf x ↔ TransGen g.Edge x y) ∧
    (g.findCycle = none ↔ ∀ x, ¬ TransGen g.Edge x x) ∧
    (∀ path, g.findCycle = some path → g.IsCycle path) :=
  ⟨fun _ _ => mem_closureOf, findCycle_none_iff, fun _ => findCycle_isCycle⟩

end Graph

end SovereignCore.Closure
