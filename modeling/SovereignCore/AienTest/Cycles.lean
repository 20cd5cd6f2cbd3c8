import SovereignCore.AienTest.Graph
import Mathlib.Data.List.Chain

/-!
# What the gate graph refuses

* `IsCycle` : a walk back to where it starts; `Searching` : what holds at every turn of the depth-first search;
* `visit_spec`, `findCycle_spec` : the search reports a walk that is one, or there is none;
* `build_exact` : what each answer of `build` says of the manifests.
-/

namespace SovereignCore.AienTest

open Text Topo Relation Reach

/-- Each of `c` is related to the next, and the last is the first. -/
def IsCycle (r : String → String → Prop) (c : List String) : Prop := ∃ x mid, c = x :: (mid ++ [x]) ∧ c.IsChain r

def Needs (deps : String → List String) (a b : String) : Prop := b ∈ deps a

/-! ## The search -/

structure Searching (deps : String → List String) (ids : List String) (s : Visit) : Prop where
  active : ∀ x, s.mark x = .active ↔ x ∈ s.stack
  nodup : s.stack.Nodup
  known : ∀ x ∈ s.stack, x ∈ ids
  chain : s.stack.IsChain (Needs deps)
  closed : Closed (Needs deps) {x | s.mark x = .done}
  acyclic : Acyclic (Needs deps) {x | s.mark x = .done}

/-- The search went on from `s` and came back to the same place. -/
structure Onward (deps : String → List String) (ids : List String) (s s' : Visit) : Prop where
  searching : Searching deps ids s'
  stack : s'.stack = s.stack
  done : ∀ x, s.mark x = .done → s'.mark x = .done

section Search

variable {deps : String → List String} {ids : List String} {s s' : Visit} {n d : String} {fuel : Nat}

theorem Onward.trans {t : Visit} (h : Onward deps ids s s') (h' : Onward deps ids s' t) : Onward deps ids s t where
  searching := h'.searching
  stack := h'.stack.trans h.stack
  done x hx := h'.done x (h.done x hx)

/-- The stack from an active gate on, and the step back to it. -/
theorem Searching.cycle (h : Searching deps ids s) (hd : s.mark d = .active)
    (hlast : ∀ last ∈ s.stack.getLast?, Needs deps last d) :
    IsCycle (Needs deps) (s.stack.drop ((s.stack.idxOf? d).getD 0) ++ [d]) := by
  obtain ⟨before, after, hstack⟩ := List.append_of_mem ((h.active d).1 hd)
  have hnot : d ∉ before := fun hmem =>
    List.disjoint_of_nodup_append (hstack ▸ h.nodup) hmem List.mem_cons_self
  have hchain : (d :: after).IsChain (Needs deps) := (hstack ▸ h.chain).right_of_append
  have hidx : s.stack.idxOf? d = some before.length := by
    rw [hstack, List.idxOf?, List.findIdx?_append, List.findIdx?_eq_none_iff.2 fun x hx => by simpa using ne_of_mem_of_not_mem hx hnot,
      List.findIdx?_cons]
    simp
  rw [hidx, Option.getD_some, hstack, List.drop_left]
  refine ⟨d, after, rfl, hchain.append (.singleton d) fun last hl first hf => ?_⟩
  obtain rfl : d = first := by simpa using hf
  refine hlast last ?_
  rwa [hstack, List.getLast?_append_cons]

theorem Searching.enter (h : Searching deps ids s) (hn : n ∈ ids) (hfresh : s.mark n = .fresh)
    (hlast : ∀ last ∈ s.stack.getLast?, Needs deps last n) :
    Searching deps ids ⟨Function.update s.mark n .active, s.stack ++ [n]⟩ := by
  have hnot : n ∉ s.stack := fun hmem => by simp [(h.active n).2 hmem] at hfresh
  have hdone : {x | Function.update s.mark n .active x = .done} = {x | s.mark x = .done} := by
    ext x
    by_cases hx : x = n
    · simp [hx, hfresh]
    · simp [hx]
  refine ⟨fun x => ?_, ?_, ?_, ?_, ?_, ?_⟩
  · by_cases hx : x = n
    · simp [hx]
    · simp [hx, h.active]
  · exact List.nodup_append_comm.1 (List.nodup_cons.2 ⟨hnot, h.nodup⟩)
  · intro x hx
    rcases List.mem_append.1 hx with hx | hx
    · exact h.known x hx
    · exact List.mem_singleton.1 hx ▸ hn
  · refine h.chain.append (.singleton n) fun last hl first hf => ?_
    obtain rfl : n = first := by simpa using hf
    exact hlast last hl
  · simp only [hdone]
    exact h.closed
  · simp only [hdone]
    exact h.acyclic

theorem Searching.leave (h : Searching deps ids s) (hfresh : s.mark n = .fresh)
    (h' : Onward deps ids ⟨Function.update s.mark n .active, s.stack ++ [n]⟩ s') (hdeps : ∀ d ∈ deps n, s'.mark d = .done) :
    Onward deps ids s ⟨Function.update s'.mark n .done, s'.stack.dropLast⟩ := by
  have hstack : s'.stack = s.stack ++ [n] := h'.stack
  have hactive : s'.mark n = .active := (h'.searching.active n).2 (by simp [hstack])
  have hdone : {x | Function.update s'.mark n .done x = .done} = insert n {x | s'.mark x = .done} := by
    ext x
    by_cases hx : x = n
    · simp [hx]
    · simp [hx]
  have hnot : n ∉ s.stack := fun hmem => by simp [(h.active n).2 hmem] at hfresh
  refine ⟨⟨fun x => ?_, ?_, ?_, ?_, ?_, ?_⟩, by simp [hstack], fun x hx => ?_⟩
  · simp only [hstack, List.dropLast_concat]
    by_cases hx : x = n
    · simp [hx, hnot]
    · rw [Function.update_of_ne hx, h'.searching.active, hstack]
      simp [hx]
  · simpa [hstack] using h.nodup
  · simpa [hstack] using h.known
  · simpa [hstack] using h.chain
  · simp only [hdone]
    exact h'.searching.closed.insert hdeps
  · simp only [hdone]
    exact h'.searching.acyclic.insert h'.searching.closed hdeps (by simp [hactive])
  · by_cases hxn : x = n
    · simp [hxn]
    · have hx' := h'.done x (by simpa [hxn] using hx)
      simpa [hxn] using hx'

/-- A loop of the search: each of `ds` ends up done, or a cycle is found. -/
theorem visits {f : Visit → String → Except (List String) Visit} (ds : List String) (h : Searching deps ids s)
    (hf : ∀ d ∈ ds, ∀ s', Onward deps ids s s' → match f s' d with
      | .ok t => Onward deps ids s' t ∧ t.mark d = .done
      | .error c => IsCycle (Needs deps) c) :
    match ds.foldlM f s with
    | .ok t => Onward deps ids s t ∧ ∀ d ∈ ds, t.mark d = .done
    | .error c => IsCycle (Needs deps) c := by
  induction ds generalizing s with
  | nil => exact ⟨⟨h, rfl, fun _ hx => hx⟩, fun _ hd => absurd hd List.not_mem_nil⟩
  | cons d ds ih =>
    have hd := hf d List.mem_cons_self s ⟨h, rfl, fun _ hx => hx⟩
    rw [List.foldlM_cons]
    cases hfd : f s d with
    | error c => rwa [hfd] at hd
    | ok t =>
      rw [hfd] at hd
      have hrest := ih hd.1.searching fun e he s' hs' => hf e (List.mem_cons_of_mem d he) s' (hd.1.trans hs')
      change match ds.foldlM f t with | .ok t => _ | .error c => _
      cases hfold : ds.foldlM f t with
      | error c => rwa [hfold] at hrest
      | ok u =>
        rw [hfold] at hrest
        refine ⟨hd.1.trans hrest.1, fun e he => ?_⟩
        rcases List.mem_cons.1 he with rfl | he
        · exact hrest.1.done e hd.2
        · exact hrest.2 e he

/-- A dependency met from the top of the stack closes a cycle, is visited, or is done. -/
theorem visit_next (hs : Searching deps ids s) (htop : ∀ last ∈ s.stack.getLast?, Needs deps last d)
    (hvisit : s.mark d = .fresh → match visit deps fuel d s with
      | .ok t => Onward deps ids s t ∧ t.mark d = .done
      | .error c => IsCycle (Needs deps) c) :
    match (match s.mark d with
      | .active => .error (s.stack.drop ((s.stack.idxOf? d).getD 0) ++ [d])
      | .fresh => visit deps fuel d s
      | .done => .ok s : Except (List String) Visit) with
    | .ok t => Onward deps ids s t ∧ t.mark d = .done
    | .error c => IsCycle (Needs deps) c := by
  cases hmark : s.mark d with
  | active => exact hs.cycle hmark htop
  | done => exact ⟨⟨hs, rfl, fun _ hx => hx⟩, hmark⟩
  | fresh => exact hvisit hmark

theorem visit_spec (hknown : ∀ i ∈ ids, ∀ d ∈ deps i, d ∈ ids) (h : Searching deps ids s) (hn : n ∈ ids)
    (hfresh : s.mark n = .fresh) (hlast : ∀ last ∈ s.stack.getLast?, Needs deps last n)
    (hfuel : ids.length ≤ fuel + s.stack.length) :
    match visit deps fuel n s with
    | .ok t => Onward deps ids s t ∧ t.mark n = .done
    | .error c => IsCycle (Needs deps) c := by
  induction fuel generalizing n s with
  | zero =>
    -- a stack of distinct gates without `n` has fewer of them
    have hnot : n ∉ s.stack := fun hmem => by simp [(h.active n).2 hmem] at hfresh
    have hlen := (List.subperm_of_subset (List.nodup_cons.2 ⟨hnot, h.nodup⟩)
      (List.cons_subset.2 ⟨hn, h.known⟩)).length_le
    rw [List.length_cons] at hlen
    omega
  | succ fuel ih =>
    have henter := h.enter hn hfresh hlast
    have htop : ∀ d ∈ deps n, ∀ s', Onward deps ids ⟨Function.update s.mark n .active, s.stack ++ [n]⟩ s' →
        ∀ last ∈ s'.stack.getLast?, Needs deps last d := by
      intro d hd s' hs' last hl
      rw [hs'.stack, List.getLast?_concat] at hl
      exact Option.some.inj hl ▸ hd
    have hloop := visits (deps n) henter fun d hd s' hs' =>
      visit_next hs'.searching (htop d hd s' hs') fun hmark => by
        refine ih hs'.searching (hknown n hn d hd) hmark (htop d hd s' hs') ?_
        rw [hs'.stack, List.length_append, List.length_singleton]
        omega
    simp only [visit]
    revert hloop
    generalize (deps n).foldlM (m := Except (List String)) _ _ = r
    intro hloop
    cases r with
    | error c => exact hloop
    | ok t => exact ⟨h.leave hfresh hloop.1 hloop.2, Function.update_self ..⟩

theorem findCycle_spec (hknown : ∀ i ∈ ids, ∀ d ∈ deps i, d ∈ ids) :
    match findCycle ids deps with
    | some c => IsCycle (Needs deps) c
    | none => Acyclic (Needs deps) {i | i ∈ ids} := by
  have hstart : Searching deps ids ⟨fun _ => .fresh, []⟩ :=
    ⟨by simp, List.nodup_nil, by simp, .nil, fun x hx => by simp at hx, fun x hx => by simp at hx⟩
  have hloop := visits ids hstart (f := fun s n => if s.mark n = .fresh then visit deps ids.length n s else .ok s)
    fun n hn s hs => by
      split_ifs with hfresh
      · exact visit_spec hknown hs.searching hn hfresh (by simp [hs.stack]) (by omega)
      · refine ⟨⟨hs.searching, rfl, fun _ hx => hx⟩, ?_⟩
        cases hmark : s.mark n with
        | fresh => exact absurd hmark hfresh
        | active => simpa [hs.stack] using (hs.searching.active n).1 hmark
        | done => rfl
  simp only [findCycle]
  revert hloop
  generalize ids.foldlM (m := Except (List String)) _ _ = r
  intro hloop
  cases r with
  | error c => exact hloop
  | ok t => exact fun x hx => hloop.1.searching.acyclic x (hloop.2 x hx)

end Search

/-! ## Building -/

/-- The manifest of `a` names `b` in its `depends_on`. -/
def Lists (entries : List Node) (a b : String) : Prop := ∃ n ∈ entries, n.id = a ∧ b ∈ n.manifest.dependsOn

section Build

variable {nodes entries : List Node} {id : String}

theorem firstRepeat_some (h : firstRepeat nodes = some id) : 2 ≤ (nodes.filter fun n => n.id = id).length := by
  fun_induction firstRepeat nodes with
  | case1 a b rest hab =>
    obtain rfl := Option.some.inj h
    simp [hab]
  | case2 a b rest hab ih =>
    exact le_trans (ih h) ((List.sublist_cons_self a (b :: rest)).filter _).length_le
  | case3 => cases h

theorem firstUnknown_some {dep : String} (h : firstUnknown nodes = some (id, dep)) :
    Lists nodes id dep ∧ dep ∉ nodes.map Node.id := by
  obtain ⟨n, hn, hfind⟩ := List.exists_of_findSome?_eq_some h
  obtain ⟨d, hd, heq⟩ := Option.map_eq_some_iff.1 hfind
  obtain ⟨rfl, rfl⟩ := Prod.mk.inj heq
  exact ⟨⟨n, hn, rfl, List.mem_of_find?_eq_some hd⟩, by simpa using List.find?_some hd⟩

theorem needs_eq (hnd : (nodes.map Node.id).Nodup) (hperm : nodes.Perm entries) :
    Needs (depsOf nodes) = Lists entries := by
  funext a b
  apply propext
  unfold Needs Lists
  rw [mem_depsOf hnd]
  simp only [Node.deps, mem_sortedUnique, hperm.mem_iff]

theorem build_cases (entries : List Node) : let nodes := sortEntries entries
    (∃ id, firstRepeat nodes = some id ∧
      build entries = .error (.duplicateGate id ((nodes.filter fun n => n.id = id).map Node.path))) ∨
    firstRepeat nodes = none ∧ ((∃ gate dep, firstUnknown nodes = some (gate, dep) ∧
      build entries = .error (.unknownDependency gate dep)) ∨
    firstUnknown nodes = none ∧ ((∃ g, build entries = .ok g ∧ g.nodes = nodes) ∨
      (topologicalOrder (nodes.map Node.id) (depsOf nodes) (directDependents nodes)).length ≠ (nodes.map Node.id).length ∧
      build entries = .error (.cycle ((findCycle (nodes.map Node.id) (depsOf nodes)).getD [])))) := by
  unfold build
  dsimp only
  split
  next id hrepeat => exact Or.inl ⟨id, hrepeat, rfl⟩
  next hrepeat =>
    refine Or.inr ⟨hrepeat, ?_⟩
    split
    next gate dep hunknown => exact Or.inl ⟨gate, dep, hunknown, rfl⟩
    next hunknown =>
      refine Or.inr ⟨hunknown, ?_⟩
      split_ifs with hlen
      · exact Or.inl ⟨_, rfl, rfl⟩
      · exact Or.inr ⟨hlen, rfl⟩

end Build

/-- Each answer of `build` says of the manifests what it means, whatever they are: a graph is accepted exactly when gate
ids are distinct, dependencies known and nothing depends on itself, and a reported cycle is one. -/
theorem build_exact (entries : List Node) :
    match build entries with
    | .ok g => g.nodes.Perm entries ∧ (entries.map Node.id).Nodup ∧
        (∀ a b, Lists entries a b → b ∈ entries.map Node.id) ∧ ∀ x, ¬ TransGen (Lists entries) x x
    | .error (.duplicateGate id paths) => 2 ≤ paths.length ∧
        paths.Perm ((entries.filter fun n => n.id = id).map Node.path)
    | .error (.unknownDependency gate dep) => (entries.map Node.id).Nodup ∧ Lists entries gate dep ∧
        dep ∉ entries.map Node.id
    | .error (.cycle ids) => (entries.map Node.id).Nodup ∧
        (∀ a b, Lists entries a b → b ∈ entries.map Node.id) ∧ IsCycle (Lists entries) ids := by
  have hperm : (sortEntries entries).Perm entries := List.perm_insertionSort _ _
  have hids : ((sortEntries entries).map Node.id).Perm (entries.map Node.id) := hperm.map Node.id
  obtain ⟨id, hrepeat, hbuild⟩ | ⟨hrepeat, hbuild⟩ := build_cases entries
  · rw [hbuild]
    exact ⟨by simpa using firstRepeat_some hrepeat, (hperm.filter _).map _⟩
  have hnd : ((sortEntries entries).map Node.id).Nodup := (pairwise_of_firstRepeat hrepeat).imp ne_of_lt
  have hneeds := needs_eq hnd hperm
  have hnodup := hids.nodup_iff.1 hnd
  obtain ⟨gate, dep, hunknown, hbuild⟩ | ⟨hunknown, hbuild⟩ := hbuild
  · rw [hbuild]
    obtain ⟨⟨n, hn, hid, hdep⟩, hnot⟩ := firstUnknown_some hunknown
    exact ⟨hnodup, ⟨n, hperm.mem_iff.1 hn, hid, hdep⟩, mt hids.mem_iff.2 hnot⟩
  have hknown : ∀ i ∈ (sortEntries entries).map Node.id, ∀ d ∈ depsOf (sortEntries entries) i,
      d ∈ (sortEntries entries).map Node.id := by
    intro i _ d hd
    obtain ⟨n, hn, -, hd⟩ := (mem_depsOf hnd).1 hd
    exact known_of_firstUnknown hunknown n hn d hd
  have hlisted : ∀ a b, Lists entries a b → b ∈ entries.map Node.id := by
    intro a b hab
    rw [← hneeds] at hab
    obtain ⟨n, hn, -, hd⟩ := (mem_depsOf hnd).1 hab
    exact hids.mem_iff.1 (known_of_firstUnknown hunknown n hn b hd)
  obtain ⟨g, hbuild, hnodes⟩ | ⟨hlen, hbuild⟩ := hbuild
  · rw [hbuild]
    refine ⟨hnodes ▸ hperm, hnodup, hlisted, fun x hx => ?_⟩
    have hacyclic := g.depsFirst.acyclic (g.perm.nodup_iff.2 g.nodup) (fun _ h => absurd h List.not_mem_nil)
      fun _ h => absurd h List.not_mem_nil
    obtain ⟨y, -, hyx⟩ := TransGen.tail'_iff.1 hx
    refine hacyclic x (g.perm.mem_iff.2 (hnodes ▸ hids.mem_iff.2 (hlisted y x hyx))) ?_
    rw [hnodes]
    rw [← hneeds] at hx
    exact hx
  · rw [hbuild]
    refine ⟨hnodup, hlisted, ?_⟩
    have hspec := findCycle_spec hknown
    rw [hneeds] at hspec
    cases hfind : findCycle ((sortEntries entries).map Node.id) (depsOf (sortEntries entries)) with
    | some c =>
      rw [hfind] at hspec
      exact hspec
    | none =>
      rw [hfind, ← hneeds] at hspec
      exact absurd (topologicalOrder_complete (linked_nodes hnd) hnd hknown hspec) hlen

end SovereignCore.AienTest
