import SovereignCore.Lib.Reach
import Mathlib.Data.List.Sort
import Mathlib.Data.List.Perm.Subperm
import Mathlib.Logic.Relation

/-!
# Two loops over a dependency graph

* `topologicalOrder` : Kahn's algorithm on counters, the lowest ready vertex first. `topologicalOrder_sound` : no vertex
  twice, each after all it depends on; `takeReady_fuel` : the loop ends by itself; `topologicalOrder_perm` : an order that
  is long enough has every vertex; `topologicalOrder_complete` : without a cycle the order is long enough;
* `reach` : a stack loop that marks a vertex when it is pushed. `mem_reach` : it marks what the start reaches.
-/

namespace SovereignCore.Topo

open Relation

variable {α : Type} [LinearOrder α]

/-! ## Kahn's algorithm -/

/-- `insert` of a sorted set. -/
def addSorted (x : α) (l : List α) : List α := if x ∈ l then l else l.orderedInsert (· ≤ ·) x

/-- A dependent of a finished vertex waits for one less, and is ready when it waits for none. -/
def release (s : (α → Nat) × List α) (j : α) : (α → Nat) × List α :=
  let waiting := Function.update s.1 j (s.1 j - 1)
  (waiting, if waiting j = 0 then addSorted j s.2 else s.2)

def takeReady (dependents : α → List α) : Nat → (α → Nat) → List α → List α
  | 0, _, _ => []
  | _ + 1, _, [] => []
  | fuel + 1, waiting, i :: ready =>
    let s := (dependents i).foldl release (waiting, ready)
    i :: takeReady dependents fuel s.1 s.2

/-- The order of the sorted `nodes`; each takes one turn at most. -/
def topologicalOrder (nodes : List α) (deps dependents : α → List α) : List α :=
  takeReady dependents nodes.length (fun i => (deps i).length) (nodes.filter fun i => (deps i).length = 0)

theorem mem_addSorted {x y : α} {l : List α} : y ∈ addSorted x l ↔ y = x ∨ y ∈ l := by
  unfold addSorted
  split_ifs with h
  · exact ⟨Or.inr, fun hy => hy.elim (fun heq => heq ▸ h) id⟩
  · exact List.mem_orderedInsert _

theorem nodup_addSorted {x : α} {l : List α} (h : l.Nodup) : (addSorted x l).Nodup := by
  unfold addSorted
  split_ifs with hx
  · exact h
  · exact (List.perm_orderedInsert _ x l).nodup_iff.2 (List.nodup_cons.2 ⟨hx, h⟩)

section Release

variable {js ready : List α} {waiting : α → Nat}

theorem release_mk (j : α) : release (waiting, ready) j =
    (Function.update waiting j (waiting j - 1), if waiting j - 1 = 0 then addSorted j ready else ready) := by
  unfold release
  simp only [Function.update_self]

theorem releases_waiting (hjs : js.Nodup) (k : α) :
    (js.foldl release (waiting, ready)).1 k = if k ∈ js then waiting k - 1 else waiting k := by
  induction js generalizing waiting ready with
  | nil => rfl
  | cons j js ih =>
    obtain ⟨hj, hjs⟩ := List.nodup_cons.1 hjs
    rw [List.foldl_cons, release_mk, ih hjs]
    by_cases hk : k = j
    · subst hk
      rw [if_neg hj, if_pos List.mem_cons_self, Function.update_self]
    · rw [Function.update_of_ne hk]
      simp only [List.mem_cons, hk, false_or]

theorem mem_releases (hjs : js.Nodup) (x : α) :
    x ∈ (js.foldl release (waiting, ready)).2 ↔ x ∈ ready ∨ x ∈ js ∧ waiting x - 1 = 0 := by
  induction js generalizing waiting ready with
  | nil => simp
  | cons j js ih =>
    obtain ⟨hj, hjs⟩ := List.nodup_cons.1 hjs
    rw [List.foldl_cons, release_mk, ih hjs]
    by_cases hx : x = j
    · subst hx
      by_cases hw : waiting x - 1 = 0
      · simp [hw, mem_addSorted]
      · simp [hw, hj]
    · rw [Function.update_of_ne hx]
      by_cases hw : waiting j - 1 = 0
      · simp [hw, mem_addSorted, hx]
      · simp [hw, hx]

theorem nodup_releases (h : ready.Nodup) : (js.foldl release (waiting, ready)).2.Nodup := by
  induction js generalizing waiting ready with
  | nil => exact h
  | cons j js ih =>
    rw [List.foldl_cons, release_mk]
    refine ih ?_
    split_ifs
    · exact nodup_addSorted h
    · exact h

end Release

/-- `dependents` turns `deps` round, and neither repeats a vertex. -/
structure Linked (nodes : List α) (deps dependents : α → List α) : Prop where
  mem_dependents : ∀ i j, j ∈ dependents i ↔ j ∈ nodes ∧ i ∈ deps j
  dependents_nodup : ∀ i, (dependents i).Nodup
  deps_nodup : ∀ j, (deps j).Nodup

/-- What holds between two turns, with the vertices `done` so far. -/
structure Turn (nodes : List α) (deps : α → List α) (done : List α) (waiting : α → Nat) (ready : List α) : Prop where
  waits : ∀ j ∈ nodes, waiting j = ((deps j).filter (· ∉ done)).length
  ready_nodup : ready.Nodup
  ready_sub : ∀ j ∈ ready, j ∈ nodes
  ready_new : ∀ j ∈ ready, j ∉ done
  ready_free : ∀ j ∈ ready, ∀ d ∈ deps j, d ∈ done
  done_nodup : done.Nodup
  done_sub : ∀ j ∈ done, j ∈ nodes
  done_closed : ∀ j ∈ done, ∀ d ∈ deps j, d ∈ done

variable {nodes done ready : List α} {deps dependents : α → List α} {waiting : α → Nat} {i : α} {fuel : Nat}

theorem length_filter_done {l : List α} (hl : l.Nodup) (hi : i ∉ done) :
    (l.filter (· ∉ done ++ [i])).length = if i ∈ l then (l.filter (· ∉ done)).length - 1 else (l.filter (· ∉ done)).length := by
  have hfilter : l.filter (· ∉ done ++ [i]) = (l.filter (· ∉ done)).erase i := by
    rw [(hl.filter _).erase_eq_filter, List.filter_filter]
    refine List.filter_congr fun x _ => ?_
    simp only [List.mem_append, List.mem_singleton, not_or, Bool.decide_and, decide_not]
    rw [Bool.and_comm]
    congr 1
  rw [hfilter, List.length_erase]
  refine if_congr ?_ rfl rfl
  rw [List.mem_filter]
  exact and_iff_left (decide_eq_true hi)

theorem free_iff {l : List α} : (l.filter (· ∉ done)).length = 0 ↔ ∀ d ∈ l, d ∈ done := by
  rw [List.length_eq_zero_iff, List.filter_eq_nil_iff]
  simp

theorem Turn.step (hl : Linked nodes deps dependents) (h : Turn nodes deps done waiting (i :: ready)) :
    Turn nodes deps (done ++ [i]) ((dependents i).foldl release (waiting, ready)).1
      ((dependents i).foldl release (waiting, ready)).2 := by
  obtain ⟨hiready, hready⟩ := List.nodup_cons.1 h.ready_nodup
  have hi : i ∉ done := h.ready_new i List.mem_cons_self
  have hwaits : ∀ j ∈ nodes, ((dependents i).foldl release (waiting, ready)).1 j =
      ((deps j).filter (· ∉ done ++ [i])).length := by
    intro j hj
    rw [releases_waiting (hl.dependents_nodup i), length_filter_done (hl.deps_nodup j) hi, h.waits j hj]
    exact if_congr ((hl.mem_dependents i j).trans (and_iff_right hj)) rfl rfl
  -- A vertex that becomes ready depends on `i` and on nothing else that is not done.
  have hnew : ∀ j ∈ dependents i, j ∉ done ++ [i] := by
    intro j hj hmem
    have hdep := ((hl.mem_dependents i j).1 hj).2
    rcases List.mem_append.1 hmem with hmem | hmem
    · exact hi (h.done_closed j hmem i hdep)
    · rw [List.mem_singleton.1 hmem] at hdep
      exact hi (h.ready_free i List.mem_cons_self i hdep)
  refine ⟨hwaits, nodup_releases hready, fun j hj => ?_, fun j hj => ?_, fun j hj => ?_, ?_, fun j hj => ?_, fun j hj d hd => ?_⟩
  · rcases (mem_releases (hl.dependents_nodup i) j).1 hj with hj | ⟨hj, _⟩
    · exact h.ready_sub j (List.mem_cons_of_mem _ hj)
    · exact ((hl.mem_dependents i j).1 hj).1
  · rcases (mem_releases (hl.dependents_nodup i) j).1 hj with hj | ⟨hj, _⟩
    · intro hmem
      rcases List.mem_append.1 hmem with hmem | hmem
      · exact h.ready_new j (List.mem_cons_of_mem _ hj) hmem
      · rw [List.mem_singleton.1 hmem] at hj
        exact hiready hj
    · exact hnew j hj
  · rcases (mem_releases (hl.dependents_nodup i) j).1 hj with hj | ⟨hj, hzero⟩
    · exact fun d hd => List.mem_append_left _ (h.ready_free j (List.mem_cons_of_mem _ hj) d hd)
    · have hnodes := ((hl.mem_dependents i j).1 hj).1
      rw [← free_iff, ← hwaits j hnodes, releases_waiting (hl.dependents_nodup i), if_pos hj]
      exact hzero
  · exact List.nodup_append'.2 ⟨h.done_nodup, List.nodup_singleton i, List.disjoint_singleton.2 hi⟩
  · rcases List.mem_append.1 hj with hj | hj
    · exact h.done_sub j hj
    · rw [List.mem_singleton.1 hj]
      exact h.ready_sub i List.mem_cons_self
  · rcases List.mem_append.1 hj with hj | hj
    · exact List.mem_append_left _ (h.done_closed j hj d hd)
    · rw [List.mem_singleton.1 hj] at hd
      exact List.mem_append_left _ (h.ready_free i List.mem_cons_self d hd)

def DepsFirst (deps : α → List α) (done : List α) : List α → Prop
  | [] => True
  | i :: rest => (∀ d ∈ deps i, d ∈ done) ∧ DepsFirst deps (done ++ [i]) rest

theorem takeReady_sound (hl : Linked nodes deps dependents) (h : Turn nodes deps done waiting ready) :
    (done ++ takeReady dependents fuel waiting ready).Nodup ∧
      (∀ x ∈ takeReady dependents fuel waiting ready, x ∈ nodes) ∧
      DepsFirst deps done (takeReady dependents fuel waiting ready) := by
  induction fuel generalizing done waiting ready with
  | zero => exact ⟨by simpa [takeReady] using h.done_nodup, by simp [takeReady], trivial⟩
  | succ fuel ih =>
    cases ready with
    | nil => exact ⟨by simpa [takeReady] using h.done_nodup, by simp [takeReady], trivial⟩
    | cons i ready =>
      obtain ⟨hnd, hsub, hfirst⟩ := ih (h.step hl)
      rw [List.append_assoc, List.singleton_append] at hnd
      refine ⟨hnd, fun x hx => ?_, h.ready_free i List.mem_cons_self, hfirst⟩
      rcases List.mem_cons.1 hx with rfl | hx
      · exact h.ready_sub x List.mem_cons_self
      · exact hsub x hx

theorem takeReady_fuel (hl : Linked nodes deps dependents) (h : Turn nodes deps done waiting ready)
    (hfuel : nodes.length ≤ done.length + fuel) (k : Nat) :
    takeReady dependents (fuel + k) waiting ready = takeReady dependents fuel waiting ready := by
  induction fuel generalizing done waiting ready with
  | zero =>
    have hperm := (List.subperm_of_subset h.done_nodup h.done_sub).perm_of_length_le (by omega)
    cases ready with
    | nil => cases k <;> rfl
    | cons i ready =>
      exact absurd (hperm.mem_iff.2 (h.ready_sub i List.mem_cons_self)) (h.ready_new i List.mem_cons_self)
  | succ fuel ih =>
    rw [Nat.add_right_comm]
    cases ready with
    | nil => rfl
    | cons i ready =>
      have hlen : nodes.length ≤ (done ++ [i]).length + fuel := by
        rw [List.length_append, List.length_singleton]
        omega
      exact congrArg (i :: ·) (ih (h.step hl) hlen)

theorem turn_start (hnodes : nodes.Nodup) :
    Turn nodes deps [] (fun i => (deps i).length) (nodes.filter fun i => (deps i).length = 0) := by
  refine ⟨fun j _ => ?_, hnodes.filter _, fun j hj => (List.mem_filter.1 hj).1, fun _ _ => List.not_mem_nil,
    fun j hj d hd => ?_, List.nodup_nil, fun _ hj => absurd hj List.not_mem_nil, fun _ hj => absurd hj List.not_mem_nil⟩
  · simp
  · have hzero : (deps j).length = 0 := by simpa using (List.mem_filter.1 hj).2
    rw [List.length_eq_zero_iff.1 hzero] at hd
    exact absurd hd List.not_mem_nil

theorem topologicalOrder_sound (hl : Linked nodes deps dependents) (hnodes : nodes.Nodup) :
    (topologicalOrder nodes deps dependents).Nodup ∧ (∀ x ∈ topologicalOrder nodes deps dependents, x ∈ nodes) ∧
      DepsFirst deps [] (topologicalOrder nodes deps dependents) := by
  obtain ⟨hnd, hsub, hfirst⟩ : _ ∧ _ ∧ DepsFirst deps [] (topologicalOrder nodes deps dependents) :=
    takeReady_sound hl (turn_start hnodes)
  exact ⟨hnd, hsub, hfirst⟩

theorem topologicalOrder_perm (hl : Linked nodes deps dependents) (hnodes : nodes.Nodup)
    (hlen : (topologicalOrder nodes deps dependents).length = nodes.length) :
    (topologicalOrder nodes deps dependents).Perm nodes := by
  obtain ⟨hnd, hsub, _⟩ := topologicalOrder_sound hl hnodes
  exact (List.subperm_of_subset hnd hsub).perm_of_length_le (by omega)

omit [LinearOrder α] in
theorem DepsFirst.split {before rest : List α} (h : DepsFirst deps done (before ++ i :: rest)) :
    ∀ d ∈ deps i, d ∈ done ++ before := by
  induction before generalizing done with
  | nil => simpa using h.1
  | cons b before ih =>
    intro d hd
    have := ih h.2 d hd
    rwa [List.append_assoc, List.singleton_append] at this

/-! ## Exactness -/

/-- Induction from what a vertex depends on, on a finite part without cycles. -/
theorem acyclic_induction {β : Type} {r : β → β → Prop} {S : Set β} (hfin : S.Finite) (h : Reach.Acyclic r S) {p : β → Prop}
    (hstep : ∀ x ∈ S, (∀ y ∈ S, r x y → p y) → p x) : ∀ x ∈ S, p x := by
  have := hfin.to_subtype
  let below : S → S → Prop := fun b c => TransGen r c.1 b.1
  have : IsTrans S below := ⟨fun _ _ _ hab hbc => hbc.trans hab⟩
  have : Std.Irrefl below := ⟨fun b => h b.1 b.2⟩
  have hwf : WellFounded below := Finite.wellFounded_of_trans_of_irrefl below
  suffices ∀ c : S, p c.1 from fun x hx => this ⟨x, hx⟩
  intro c
  induction c using hwf.induction with
  | _ c ih => exact hstep c.1 c.2 fun y hy hcy => ih ⟨y, hy⟩ (TransGen.single hcy)

def Free (nodes : List α) (deps : α → List α) (done ready : List α) : Prop :=
  ∀ j ∈ nodes, j ∉ done → (∀ d ∈ deps j, d ∈ done) → j ∈ ready

theorem Free.step (hl : Linked nodes deps dependents) (h : Turn nodes deps done waiting (i :: ready))
    (hf : Free nodes deps done (i :: ready)) :
    Free nodes deps (done ++ [i]) ((dependents i).foldl release (waiting, ready)).2 := by
  intro j hj hnew hdeps
  rw [List.mem_append, List.mem_singleton, not_or] at hnew
  rw [mem_releases (hl.dependents_nodup i)]
  by_cases hi : i ∈ deps j
  · -- it waited for `i` alone
    refine Or.inr ⟨(hl.mem_dependents i j).2 ⟨hj, hi⟩, ?_⟩
    have hlen := length_filter_done (hl.deps_nodup j) (h.ready_new i List.mem_cons_self)
    rw [if_pos hi, free_iff.2 hdeps] at hlen
    rw [h.waits j hj]
    exact hlen.symm
  · have hready : j ∈ i :: ready := hf j hj hnew.1 fun d hd => by
      rcases List.mem_append.1 (hdeps d hd) with hdone | hdone
      · exact hdone
      · rw [List.mem_singleton.1 hdone] at hd
        exact absurd hd hi
    exact Or.inl ((List.mem_cons.1 hready).resolve_left hnew.2)

/-- What the loop has not taken when it ends waits for something that it has not taken. -/
theorem takeReady_stuck (hl : Linked nodes deps dependents) (h : Turn nodes deps done waiting ready)
    (hf : Free nodes deps done ready) (hfuel : nodes.length ≤ done.length + fuel) :
    ∀ j ∈ nodes, (∀ d ∈ deps j, d ∈ done ++ takeReady dependents fuel waiting ready) →
      j ∈ done ++ takeReady dependents fuel waiting ready := by
  induction fuel generalizing done waiting ready with
  | zero =>
    intro j hj _
    have hperm := (List.subperm_of_subset h.done_nodup h.done_sub).perm_of_length_le (by omega)
    exact List.mem_append_left _ (hperm.mem_iff.2 hj)
  | succ fuel ih =>
    cases ready with
    | nil =>
      intro j hj hdeps
      rw [takeReady, List.append_nil] at hdeps ⊢
      by_contra hnew
      exact List.not_mem_nil (hf j hj hnew hdeps)
    | cons i ready =>
      have hlen : nodes.length ≤ (done ++ [i]).length + fuel := by
        rw [List.length_append, List.length_singleton]
        omega
      have hrest := ih (h.step hl) (hf.step hl h) hlen
      rw [List.append_assoc, List.singleton_append] at hrest
      exact hrest

theorem topologicalOrder_complete (hl : Linked nodes deps dependents) (hnodes : nodes.Nodup)
    (hknown : ∀ j ∈ nodes, ∀ d ∈ deps j, d ∈ nodes)
    (hacyclic : Reach.Acyclic (fun j d => d ∈ deps j) {j | j ∈ nodes}) :
    (topologicalOrder nodes deps dependents).length = nodes.length := by
  have hfree : Free nodes deps [] (nodes.filter fun i => (deps i).length = 0) := by
    intro j hj _ hdeps
    have hnil : deps j = [] := List.eq_nil_iff_forall_not_mem.2 fun d hd => List.not_mem_nil (hdeps d hd)
    exact List.mem_filter.2 ⟨hj, by simp [hnil]⟩
  have hstuck := takeReady_stuck hl (turn_start hnodes) hfree (by simp : nodes.length ≤ [].length + nodes.length)
  have hall : ∀ j ∈ nodes, j ∈ topologicalOrder nodes deps dependents := by
    refine acyclic_induction nodes.finite_toSet hacyclic fun j hj hdeps => ?_
    exact hstuck j hj fun d hd => hdeps d (hknown j hj d hd) hd
  obtain ⟨hnd, hsub, _⟩ := topologicalOrder_sound hl hnodes
  exact le_antisymm (List.subperm_of_subset hnd hsub).length_le (List.subperm_of_subset hnodes hall).length_le

omit [LinearOrder α] in
theorem DepsFirst.acyclic {l : List α} (h : DepsFirst deps done l) (hnd : (done ++ l).Nodup)
    (hclosed : Reach.Closed (fun j d => d ∈ deps j) {j | j ∈ done})
    (hacyclic : Reach.Acyclic (fun j d => d ∈ deps j) {j | j ∈ done}) :
    Reach.Acyclic (fun j d => d ∈ deps j) {j | j ∈ done ++ l} := by
  induction l generalizing done with
  | nil => rwa [List.append_nil]
  | cons i rest ih =>
    have hset : {j | j ∈ done ++ [i]} = insert i {j | j ∈ done} := by
      ext j
      simp [or_comm]
    rw [← List.singleton_append, ← List.append_assoc] at hnd ⊢
    have hnew : i ∉ done := (List.disjoint_of_nodup_append hnd.of_append_left).symm List.mem_cons_self
    refine ih h.2 hnd ?_ ?_
    · rw [hset]
      exact hclosed.insert h.1
    · rw [hset]
      exact hacyclic.insert hclosed h.1 hnew

/-! ## Reachability -/

def push (s : List α × List α) (m : α) : List α × List α := if m ∈ s.2 then s else (m :: s.1, m :: s.2)

def reach (next : α → List α) : Nat → List α → List α → List α
  | 0, _, seen => seen
  | _ + 1, [], seen => seen
  | fuel + 1, n :: stack, seen =>
    let s := (next n).foldl push (stack, seen)
    reach next fuel s.1 s.2

section Reach

variable {next : α → List α} {js stack seen U start : List α} {x : α}

theorem push_mk (j : α) : push (stack, seen) j = if j ∈ seen then (stack, seen) else (j :: stack, j :: seen) := rfl

theorem mem_pushes_seen : x ∈ (js.foldl push (stack, seen)).2 ↔ x ∈ seen ∨ x ∈ js := by
  induction js generalizing stack seen with
  | nil => simp
  | cons j js ih =>
    rw [List.foldl_cons, push_mk]
    split_ifs with hj
    · rw [ih, List.mem_cons]
      exact ⟨fun h => h.imp id Or.inr, fun h => h.elim Or.inl (fun h => h.elim (fun he => Or.inl (he ▸ hj)) Or.inr)⟩
    · rw [ih, List.mem_cons, List.mem_cons]
      tauto

theorem mem_pushes_stack (hx : x ∈ (js.foldl push (stack, seen)).1) : x ∈ stack ∨ x ∈ js := by
  induction js generalizing stack seen with
  | nil => exact Or.inl hx
  | cons j js ih =>
    rw [List.foldl_cons, push_mk] at hx
    split_ifs at hx with hj
    · exact (ih hx).imp id (List.mem_cons_of_mem _)
    · rcases ih hx with h | h
      · exact (List.mem_cons.1 h).elim (fun he => Or.inr (he ▸ List.mem_cons_self)) Or.inl
      · exact Or.inr (List.mem_cons_of_mem _ h)

theorem pushes_stack (hx : x ∈ stack ∨ x ∈ js ∧ x ∉ seen) : x ∈ (js.foldl push (stack, seen)).1 := by
  induction js generalizing stack seen with
  | nil => exact hx.elim id fun h => absurd h.1 List.not_mem_nil
  | cons j js ih =>
    rw [List.foldl_cons, push_mk]
    split_ifs with hj
    · refine ih (hx.imp id fun h => ⟨?_, h.2⟩)
      exact (List.mem_cons.1 h.1).resolve_left fun he => h.2 (he ▸ hj)
    · by_cases hxj : x = j
      · exact ih (Or.inl (hxj ▸ List.mem_cons_self))
      · refine ih (hx.imp (List.mem_cons_of_mem _) fun h => ⟨(List.mem_cons.1 h.1).resolve_left hxj, ?_⟩)
        exact fun hmem => (List.mem_cons.1 hmem).elim hxj h.2

theorem length_pushes (hU : U.Nodup) (hjs : ∀ j ∈ js, j ∈ U) :
    (js.foldl push (stack, seen)).1.length + (U.filter (· ∉ (js.foldl push (stack, seen)).2)).length =
      stack.length + (U.filter (· ∉ seen)).length := by
  induction js generalizing stack seen with
  | nil => rfl
  | cons j js ih =>
    have hjs' : ∀ j ∈ js, j ∈ U := fun k hk => hjs k (List.mem_cons_of_mem _ hk)
    rw [List.foldl_cons, push_mk]
    split_ifs with hj
    · exact ih hjs'
    · rw [ih hjs']
      have hmem : j ∈ U.filter (· ∉ seen) := List.mem_filter.2 ⟨hjs j List.mem_cons_self, decide_eq_true hj⟩
      have hfilter : U.filter (· ∉ j :: seen) = (U.filter (· ∉ seen)).erase j := by
        rw [(hU.filter _).erase_eq_filter, List.filter_filter]
        refine List.filter_congr fun x _ => ?_
        simp only [List.mem_cons, not_or, Bool.decide_and, decide_not]
        congr 1
      have hlen := List.length_pos_of_mem hmem
      rw [hfilter, List.length_erase_of_mem hmem, List.length_cons]
      omega

omit [LinearOrder α] in
theorem marked_of_closed (hdone : ∀ u, u ∈ start ∨ u ∈ seen → ∀ v ∈ next u, v ∈ seen) {s : α} (hs : s ∈ start)
    (h : TransGen (fun a b => b ∈ next a) s x) : x ∈ seen := by
  induction h with
  | single h => exact hdone s (Or.inl hs) _ h
  | tail _ h ih => exact hdone _ (Or.inr ih) _ h

theorem mem_reach_from (hU : U.Nodup) (hclosed : ∀ u ∈ U, ∀ v ∈ next u, v ∈ U) (hstack : ∀ u ∈ stack, u ∈ U)
    (hfuel : stack.length + (U.filter (· ∉ seen)).length ≤ fuel)
    (hfrom : ∀ u ∈ stack, ∃ s ∈ start, ReflTransGen (fun a b => b ∈ next a) s u)
    (hseen : ∀ u ∈ seen, ∃ s ∈ start, TransGen (fun a b => b ∈ next a) s u)
    (hdone : ∀ u, u ∈ start ∨ u ∈ seen → u ∈ stack ∨ ∀ v ∈ next u, v ∈ seen) (x : α) :
    x ∈ reach next fuel stack seen ↔ ∃ s ∈ start, TransGen (fun a b => b ∈ next a) s x := by
  induction fuel generalizing stack seen with
  | zero =>
    obtain rfl : stack = [] := List.length_eq_zero_iff.1 (by omega)
    exact ⟨hseen x, fun ⟨s, hs, h⟩ => marked_of_closed (fun u hu => (hdone u hu).resolve_left List.not_mem_nil) hs h⟩
  | succ fuel ih =>
    cases stack with
    | nil =>
      exact ⟨hseen x, fun ⟨s, hs, h⟩ => marked_of_closed (fun u hu => (hdone u hu).resolve_left List.not_mem_nil) hs h⟩
    | cons n stack =>
      have hn := hstack n List.mem_cons_self
      have hlen : ((next n).foldl push (stack, seen)).1.length +
          (U.filter (· ∉ ((next n).foldl push (stack, seen)).2)).length = stack.length + (U.filter (· ∉ seen)).length :=
        length_pushes hU (hclosed n hn)
      obtain ⟨s, hs, hsn⟩ := hfrom n List.mem_cons_self
      have hnext : ∀ v ∈ next n, TransGen (fun a b => b ∈ next a) s v := fun v hv => TransGen.tail' hsn hv
      have hstack' : ∀ u ∈ ((next n).foldl push (stack, seen)).1, u ∈ U := fun u hu =>
        (mem_pushes_stack hu).elim (fun h => hstack u (List.mem_cons_of_mem _ h)) (hclosed n hn u)
      have hfrom' : ∀ u ∈ ((next n).foldl push (stack, seen)).1,
          ∃ s ∈ start, ReflTransGen (fun a b => b ∈ next a) s u := fun u hu =>
        (mem_pushes_stack hu).elim (fun h => hfrom u (List.mem_cons_of_mem _ h))
          (fun h => ⟨s, hs, (hnext u h).to_reflTransGen⟩)
      have hseen' : ∀ u ∈ ((next n).foldl push (stack, seen)).2, ∃ s ∈ start, TransGen (fun a b => b ∈ next a) s u :=
        fun u hu => (mem_pushes_seen.1 hu).elim (hseen u) (fun h => ⟨s, hs, hnext u h⟩)
      have hdone' : ∀ u, u ∈ start ∨ u ∈ ((next n).foldl push (stack, seen)).2 →
          u ∈ ((next n).foldl push (stack, seen)).1 ∨ ∀ v ∈ next u, v ∈ ((next n).foldl push (stack, seen)).2 := by
        intro u hu
        by_cases hfresh : u ∈ next n ∧ u ∉ seen
        · exact Or.inl (pushes_stack (Or.inr hfresh))
        · have hold : u ∈ start ∨ u ∈ seen := hu.imp id fun h =>
            (mem_pushes_seen.1 h).elim id fun h => by_contra fun hns => hfresh ⟨h, hns⟩
          rcases hdone u hold with hmem | hall
          · rcases List.mem_cons.1 hmem with rfl | hmem
            · exact Or.inr fun v hv => mem_pushes_seen.2 (Or.inr hv)
            · exact Or.inl (pushes_stack (Or.inl hmem))
          · exact Or.inr fun v hv => mem_pushes_seen.2 (Or.inl (hall v hv))
      have hfuel' : ((next n).foldl push (stack, seen)).1.length +
          (U.filter (· ∉ ((next n).foldl push (stack, seen)).2)).length ≤ fuel := by
        rw [List.length_cons] at hfuel
        omega
      exact ih hstack' hfuel' hfrom' hseen' hdone'

theorem mem_reach (hU : U.Nodup) (hclosed : ∀ u ∈ U, ∀ v ∈ next u, v ∈ U) (hstart : ∀ u ∈ start, u ∈ U)
    (hfuel : start.length + U.length ≤ fuel) (x : α) :
    x ∈ reach next fuel start.reverse [] ↔ ∃ s ∈ start, TransGen (fun a b => b ∈ next a) s x := by
  refine mem_reach_from hU hclosed (fun u hu => hstart u (List.mem_reverse.1 hu)) ?_
    (fun u hu => ⟨u, List.mem_reverse.1 hu, .refl⟩) (fun u hu => absurd hu List.not_mem_nil) (fun u hu => ?_) x
  · simpa using hfuel
  · exact Or.inl (List.mem_reverse.2 (hu.resolve_right List.not_mem_nil))

end Reach

end SovereignCore.Topo
