import Mathlib

/-!
# Worklist searches on a finite graph

The two breadth-first loops of a dependency graph, over any vertex type with a successor list, and what they compute.
Both carry a fuel argument; `load` and `room` are the measures that make it sufficient.

* `visit` : pops a vertex, drops it when it was seen or is skipped, else lists it and pushes its successors.
  `mem_visit` : it lists exactly the vertices reachable without stepping on a skipped one;
* `findPath` : marks on push, keeps parent links, stops at a target. `findPath_none` : it gives up only on a target
  that is out of reach; `findPath_some` : the links it answers with lead back to the start;
* `Acyclic` : no vertex reaches itself; `Acyclic.addEdge` : a new edge whose head does not reach its tail keeps that.
-/

namespace SovereignCore.Search

open Relation

variable {α : Type} [DecidableEq α]

/-! ## Visiting a closure -/

/-- Breadth-first listing from the queue: a vertex is marked when it is popped. -/
def visit (next : α → List α) (skip : α → Bool) : Nat → List α → List α → List α
  | 0, _, _ => []
  | _ + 1, [], _ => []
  | fuel + 1, n :: q, seen =>
    if n ∈ seen then visit next skip fuel q seen
    else if skip n then visit next skip fuel q (n :: seen)
    else n :: visit next skip fuel (q ++ next n) (n :: seen)

/-- The pops still to come: what is queued, and the successors of what is not yet marked. -/
def load (next : α → List α) (U q seen : List α) : Nat :=
  q.length + ((U.filter (· ∉ seen)).map fun u => (next u).length).sum

variable {next : α → List α} {skip : α → Bool} {U q seen : List α} {fuel : Nat} {n d x : α}

theorem sum_filter_mark_le (f : α → Nat) (U seen : List α) (n : α) :
    ((U.filter (· ∉ n :: seen)).map f).sum ≤ ((U.filter (· ∉ seen)).map f).sum := by
  induction U with
  | nil => simp
  | cons u U ih =>
    by_cases hu : u ∈ seen
    · simpa [hu] using ih
    · by_cases hn : u = n
      · subst hn
        simp only [List.filter_cons, hu, List.mem_cons_self, not_true_eq_false, not_false_eq_true, decide_true,
          decide_false, if_true, List.map_cons, List.sum_cons] at *
        exact le_trans ih (Nat.le_add_left _ _)
      · simp only [List.filter_cons, hu, hn, List.mem_cons, or_self, not_false_eq_true, decide_true, if_true,
          List.map_cons, List.sum_cons] at *
        omega

theorem sum_filter_mark (f : α → Nat) (hn : n ∈ U) (hs : n ∉ seen) :
    ((U.filter (· ∉ n :: seen)).map f).sum + f n ≤ ((U.filter (· ∉ seen)).map f).sum := by
  induction U with
  | nil => simp at hn
  | cons u U ih =>
    by_cases hu : u = n
    · subst hu
      have hle := sum_filter_mark_le f U seen u
      have hd : (u :: U).filter (· ∉ u :: seen) = U.filter (· ∉ u :: seen) := by simp
      have hk : (u :: U).filter (· ∉ seen) = u :: U.filter (· ∉ seen) := by simp [hs]
      rw [hd, hk, List.map_cons, List.sum_cons]
      omega
    · have hU : n ∈ U := by
        rcases List.mem_cons.1 hn with h | h
        · exact absurd h.symm hu
        · exact h
      have hle := ih hU
      by_cases hus : u ∈ seen
      · have hd : (u :: U).filter (· ∉ n :: seen) = U.filter (· ∉ n :: seen) := by simp [hus]
        have hk : (u :: U).filter (· ∉ seen) = U.filter (· ∉ seen) := by simp [hus]
        rw [hd, hk]
        exact hle
      · have hd : (u :: U).filter (· ∉ n :: seen) = u :: U.filter (· ∉ n :: seen) := by simp [hus, hu]
        have hk : (u :: U).filter (· ∉ seen) = u :: U.filter (· ∉ seen) := by simp [hus]
        rw [hd, hk, List.map_cons, List.map_cons, List.sum_cons, List.sum_cons]
        omega

theorem load_skip (h : load next U (n :: q) seen ≤ fuel + 1) : load next U q (n :: seen) ≤ fuel := by
  have := sum_filter_mark_le (fun u => (next u).length) U seen n
  simp only [load, List.length_cons] at *
  omega

theorem load_expand (hn : n ∈ U) (hs : n ∉ seen) (h : load next U (n :: q) seen ≤ fuel + 1) :
    load next U (q ++ next n) (n :: seen) ≤ fuel := by
  have := sum_filter_mark (U := U) (fun u => (next u).length) hn hs
  simp only [load, List.length_cons, List.length_append] at *
  omega

theorem load_pop : load next U q (n :: seen) < load next U (n :: q) seen := by
  have := sum_filter_mark_le (fun u => (next u).length) U seen n
  simp only [load, List.length_cons]
  omega

/-- A vertex that is popped and marked, with its successors on top of a stack. -/
theorem load_push (hn : n ∈ U) (hs : n ∉ seen) : load next U (next n ++ q) (n :: seen) < load next U (n :: q) seen := by
  have := sum_filter_mark (U := U) (fun u => (next u).length) hn hs
  simp only [load, List.length_cons, List.length_append]
  omega

/-- With enough fuel the listing is closed: what is queued or next to a listed vertex is marked, skipped or listed. -/
theorem visit_closed (skip : α → Bool) (hU : ∀ u ∈ U, ∀ v ∈ next u, v ∈ U) (hq : ∀ v ∈ q, v ∈ U) (hf : load next U q seen ≤ fuel) :
    (∀ v ∈ q, v ∈ seen ∨ skip v = true ∨ v ∈ visit next skip fuel q seen) ∧
    (∀ u ∈ visit next skip fuel q seen, ∀ v ∈ next u,
      v ∈ seen ∨ skip v = true ∨ v ∈ visit next skip fuel q seen) := by
  induction fuel generalizing q seen with
  | zero =>
    have : q = [] := List.length_eq_zero_iff.1 (by unfold load at hf; omega)
    subst this
    simp [visit]
  | succ fuel ih =>
    cases q with
    | nil => simp [visit]
    | cons n q =>
      have hn := hq n (by simp)
      have hq' : ∀ v ∈ q, v ∈ U := fun v hv => hq v (by simp [hv])
      by_cases hs : n ∈ seen
      · have hload : load next U q seen ≤ fuel := by simp only [load, List.length_cons] at *; omega
        obtain ⟨h1, h2⟩ := ih hq' hload
        rw [visit, if_pos hs]
        refine ⟨fun v hv => ?_, h2⟩
        rcases List.mem_cons.1 hv with rfl | hv
        · exact Or.inl hs
        · exact h1 v hv
      · by_cases hk : skip n = true
        · obtain ⟨h1, h2⟩ := ih hq' (load_skip hf)
          rw [visit, if_neg hs, if_pos hk]
          have hmark : ∀ v, v ∈ n :: seen ∨ skip v = true ∨ v ∈ visit next skip fuel q (n :: seen) →
              v ∈ seen ∨ skip v = true ∨ v ∈ visit next skip fuel q (n :: seen) := by
            intro v hv
            rcases hv with hv | hv
            · rcases List.mem_cons.1 hv with rfl | hv
              · exact Or.inr (Or.inl hk)
              · exact Or.inl hv
            · exact Or.inr hv
          refine ⟨fun v hv => ?_, fun u hu v hv => hmark v (h2 u hu v hv)⟩
          rcases List.mem_cons.1 hv with rfl | hv
          · exact Or.inr (Or.inl hk)
          · exact hmark v (h1 v hv)
        · have hq2 : ∀ v ∈ q ++ next n, v ∈ U := by
            intro v hv
            rcases List.mem_append.1 hv with hv | hv
            · exact hq' v hv
            · exact hU n hn v hv
          obtain ⟨h1, h2⟩ := ih hq2 (load_expand hn hs hf)
          rw [visit, if_neg hs, if_neg hk]
          have hmark : ∀ v, v ∈ n :: seen ∨ skip v = true ∨ v ∈ visit next skip fuel (q ++ next n) (n :: seen) →
              v ∈ seen ∨ skip v = true ∨ v ∈ n :: visit next skip fuel (q ++ next n) (n :: seen) := by
            intro v hv
            simp only [List.mem_cons] at *
            tauto
          refine ⟨fun v hv => ?_, fun u hu v hv => hmark v ?_⟩
          · rcases List.mem_cons.1 hv with rfl | hv
            · exact Or.inr (Or.inr (by simp))
            · exact hmark v (h1 v (by simp [hv]))
          · rcases List.mem_cons.1 hu with rfl | hu
            · exact h1 v (by simp [hv])
            · exact h2 u hu v hv

def Onward (next : α → List α) (skip : α → Bool) (x y : α) : Prop :=
  y ∈ next x ∧ skip y = false

theorem visit_sound (h : d ∈ visit next skip fuel q seen) :
    ∃ x ∈ q, skip x = false ∧ ReflTransGen (Onward next skip) x d := by
  induction fuel generalizing q seen with
  | zero => simp [visit] at h
  | succ fuel ih =>
    cases q with
    | nil => simp [visit] at h
    | cons n q =>
      have lift : ∀ {s}, d ∈ visit next skip fuel q s →
          ∃ x ∈ n :: q, skip x = false ∧ ReflTransGen (Onward next skip) x d := by
        intro s hd
        obtain ⟨x, hx, hr⟩ := ih hd
        exact ⟨x, by simp [hx], hr⟩
      rw [visit] at h
      split at h
      · exact lift h
      · split at h
        · exact lift h
        · rename_i hk
          have hk' : skip n = false := by simpa using hk
          rcases List.mem_cons.1 h with rfl | h
          · exact ⟨d, by simp, hk', ReflTransGen.refl⟩
          · obtain ⟨x, hx, hsk, hr⟩ := ih h
            rcases List.mem_append.1 hx with hx | hx
            · exact ⟨x, by simp [hx], hsk, hr⟩
            · exact ⟨n, by simp, hk', ReflTransGen.head ⟨hx, hsk⟩ hr⟩

/-- The listing started at the successors of `x` is what `x` reaches without stepping on a skipped vertex. -/
theorem mem_visit (hU : ∀ u ∈ U, ∀ v ∈ next u, v ∈ U) (hx : ∀ v ∈ next x, v ∈ U)
    (hf : load next U (next x) [] ≤ fuel) :
    d ∈ visit next skip fuel (next x) [] ↔ TransGen (Onward next skip) x d := by
  obtain ⟨h1, h2⟩ := visit_closed skip hU hx hf
  constructor
  · intro h
    obtain ⟨y, hy, hsk, hr⟩ := visit_sound h
    exact TransGen.head' ⟨hy, hsk⟩ hr
  · intro h
    induction h with
    | single hd =>
      rcases h1 _ hd.1 with h | h | h
      · simp at h
      · simp [hd.2] at h
      · exact h
    | tail _ hd ih =>
      rcases h2 _ ih _ hd.1 with h | h | h
      · simp at h
      · simp [hd.2] at h
      · exact h

theorem visit_disjoint (h : d ∈ visit next skip fuel q seen) : d ∉ seen := by
  induction fuel generalizing q seen with
  | zero => simp [visit] at h
  | succ fuel ih =>
    cases q with
    | nil => simp [visit] at h
    | cons n q =>
      rw [visit] at h
      split at h
      · exact ih h
      · split at h
        · exact fun hd => ih h (List.mem_cons_of_mem _ hd)
        · rcases List.mem_cons.1 h with rfl | h
          · assumption
          · exact fun hd => ih h (List.mem_cons_of_mem _ hd)

theorem visit_nodup : (visit next skip fuel q seen).Nodup := by
  induction fuel generalizing q seen with
  | zero => simp [visit]
  | succ fuel ih =>
    cases q with
    | nil => simp [visit]
    | cons n q =>
      rw [visit]
      split
      · exact ih
      · split
        · exact ih
        · exact List.nodup_cons.2 ⟨fun h => visit_disjoint h (by simp), ih⟩

/-! ## Searching for a target -/

/-- Breadth-first search for `target`: a vertex is marked when it is pushed, and its parent is remembered. The
answer is the parent links at the moment the target is popped. -/
def findPath (next : α → List α) (target : α) : Nat → List α → List α → List (α × α) → Option (List (α × α))
  | 0, _, _, _ => none
  | _ + 1, [], _, _ => none
  | fuel + 1, n :: q, seen, parent =>
    if n = target then some parent
    else
      let fresh := (next n).filter (· ∉ seen)
      findPath next target fuel (q ++ fresh) (seen ++ fresh) (parent ++ fresh.map fun c => (c, n))

/-- Follow the parent links from `cur`, at most `fuel` of them. -/
def trail (parent : List (α × α)) : Nat → α → List α
  | 0, _ => []
  | fuel + 1, cur =>
    match parent.lookup cur with
    | some p => p :: trail parent fuel p
    | none => []

def room (U q seen : List α) : Nat := q.length + (U.filter (· ∉ seen)).length

theorem room_expand (hU : U.Nodup) (hn : (next n).Nodup) (hsub : ∀ v ∈ next n, v ∈ U)
    (h : room U (n :: q) seen ≤ fuel + 1) :
    room U (q ++ (next n).filter (· ∉ seen)) (seen ++ (next n).filter (· ∉ seen)) ≤ fuel := by
  set fresh := (next n).filter (· ∉ seen) with hfresh
  -- the vertices that were unmarked are the fresh ones and those that stay unmarked
  have hsplit : (fresh ++ U.filter (· ∉ seen ++ fresh)).length ≤ (U.filter (· ∉ seen)).length := by
    have hnd : (fresh ++ U.filter (· ∉ seen ++ fresh)).Nodup := by
      refine List.Nodup.append (hn.filter _) (hU.filter _) ?_
      intro v hv hv'
      simp only [List.mem_filter, List.mem_append, not_or, decide_eq_true_eq] at hv'
      exact hv'.2.2 hv
    refine (List.subperm_of_subset hnd ?_).length_le
    intro v hv
    rcases List.mem_append.1 hv with hv | hv
    · simp only [hfresh, List.mem_filter, decide_eq_true_eq] at hv
      exact List.mem_filter.2 ⟨hsub v hv.1, by simpa using hv.2⟩
    · simp only [List.mem_filter, List.mem_append, not_or, decide_eq_true_eq] at hv
      exact List.mem_filter.2 ⟨hv.1, by simpa using hv.2.1⟩
  simp only [room, List.length_cons, List.length_append] at *
  omega

/-- A search that gives up leaves a closed set around its start that the target is not in. -/
theorem findPath_none_closed {target : α} {parent : List (α × α)} (hU : U.Nodup) (hnd : ∀ u ∈ U, (next u).Nodup)
    (hsub : ∀ u ∈ U, ∀ v ∈ next u, v ∈ U) (hseen : ∀ v ∈ seen, v ∈ U) (hq : ∀ v ∈ q, v ∈ seen)
    (hinv : ∀ u ∈ seen, u ∈ q ∨ (u ≠ target ∧ ∀ v ∈ next u, v ∈ seen)) (hf : room U q seen ≤ fuel)
    (h : findPath next target fuel q seen parent = none) :
    ∃ S : Set α, (∀ v ∈ seen, v ∈ S) ∧ target ∉ S ∧ ∀ u ∈ S, ∀ v ∈ next u, v ∈ S := by
  have finished : q = [] → ∃ S : Set α, (∀ v ∈ seen, v ∈ S) ∧ target ∉ S ∧ ∀ u ∈ S, ∀ v ∈ next u, v ∈ S := by
    intro hq0
    subst hq0
    refine ⟨{v | v ∈ seen}, fun v hv => hv, fun ht => ?_, fun u hu v hv => ?_⟩
    · rcases hinv target ht with h | h
      · simp at h
      · exact h.1 rfl
    · rcases hinv u hu with h | h
      · simp at h
      · exact h.2 v hv
  induction fuel generalizing q seen parent with
  | zero => exact finished (List.length_eq_zero_iff.1 (by unfold room at hf; omega))
  | succ fuel ih =>
    cases q with
    | nil => exact finished rfl
    | cons n q =>
      have hn : n ∈ seen := hq n (by simp)
      rw [findPath] at h
      split at h
      · simp at h
      · rename_i hne
        set fresh := (next n).filter (· ∉ seen) with hfresh
        have hnext : ∀ v ∈ next n, v ∈ seen ++ fresh := by
          intro v hv
          by_cases hs : v ∈ seen
          · simp [hs]
          · exact List.mem_append.2 (Or.inr (List.mem_filter.2 ⟨hv, by simpa using hs⟩))
        have hinv' : ∀ u ∈ seen ++ fresh, u ∈ q ++ fresh ∨ (u ≠ target ∧ ∀ v ∈ next u, v ∈ seen ++ fresh) := by
          intro u hu
          rcases List.mem_append.1 hu with hu | hu
          · rcases hinv u hu with h | h
            · rcases List.mem_cons.1 h with rfl | h
              · exact Or.inr ⟨hne, hnext⟩
              · exact Or.inl (by simp [h])
            · exact Or.inr ⟨h.1, fun v hv => by simp [h.2 v hv]⟩
          · exact Or.inl (by simp [hu])
        have hseen' : ∀ v ∈ seen ++ fresh, v ∈ U := by
          intro v hv
          rcases List.mem_append.1 hv with hv | hv
          · exact hseen v hv
          · exact hsub n (hseen n hn) v (List.mem_filter.1 hv).1
        have hq' : ∀ v ∈ q ++ fresh, v ∈ seen ++ fresh := by
          intro v hv
          rcases List.mem_append.1 hv with hv | hv
          · simp [hq v (by simp [hv])]
          · simp [hv]
        have hroom := room_expand hU (hnd n (hseen n hn)) (hsub n (hseen n hn)) hf
        obtain ⟨S, hS, hrest⟩ := ih hseen' hq' hinv' hroom h (fun hq0 => by
          refine ⟨{v | v ∈ seen ++ fresh}, fun v hv => hv, fun ht => ?_, fun u hu v hv => ?_⟩
          · rcases hinv' target ht with h | h
            · rw [hq0] at h; simp at h
            · exact h.1 rfl
          · rcases hinv' u hu with h | h
            · rw [hq0] at h; simp at h
            · exact h.2 v hv)
        exact ⟨S, fun v hv => hS v (by simp [hv]), hrest⟩

/-- **The search is complete.** From one start, with fuel for every vertex, giving up means the target is out of
reach. -/
theorem findPath_none {target start : α} (hU : U.Nodup) (hnd : ∀ u ∈ U, (next u).Nodup)
    (hsub : ∀ u ∈ U, ∀ v ∈ next u, v ∈ U) (hstart : start ∈ U) (hf : U.length ≤ fuel)
    (h : findPath next target fuel [start] [start] [] = none) :
    ¬ ReflTransGen (fun x y => y ∈ next x) start target := by
  have hroom : room U [start] [start] ≤ fuel := by
    have hlt : (U.filter (· ∉ [start])).length < U.length := by
      refine List.length_filter_lt_length_iff_exists.2 ⟨start, hstart, by simp⟩
    simp only [room, List.length_cons, List.length_nil]
    omega
  obtain ⟨S, hS, ht, hclosed⟩ := findPath_none_closed hU hnd hsub (by simpa using hstart) (by simp)
    (fun u hu => Or.inl hu) hroom h
  intro hr
  have hmem : target ∈ S := by
    clear ht h
    induction hr with
    | refl => exact hS start (by simp)
    | tail _ hv ih => exact hclosed _ ih _ hv
  exact ht hmem

/-! ## The path of a search -/

/-- Parent links of a search: each new vertex is a successor of its parent, which was found before it. -/
inductive Linked (next : α → List α) (start : α) : List (α × α) → Prop
  | nil : Linked next start []
  | snoc {links : List (α × α)} {c n : α} (h : Linked next start links) (hn : n ∈ start :: links.map Prod.fst)
      (hc : c ∈ next n) (hnew : c ∉ start :: links.map Prod.fst) : Linked next start (links ++ [(c, n)])

variable {start target : α} {links parent : List (α × α)}

theorem lookup_snoc_of_ne {c : α} (h : x ≠ c) : (links ++ [(c, n)]).lookup x = links.lookup x := by
  rw [List.lookup_append]
  have hnone : List.lookup x [(c, n)] = none := by
    rw [List.lookup_cons, beq_false_of_ne h]
    rfl
  rw [hnone, Option.or_none]

theorem lookup_snoc_self {c : α} (h : c ∉ links.map Prod.fst) : (links ++ [(c, n)]).lookup c = some n := by
  have hnone : links.lookup c = none := by
    rw [List.lookup_eq_none_iff]
    intro e he
    rw [bne_iff_ne]
    rintro rfl
    exact h (List.mem_map_of_mem he)
  rw [List.lookup_append, hnone, Option.none_or, List.lookup_cons, beq_self_eq_true]

theorem Linked.parent_mem (h : Linked next start links) (hl : links.lookup x = some n) : n ∈ start :: links.map Prod.fst := by
  induction h with
  | nil => cases hl
  | @snoc links c m hlinks hm hc hnew ih =>
    rw [List.map_append, ← List.cons_append]
    by_cases hx : x = c
    · subst hx
      rw [lookup_snoc_self fun hmem => hnew (List.mem_cons_of_mem _ hmem)] at hl
      cases hl
      exact List.mem_append_left _ hm
    · rw [lookup_snoc_of_ne hx] at hl
      exact List.mem_append_left _ (ih hl)

theorem trail_snoc {c : α} (h : Linked next start links) (hnew : c ∉ start :: links.map Prod.fst) :
    ∀ (fuel : Nat) {x : α}, x ∈ start :: links.map Prod.fst → trail (links ++ [(c, n)]) fuel x = trail links fuel x
  | 0, _, _ => rfl
  | fuel + 1, x, hx => by
    have hne : x ≠ c := fun he => hnew (he ▸ hx)
    unfold trail
    rw [lookup_snoc_of_ne hne]
    cases hl : links.lookup x with
    | none => rfl
    | some p => exact congrArg (p :: ·) (trail_snoc h hnew fuel (h.parent_mem hl))

theorem Linked.trail_chain (h : Linked next start links) : ∀ {fuel : Nat}, links.length ≤ fuel →
    ∀ {x : α}, x ∈ start :: links.map Prod.fst →
      (x :: trail links fuel x).IsChain (fun a b => a ∈ next b) ∧ (x :: trail links fuel x).getLast? = some start := by
  induction h with
  | nil =>
    intro fuel _ x hx
    rw [List.map_nil, List.mem_singleton] at hx
    subst hx
    cases fuel with
    | zero => exact ⟨List.isChain_singleton _, rfl⟩
    | succ fuel => exact ⟨List.isChain_singleton _, rfl⟩
  | @snoc links c n hlinks hn hc hnew ih =>
    intro fuel hfuel x hx
    rw [List.length_append, List.length_singleton] at hfuel
    by_cases hxc : x = c
    · subst hxc
      cases fuel with
      | zero => omega
      | succ fuel =>
        obtain ⟨hchain, hlast⟩ := ih (Nat.le_of_succ_le_succ hfuel) hn
        have htrail : trail (links ++ [(x, n)]) (fuel + 1) x = n :: trail links fuel n := by
          rw [trail, lookup_snoc_self fun hmem => hnew (List.mem_cons_of_mem _ hmem)]
          exact congrArg (n :: ·) (trail_snoc hlinks hnew fuel hn)
        rw [htrail]
        exact ⟨List.isChain_cons_cons.2 ⟨hc, hchain⟩, hlast⟩
    · have hold : x ∈ start :: links.map Prod.fst := by
        rw [List.map_append, ← List.cons_append, List.mem_append] at hx
        exact hx.resolve_right fun hx => hxc (List.mem_singleton.1 hx)
      rw [trail_snoc hlinks hnew fuel hold]
      exact ih (by omega) hold

omit [DecidableEq α] in
theorem Linked.append_fresh {fresh : List α} (h : Linked next start links) (hn : n ∈ start :: links.map Prod.fst)
    (hnd : fresh.Nodup) (hfresh : ∀ c ∈ fresh, c ∈ next n ∧ c ∉ start :: links.map Prod.fst) :
    Linked next start (links ++ fresh.map fun c => (c, n)) := by
  induction fresh generalizing links with
  | nil =>
    rw [List.map_nil, List.append_nil]
    exact h
  | cons c fresh ih =>
    obtain ⟨hc, hnew⟩ := hfresh c List.mem_cons_self
    obtain ⟨hcf, hnd⟩ := List.nodup_cons.1 hnd
    rw [List.map_cons, List.append_cons]
    refine ih (h.snoc hn hc hnew) ?_ hnd fun d hd => ⟨(hfresh d (List.mem_cons_of_mem _ hd)).1, ?_⟩
    · rw [List.map_append, ← List.cons_append]
      exact List.mem_append_left _ hn
    · rw [List.map_append, ← List.cons_append, List.mem_append, not_or]
      refine ⟨(hfresh d (List.mem_cons_of_mem _ hd)).2, fun hmem => hcf ?_⟩
      rw [List.map_singleton, List.mem_singleton] at hmem
      rw [show c = d from hmem.symm]
      exact hd

/-- The links at the end of a search are linked, and the target was found. -/
theorem findPath_linked (hnd : ∀ u, (next u).Nodup) {links' : List (α × α)} :
    ∀ {fuel : Nat} {q seen : List α} {links : List (α × α)}, Linked next start links →
      seen = start :: links.map Prod.fst → (∀ v ∈ q, v ∈ seen) →
      findPath next target fuel q seen links = some links' →
        Linked next start links' ∧ target ∈ start :: links'.map Prod.fst
  | 0, _, _, _, _, _, _, h => nomatch h
  | _ + 1, [], _, _, _, _, _, h => nomatch h
  | fuel + 1, n :: q, seen, links, hl, hseen, hq, h => by
    have hn : n ∈ seen := hq n List.mem_cons_self
    unfold findPath at h
    split_ifs at h with ht
    · cases h
      rw [← hseen, ← ht]
      exact ⟨hl, hn⟩
    · refine findPath_linked hnd (hl.append_fresh (hseen ▸ hn) ((hnd n).filter _) fun c hc => ?_) ?_ ?_ h
      · obtain ⟨hc, hnew⟩ := List.mem_filter.1 hc
        rw [← hseen]
        exact ⟨hc, of_decide_eq_true hnew⟩
      · rw [hseen, List.map_append, List.map_map]
        have hid : (Prod.fst ∘ fun c : α => (c, n)) = id := rfl
        rw [hid, List.map_id, List.cons_append]
      · intro v hv
        rcases List.mem_append.1 hv with hv | hv
        · exact List.mem_append_left _ (hq v (List.mem_cons_of_mem _ hv))
        · exact List.mem_append_right _ hv

/-- **The search is sound**: the trail of its answer, turned round, is a path from the start to the target. -/
theorem findPath_some (hnd : ∀ u, (next u).Nodup) (h : findPath next target fuel [start] [start] [] = some links) :
    (target :: trail links links.length target).reverse.IsChain (fun a b => b ∈ next a) ∧
      (target :: trail links links.length target).reverse.head? = some start := by
  obtain ⟨hl, ht⟩ := findPath_linked hnd .nil rfl (fun v hv => hv) h
  obtain ⟨hchain, hlast⟩ := hl.trail_chain (Nat.le_refl _) ht
  rw [List.isChain_reverse, List.head?_reverse]
  exact ⟨hchain, hlast⟩

/-! ## Acyclic relations -/

def Acyclic {α : Type} (r : α → α → Prop) : Prop := ∀ x, ¬ TransGen r x x

section Acyclic
variable {α : Type} {r r' : α → α → Prop} {p c x y : α}

theorem Acyclic.mono (h : Acyclic r) (hr : ∀ x y, r' x y → r x y) : Acyclic r' :=
  fun x hx => h x (TransGen.mono hr x x hx)

/-- A path that may use one more edge either does not use it, or enters it last at `p` and leaves it at `c`. -/
theorem transGen_addEdge (hr : ∀ x y, r' x y → r x y ∨ (x = p ∧ y = c)) (h : TransGen r' x y) :
    TransGen r x y ∨ (ReflTransGen r x p ∧ ReflTransGen r c y) ∨ ReflTransGen r c p := by
  induction h with
  | single hxy =>
    rcases hr _ _ hxy with h | ⟨rfl, rfl⟩
    · exact Or.inl (TransGen.single h)
    · exact Or.inr (Or.inl ⟨ReflTransGen.refl, ReflTransGen.refl⟩)
  | tail _ hyz ih =>
    rcases hr _ _ hyz with h | ⟨rfl, rfl⟩
    · rcases ih with ih | ⟨h1, h2⟩ | ih
      · exact Or.inl (ih.tail h)
      · exact Or.inr (Or.inl ⟨h1, h2.tail h⟩)
      · exact Or.inr (Or.inr ih)
    · rcases ih with ih | ⟨_, h2⟩ | ih
      · exact Or.inr (Or.inl ⟨ih.to_reflTransGen, ReflTransGen.refl⟩)
      · exact Or.inr (Or.inr h2)
      · exact Or.inr (Or.inr ih)

theorem Acyclic.addEdge (h : Acyclic r) (hr : ∀ x y, r' x y → r x y ∨ (x = p ∧ y = c))
    (hpc : ¬ ReflTransGen r c p) : Acyclic r' := by
  intro x hx
  rcases transGen_addEdge hr hx with hx | ⟨h1, h2⟩ | h1
  · exact h x hx
  · exact hpc (h2.trans h1)
  · exact hpc h1

theorem transGen_of_chain : ∀ {l : List α} {x y : α}, (x :: l).IsChain r → l ≠ [] →
    (x :: l).getLast? = some y → TransGen r x y
  | [], _, _, _, hne, _ => absurd rfl hne
  | [z], x, y, h, _, hlast => by
    obtain rfl : z = y := Option.some.inj hlast
    exact .single (List.isChain_cons_cons.1 h).1
  | z :: w :: l, x, y, h, _, hlast => by
    obtain ⟨hxz, hrest⟩ := List.isChain_cons_cons.1 h
    exact .head hxz (transGen_of_chain hrest (List.cons_ne_nil _ _) hlast)

end Acyclic

end SovereignCore.Search
