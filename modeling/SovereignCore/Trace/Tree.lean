import SovereignCore.Lib.Reach
import SovereignCore.Lib.Result
import SovereignCore.Lib.Table
import SovereignCore.Trace.Sink
import Mathlib.Data.List.Sort

/-!
# Putting a trace back together

`reconstruct` builds the tree of one trace from its events, in any order. It looks up each parent among the events, and
does not look for cycles among them.

* `Tree`, `reconstruct` : the tree and its construction;
* `reconstruct_spec` : what the roots, the children and the events of the result are;
* `Forest`, `forest_iff` : everything hangs from the roots exactly when no event is its own ancestor.
-/

namespace SovereignCore.Trace

open Std Relation

/-- The errors of `reconstruct`. -/
inductive TraceError
  | missingParent (eventId parent : UInt64)
  | mixedTraceIds
  | duplicateEvent (eventId : UInt64)
  | empty
  deriving DecidableEq, Repr

/-- Parent/child tree of one trace. -/
structure Tree where
  events : List TraceEvent
  children : ExtTreeMap UInt64 (List UInt64)
  roots : List UInt64

namespace Tree

/-- Event ids whose parent is `id`, in event id order. -/
def childrenOf (t : Tree) (id : UInt64) : List UInt64 := t.children[id]?.getD []

def get (t : Tree) (id : UInt64) : Option TraceEvent := t.events.find? fun e => e.eventId == id

end Tree

def sortIds (ids : List UInt64) : List UInt64 := ids.mergeSort fun a b => decide (a ≤ b)

def collectIds (trace : TraceId) : List TraceEvent → List UInt64 → Except TraceError (List UInt64)
  | [], ids => .ok ids
  | e :: es, ids =>
    if e.traceId ≠ trace then .error .mixedTraceIds
    else if e.eventId ∈ ids then .error (.duplicateEvent e.eventId)
    else collectIds trace es (ids ++ [e.eventId])

/-- `children.entry(p).or_default().push(id)`. -/
def pushChild (children : ExtTreeMap UInt64 (List UInt64)) (p id : UInt64) : ExtTreeMap UInt64 (List UInt64) :=
  children.insert p (children[p]?.getD [] ++ [id])

def linkParents (ids : List UInt64) : List TraceEvent → ExtTreeMap UInt64 (List UInt64) → List UInt64 →
    Except TraceError (ExtTreeMap UInt64 (List UInt64) × List UInt64)
  | [], children, roots => .ok (children, roots)
  | e :: es, children, roots =>
    match e.parentEventId with
    | none => linkParents ids es children (roots ++ [e.eventId])
    | some p =>
      if p ∈ ids then linkParents ids es (pushChild children p e.eventId) roots
      else .error (.missingParent e.eventId p)

/-- Builds the tree of one trace. Fails on mixed trace ids, duplicate event ids, or a parent that is not in the set. -/
def reconstruct (events : List TraceEvent) : Except TraceError Tree :=
  match events with
  | [] => .error .empty
  | first :: _ => do
    let ids ← collectIds first.traceId events []
    let (children, roots) ← linkParents ids events ∅ []
    return { events, children := children.map fun _ v => sortIds v, roots := sortIds roots }

/-! ## What the loops compute -/

/-- The ids of the events with a given parent, in the order of the events. -/
def idsUnder (parent : Option UInt64) (events : List TraceEvent) : List UInt64 :=
  (events.filter fun e => e.parentEventId = parent).map TraceEvent.eventId

variable {events : List TraceEvent} {t : Tree}

theorem idsUnder_cons (parent : Option UInt64) (e : TraceEvent) (es : List TraceEvent) :
    idsUnder parent (e :: es) = if e.parentEventId = parent then e.eventId :: idsUnder parent es else idsUnder parent es := by
  unfold idsUnder
  by_cases h : e.parentEventId = parent
  · rw [List.filter_cons_of_pos (by simpa using h), List.map_cons, if_pos h]
  · rw [List.filter_cons_of_neg (by simpa using h), if_neg h]

theorem mem_idsUnder {parent : Option UInt64} {id : UInt64} :
    id ∈ idsUnder parent events ↔ ∃ e ∈ events, e.parentEventId = parent ∧ e.eventId = id := by
  simp [idsUnder, and_assoc]

theorem collectIds_ok {trace : TraceId} {ids got : List UInt64} (h : collectIds trace events ids = .ok got)
    (hids : ids.Nodup) : got = ids ++ events.map TraceEvent.eventId ∧ got.Nodup := by
  induction events generalizing ids with
  | nil =>
    obtain rfl : ids = got := Except.ok.inj h
    exact ⟨by simp, hids⟩
  | cons e es ih =>
    unfold collectIds at h
    split_ifs at h with htrace hdup
    obtain ⟨hgot, hnodup⟩ := ih h (List.concat_eq_append ▸ hids.concat hdup)
    exact ⟨by simp [hgot], hnodup⟩

theorem getD_pushChild (children : ExtTreeMap UInt64 (List UInt64)) (p id q : UInt64) :
    (pushChild children p id)[q]?.getD [] =
      if p = q then children[q]?.getD [] ++ [id] else children[q]?.getD [] := by
  unfold pushChild
  rw [Table.get_insert]
  by_cases h : p = q
  · subst h
    simp
  · simp [h]

/-- The second loop ends only when each parent was found; then each event stands in the list of its parent. -/
theorem linkParents_ok {ids roots roots' : List UInt64} {children children' : ExtTreeMap UInt64 (List UInt64)}
    (h : linkParents ids events children roots = .ok (children', roots')) :
    roots' = roots ++ idsUnder none events ∧
      (∀ p, children'[p]?.getD [] = children[p]?.getD [] ++ idsUnder (some p) events) ∧
      ∀ e ∈ events, ∀ p, e.parentEventId = some p → p ∈ ids := by
  induction events generalizing children roots with
  | nil =>
    obtain ⟨rfl, rfl⟩ := Prod.mk.inj (Except.ok.inj h)
    refine ⟨?_, ?_, ?_⟩
    · simp [idsUnder]
    · simp [idsUnder]
    · simp
  | cons e es ih =>
    unfold linkParents at h
    cases hp : e.parentEventId with
    | none =>
      simp only [hp] at h
      obtain ⟨hroots, hchildren, hfound⟩ := ih h
      refine ⟨?_, ?_, ?_⟩
      · rw [hroots, idsUnder_cons, if_pos hp, List.append_assoc, List.singleton_append]
      · intro p
        rw [hchildren p, idsUnder_cons, if_neg (by simp [hp])]
      · intro e' he' p hp'
        obtain rfl | he' := List.mem_cons.1 he'
        · rw [hp] at hp'
          cases hp'
        · exact hfound e' he' p hp'
    | some q =>
      simp only [hp] at h
      split_ifs at h with hq
      obtain ⟨hroots, hchildren, hfound⟩ := ih h
      refine ⟨?_, ?_, ?_⟩
      · rw [hroots, idsUnder_cons, if_neg (by simp [hp])]
      · intro p
        rw [hchildren p, getD_pushChild, idsUnder_cons, hp]
        by_cases hqp : q = p
        · rw [if_pos hqp, if_pos (congrArg some hqp), List.append_assoc, List.singleton_append]
        · rw [if_neg hqp, if_neg fun hsome => hqp (Option.some.inj hsome)]
      · intro e' he' p hp'
        obtain rfl | he' := List.mem_cons.1 he'
        · rw [hp] at hp'
          exact Option.some.inj hp' ▸ hq
        · exact hfound e' he' p hp'

theorem sortIds_perm (ids : List UInt64) : (sortIds ids).Perm ids := List.mergeSort_perm ids _

/-- What a tree says of the events it was built from. -/
structure Built (events : List TraceEvent) (t : Tree) : Prop where
  kept : t.events = events
  nodup : (events.map TraceEvent.eventId).Nodup
  found : ∀ e ∈ events, ∀ p, e.parentEventId = some p → p ∈ events.map TraceEvent.eventId
  roots : t.roots.Perm (idsUnder none events)
  children : ∀ p, (t.childrenOf p).Perm (idsUnder (some p) events)

theorem reconstruct_spec (h : reconstruct events = .ok t) : Built events t := by
  obtain _ | ⟨first, rest⟩ := events
  · cases h
  obtain ⟨ids, hids, h⟩ := Result.bind_ok.1 h
  obtain ⟨⟨children, roots⟩, hlinks, h⟩ := Result.bind_ok.1 h
  obtain rfl := Except.ok.inj h
  obtain ⟨rfl, hnodup⟩ := collectIds_ok hids List.nodup_nil
  obtain ⟨rfl, hchildren, hfound⟩ := linkParents_ok hlinks
  refine ⟨rfl, hnodup, hfound, sortIds_perm _, fun p => ?_⟩
  have hp : children[p]?.getD [] = idsUnder (some p) (first :: rest) := by simpa using hchildren p
  rw [← hp]
  unfold Tree.childrenOf
  rw [ExtTreeMap.getElem?_map]
  cases children[p]? with
  | none => exact List.Perm.nil
  | some v => exact sortIds_perm v

/-! ## When the result is a forest -/

/-- Event `p` is the parent of event `id`. -/
def ParentOf (events : List TraceEvent) (p id : UInt64) : Prop :=
  ∃ e ∈ events, e.eventId = id ∧ e.parentEventId = some p

/-- `e` is its own ancestor: its parent, the parent of that, and so on lead back to it. -/
def OwnAncestor (events : List TraceEvent) (e : TraceEvent) : Prop :=
  TransGen (ParentOf events) e.eventId e.eventId

/-- All events hang from the roots, and each stands in the tree once: in the list of events, and as a root or a child. -/
structure Forest (events : List TraceEvent) (t : Tree) : Prop where
  reached : ∀ e ∈ events, ∃ r ∈ t.roots, ReflTransGen (fun p id => id ∈ t.childrenOf p) r e.eventId
  listed : t.events = events
  got : ∀ e ∈ events, t.get e.eventId = some e
  once : (t.roots ++ t.events.flatMap fun e => t.childrenOf e.eventId).Perm (events.map TraceEvent.eventId)

namespace Built

theorem eventId_inj (h : Built events t) {e e' : TraceEvent} (he : e ∈ events) (he' : e' ∈ events)
    (heq : e.eventId = e'.eventId) : e = e' :=
  List.inj_on_of_nodup_map h.nodup he he' heq

theorem parentOf_iff (h : Built events t) {p id : UInt64} : ParentOf events p id ↔ id ∈ t.childrenOf p := by
  rw [(h.children p).mem_iff, mem_idsUnder]
  unfold ParentOf
  simp only [and_comm]

theorem parentOf_unique (h : Built events t) {p q id : UInt64} (hp : ParentOf events p id) (hq : ParentOf events q id) :
    p = q := by
  obtain ⟨e, he, rfl, hp⟩ := hp
  obtain ⟨e', he', heq, hq⟩ := hq
  obtain rfl := h.eventId_inj he' he heq
  exact Option.some.inj (hp.symm.trans hq)

theorem parent_mem (h : Built events t) {p id : UInt64} (hp : ParentOf events p id) :
    p ∈ events.map TraceEvent.eventId := by
  obtain ⟨e, he, -, hp⟩ := hp
  exact h.found e he p hp

theorem mem_roots_iff (h : Built events t) {id : UInt64} :
    id ∈ t.roots ↔ id ∈ events.map TraceEvent.eventId ∧ ∀ p, ¬ ParentOf events p id := by
  rw [h.roots.mem_iff, mem_idsUnder, List.mem_map]
  constructor
  · rintro ⟨e, he, hnone, rfl⟩
    refine ⟨⟨e, he, rfl⟩, ?_⟩
    rintro p ⟨e', he', heq, hp⟩
    obtain rfl := h.eventId_inj he' he heq
    rw [hnone] at hp
    cases hp
  · rintro ⟨⟨e, he, rfl⟩, hnot⟩
    refine ⟨e, he, ?_, rfl⟩
    cases hp : e.parentEventId with
    | none => rfl
    | some p => exact absurd ⟨e, he, rfl, hp⟩ (hnot p)

theorem got (h : Built events t) {e : TraceEvent} (he : e ∈ events) : t.get e.eventId = some e := by
  unfold Tree.get
  rw [h.kept]
  obtain ⟨e', hfind⟩ : ∃ e', events.find? (fun x => x.eventId == e.eventId) = some e' :=
    Option.isSome_iff_exists.1 (List.find?_isSome.2 ⟨e, he, beq_self_eq_true _⟩)
  rw [hfind]
  have heq : e'.eventId = e.eventId := by simpa using List.find?_some hfind
  rw [h.eventId_inj (List.mem_of_find?_eq_some hfind) he heq]

theorem placed_nodup (h : Built events t) :
    (t.roots ++ t.events.flatMap fun e => t.childrenOf e.eventId).Nodup := by
  have hunder : ∀ parent, (idsUnder parent events).Nodup := fun parent =>
    h.nodup.sublist (List.filter_sublist.map TraceEvent.eventId)
  rw [List.nodup_append']
  refine ⟨h.roots.nodup_iff.2 (hunder none), ?_, ?_⟩
  · rw [h.kept, List.nodup_flatMap]
    refine ⟨fun e _ => (h.children e.eventId).nodup_iff.2 (hunder _), ?_⟩
    refine List.Pairwise.imp ?_ (List.pairwise_map.1 h.nodup)
    intro e e' hne id hid hid'
    exact hne (h.parentOf_unique (h.parentOf_iff.2 hid) (h.parentOf_iff.2 hid'))
  · intro id hroot hchild
    obtain ⟨e, -, hchild⟩ := List.mem_flatMap.1 hchild
    exact (h.mem_roots_iff.1 hroot).2 e.eventId (h.parentOf_iff.2 hchild)

theorem once (h : Built events t) :
    (t.roots ++ t.events.flatMap fun e => t.childrenOf e.eventId).Perm (events.map TraceEvent.eventId) := by
  rw [List.perm_ext_iff_of_nodup h.placed_nodup h.nodup]
  intro id
  rw [List.mem_append, List.mem_flatMap, h.kept, h.mem_roots_iff]
  constructor
  · rintro (⟨hid, -⟩ | ⟨e, -, hchild⟩)
    · exact hid
    · obtain ⟨e', he', rfl, -⟩ := h.parentOf_iff.2 hchild
      exact List.mem_map_of_mem he'
  · intro hid
    by_cases hroot : ∃ p, ParentOf events p id
    · obtain ⟨p, hp⟩ := hroot
      obtain ⟨e', he', rfl⟩ := List.mem_map.1 (h.parent_mem hp)
      exact Or.inr ⟨e', he', h.parentOf_iff.1 hp⟩
    · exact Or.inl ⟨hid, not_exists.1 hroot⟩

/-- Everything hangs from a root exactly when no event is its own ancestor. -/
theorem reached_iff (h : Built events t) :
    (∀ e ∈ events, ∃ r ∈ t.roots, ReflTransGen (fun p id => id ∈ t.childrenOf p) r e.eventId) ↔
      ∀ e ∈ events, ¬ OwnAncestor events e := by
  have hup : Reach.Closed (Function.swap (ParentOf events)) {id | id ∈ events.map TraceEvent.eventId} := by
    intro id _ p hp
    exact h.parent_mem hp
  have hrooted := Reach.acyclic_iff_rooted (List.finite_toSet _) hup h.parentOf_unique
  have hchild : (fun p id => id ∈ t.childrenOf p) = ParentOf events := by
    funext p id
    exact propext h.parentOf_iff.symm
  rw [hchild]
  constructor
  · intro hreach e he
    refine hrooted.2 ?_ e.eventId (List.mem_map_of_mem he)
    rintro id hid
    obtain ⟨e', he', rfl⟩ := List.mem_map.1 hid
    obtain ⟨r, hr, hpath⟩ := hreach e' he'
    exact ⟨r, (h.mem_roots_iff.1 hr).1, (h.mem_roots_iff.1 hr).2, hpath⟩
  · intro hnone e he
    have hacyclic : Reach.Acyclic (ParentOf events) {id | id ∈ events.map TraceEvent.eventId} := by
      rintro id hid
      obtain ⟨e', he', rfl⟩ := List.mem_map.1 hid
      exact hnone e' he'
    obtain ⟨r, hr, hnot, hpath⟩ := hrooted.1 hacyclic e.eventId (List.mem_map_of_mem he)
    exact ⟨r, h.mem_roots_iff.2 ⟨hr, hnot⟩, hpath⟩

end Built

/-- The tree `reconstruct` returns is a forest of all the events exactly when none of them is its own ancestor. -/
theorem forest_iff (h : reconstruct events = .ok t) : Forest events t ↔ ∀ e ∈ events, ¬ OwnAncestor events e := by
  have hbuilt := reconstruct_spec h
  rw [← hbuilt.reached_iff]
  constructor
  · intro hforest
    exact hforest.reached
  · intro hreach
    exact ⟨hreach, hbuilt.kept, fun _ => hbuilt.got, hbuilt.once⟩

/-- Parents that all have smaller ids than their children: no event is its own ancestor. -/
theorem not_ownAncestor (hlt : ∀ e ∈ events, ∀ p, e.parentEventId = some p → p < e.eventId) (e : TraceEvent) :
    ¬ OwnAncestor events e := by
  have hdown : ∀ {p id}, TransGen (ParentOf events) p id → p < id := by
    intro p id hpath
    induction hpath with
    | single hp =>
      obtain ⟨e, he, rfl, hp⟩ := hp
      exact hlt e he _ hp
    | tail _ hp ih =>
      obtain ⟨e, he, rfl, hp⟩ := hp
      exact UInt64.lt_trans ih (hlt e he _ hp)
  intro hown
  exact UInt64.lt_irrefl _ (hdown hown)

def sampleEvent (id : UInt64) (parent : Option UInt64) : TraceEvent :=
  ⟨7, id, parent, 0, .modelTurn, .ok, none⟩

theorem forest_chain :
    ∃ t, reconstruct [sampleEvent 1 none, sampleEvent 2 (some 1)] = .ok t ∧
      Forest [sampleEvent 1 none, sampleEvent 2 (some 1)] t := by
  have hrun : ∃ t, reconstruct [sampleEvent 1 none, sampleEvent 2 (some 1)] = .ok t := ⟨_, rfl⟩
  obtain ⟨t, ht⟩ := hrun
  refine ⟨t, ht, (forest_iff ht).2 fun e _ => not_ownAncestor ?_ e⟩
  intro e he p hp
  simp only [List.mem_cons, List.not_mem_nil, or_false] at he
  obtain rfl | rfl := he
  · cases hp
  · obtain rfl := Option.some.inj hp
    decide

/-- Two events that name each other as parents are accepted, and hang from nothing. -/
theorem cycle_accepted :
    ∃ t, reconstruct [sampleEvent 1 (some 2), sampleEvent 2 (some 1)] = .ok t ∧ t.roots = [] ∧
      ¬ Forest [sampleEvent 1 (some 2), sampleEvent 2 (some 1)] t := by
  have hrun : ∃ t, reconstruct [sampleEvent 1 (some 2), sampleEvent 2 (some 1)] = .ok t := ⟨_, rfl⟩
  obtain ⟨t, ht⟩ := hrun
  have hroots : t.roots = [] := List.perm_nil.1 (reconstruct_spec ht).roots
  refine ⟨t, ht, hroots, fun hforest => ?_⟩
  obtain ⟨r, hr, -⟩ := hforest.reached (sampleEvent 1 (some 2)) List.mem_cons_self
  rw [hroots] at hr
  exact absurd hr List.not_mem_nil

end SovereignCore.Trace
