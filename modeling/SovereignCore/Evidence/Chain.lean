import SovereignCore.Evidence.Receipt
import SovereignCore.Lib.Reach
import Std.Data.ExtTreeMap
import Mathlib.Data.Set.Finite.Basic

/-!
# The receipt dependency graph

The walk over the receipts that a root receipt depends on (`verify-chain`). A resolver answers for a receipt id with
the receipt and its report; the status of a lease against the store is a parameter too. The walk calls itself along
the dependencies, so it takes fuel.

* `Walker.visit`, `verifyGraph` : the walk and the report of the chain;
* `Dep`, `Below` : dependency steps between ids, and the ids below a root;
* `Fits` : what the walk keeps true;
* `verify_graph_exact` : Pass means exactly that the whole graph below the root is in order;
* `test_trust_kept_out` : when a passing chain keeps test only trust out of every production receipt.
-/

namespace SovereignCore.Evidence

open Text Reach Relation Std

/-- One visited receipt. -/
structure ChainLine where
  id : String
  kind : String
  tier : Tier
  status : Verdict
  depth : Nat
  note : String
  deriving DecidableEq

/-- Report on the reachable graph of one root receipt. -/
structure ChainReport where
  root : String
  status : Verdict
  lines : List ChainLine
  reasons : List String
  deriving DecidableEq

/-- Receipt id to verified receipt plus its report. -/
abbrev Resolver := String → Except String (Receipt × Report)

structure Walker where
  graph : ExtTreeMap String Receipt compare
  visiting : Finset String
  done : Finset String
  lines : List ChainLine
  missing : List String
  failed : List String
  blocked : List String
  cycle : Option String

namespace Walker

def enter (w : Walker) (id : String) : Walker := { w with visiting := insert id w.visiting }

def leave (w : Walker) (id : String) : Walker :=
  { w with visiting := w.visiting.erase id, done := insert id w.done }

def miss (w : Walker) (id : String) (depth : Nat) (e : String) : Walker :=
  { w with
    missing := w.missing ++ [s!"{id}: {e}"]
    lines := w.lines ++ [⟨id, "?", .testOnlyTrust, .incomplete, depth, "MISSING"⟩] }

def noteLease (w : Walker) (id : String) (lease : Option Report) : Walker :=
  match lease with
  | none => w
  | some lease =>
    match lease.status with
    | .pass => w
    | .fail => { w with failed := w.failed ++ [s!"{id}: lease binding failed"] }
    | .incomplete => { w with missing := w.missing ++ [s!"{id}: lease incomplete"] }
    | status => { w with blocked := w.blocked ++ [s!"{id}: lease {status.asStr}"] }

def noteStatus (w : Walker) (id : String) (status : Verdict) : Walker :=
  match status with
  | .pass => w
  | .fail => { w with failed := w.failed ++ [s!"{id}: dependency records FAIL"] }
  | .blocked => { w with blocked := w.blocked ++ [s!"{id}: dependency BLOCKED"] }
  | .incomplete => { w with missing := w.missing ++ [s!"{id}: dependency INCOMPLETE"] }
  | .skipped => { w with blocked := w.blocked ++ [s!"{id}: dependency SKIPPED"] }

/-- The text beside a line: the reasons of the report, then those of a bad lease, or else the status. -/
def noteText (report : Report) (lease : Option Report) (status : Verdict) : String :=
  let note := "; ".intercalate report.reasons
  let note := match lease with
    | none => note
    | some lease =>
      if lease.status = .pass then note
      else (if note = "" then note else note ++ "; ") ++ "; ".intercalate lease.reasons
  if note = "" then status.asStr else note

def record (w : Walker) (id : String) (depth : Nat) (receipt : Receipt) (report : Report) (lease : Option Report) :
    Walker :=
  let bad := lease.any (·.status ≠ .pass)
  let status := if bad ∧ report.status = .pass then .incomplete else report.status
  let w := (w.noteLease id lease).noteStatus id status
  { w with
    lines := w.lines ++ [⟨id, receipt.kind, receipt.tier, status, depth, noteText report lease status⟩]
    graph := w.graph.insert id receipt }

variable (lease : Receipt → Option Report) (resolve : Resolver)

def visit : Nat → Walker → String → Nat → Option Walker
  | 0, _, _, _ => none
  | fuel + 1, w, id, depth =>
    if w.cycle.isSome ∨ id ∈ w.done then some w
    else if id ∈ w.visiting then some { w with cycle := some s!"dependency cycle through receipt {id}" }
    else
      let w := w.enter id
      match resolve id with
      | .error e => some ((w.miss id depth e).leave id)
      | .ok (receipt, report) =>
        ((sorted receipt.dependencies).foldlM (fun w dep => visit fuel w (lower dep) (depth + 1))
          (w.record id depth receipt report (lease receipt))).map (·.leave id)

def initial : Walker := ⟨∅, ∅, ∅, [], [], [], [], none⟩

end Walker

def ChainLine.before (a b : ChainLine) : Prop := a.depth < b.depth ∨ a.depth = b.depth ∧ a.id ≤ b.id

instance : DecidableRel ChainLine.before := fun a b =>
  inferInstanceAs (Decidable (a.depth < b.depth ∨ a.depth = b.depth ∧ a.id ≤ b.id))

def chainReport (root : Receipt) (rootReport : Report) (w : Walker) : ChainReport :=
  let rootId := lower root.id
  let lines := w.lines.insertionSort ChainLine.before
  match w.cycle with
  | some c => ⟨rootId, .fail, lines, [c]⟩
  | none =>
    -- test only ancestry under a production root
    let bad := ((w.graph.toList.map Prod.snd).filter (·.tier = .testOnlyTrust)).map (·.id)
    let listed := ", ".intercalate bad
    if root.tier = .production ∧ bad ≠ [] then
      ⟨rootId, .fail, lines, [s!"PRODUCTION receipt depends on TEST_ONLY_TRUST receipts: {listed}"]⟩
    else if w.failed ≠ [] then ⟨rootId, .fail, lines, w.failed⟩
    else if rootReport.status = .fail then ⟨rootId, .fail, lines, rootReport.reasons⟩
    else if w.missing ≠ [] then
      ⟨rootId, .incomplete, lines, w.missing ++ ["missing or incomplete dependencies never yield PASS"]⟩
    else if w.blocked ≠ [] then ⟨rootId, .blocked, lines, w.blocked⟩
    else if rootReport.status = .pass then
      ⟨rootId, .pass, lines,
        [s!"chain OK: root {rootId} plus {w.graph.size} reachable receipts all PASS"]⟩
    else ⟨rootId, rootReport.status, lines, rootReport.reasons⟩

/-- Graph traversal over an abstract resolver; `none` when the fuel runs out. -/
def verifyGraph (lease : Receipt → Option Report) (resolve : Resolver) (fuel : Nat) (root : Receipt)
    (rootReport : Report) : Option ChainReport :=
  let start := if rootReport.status = .fail then
      { Walker.initial with failed := [s!"{lower root.id}: root receipt FAIL"] }
    else Walker.initial
  ((sorted root.dependencies).foldlM (fun w dep => Walker.visit lease resolve fuel w (lower dep) 1) start).map
    (chainReport root rootReport)

/-! ## The graph below a root -/

/-- The receipt `x` resolves to has `y` among its dependencies. -/
def Dep (resolve : Resolver) (x y : String) : Prop :=
  ∃ receipt report, resolve x = .ok (receipt, report) ∧ ∃ dep ∈ receipt.dependencies, lower dep = y

def Below (resolve : Resolver) (root : Receipt) (x : String) : Prop :=
  ∃ dep ∈ root.dependencies, ReflTransGen (Dep resolve) (lower dep) x

/-- `x` resolves with a Pass report, and its receipt has no lease status or a Pass one. -/
def Sound (lease : Receipt → Option Report) (resolve : Resolver) (x : String) : Prop :=
  ∃ receipt report, resolve x = .ok (receipt, report) ∧ report.status = .pass ∧
    ∀ l, lease receipt = some l → l.status = .pass

def Cyclic (resolve : Resolver) (root : Receipt) : Prop := ∃ x, Below resolve root x ∧ TransGen (Dep resolve) x x

def Walker.Quiet (w : Walker) : Prop := w.missing = [] ∧ w.failed = [] ∧ w.blocked = []

variable {lease : Receipt → Option Report} {resolve : Resolver} {root : Receipt} {rootReport : Report}

theorem Below.dep {x y : String} (h : Below resolve root x) (hxy : Dep resolve x y) : Below resolve root y := by
  obtain ⟨dep, hdep, hx⟩ := h
  exact ⟨dep, hdep, hx.tail hxy⟩

/-- What the walk keeps true as long as it has met no cycle: the ids it has met lie below the root, the finished ones
are a closed and acyclic part of the graph, nothing is noted exactly when all of them are sound, and the graph holds
their receipts. -/
structure Fits (lease : Receipt → Option Report) (resolve : Resolver) (root : Receipt) (rootReport : Report)
    (w : Walker) : Prop where
  below : ∀ x, x ∈ w.visiting ∨ x ∈ w.done → Below resolve root x
  apart : ∀ x ∈ w.visiting, x ∉ w.done
  closed : Closed (Dep resolve) {x | x ∈ w.done}
  acyclic : Acyclic (Dep resolve) {x | x ∈ w.done}
  quiet : w.Quiet ↔ rootReport.status ≠ .fail ∧ ∀ x, x ∈ w.visiting ∨ x ∈ w.done → Sound lease resolve x
  graph : ∀ (x : String) (r : Receipt), w.graph[x]? = some r ↔
    (x ∈ w.visiting ∨ x ∈ w.done) ∧ ∃ report, resolve x = .ok (r, report)

variable {w w' : Walker} {id : String}

/-! ### Entering and leaving -/

theorem Fits.enter (h : Fits lease resolve root rootReport w) (hb : Below resolve root id) (hid : id ∉ w.done)
    (hv : w'.visiting = insert id w.visiting) (hd : w'.done = w.done)
    (hq : w'.Quiet ↔ w.Quiet ∧ Sound lease resolve id)
    (hg : ∀ (x : String) (r : Receipt), w'.graph[x]? = some r ↔
      (x = id ∧ ∃ report, resolve id = .ok (r, report)) ∨ (x ≠ id ∧ w.graph[x]? = some r)) :
    Fits lease resolve root rootReport w' := by
  have hmem : ∀ x, (x ∈ w'.visiting ∨ x ∈ w'.done) ↔ x = id ∨ x ∈ w.visiting ∨ x ∈ w.done := by
    intro x
    rw [hv, hd, Finset.mem_insert, or_assoc]
  constructor
  · intro x hx
    obtain rfl | hx := (hmem x).1 hx
    · exact hb
    · exact h.below x hx
  · intro x hx
    rw [hv, Finset.mem_insert] at hx
    rw [hd]
    obtain rfl | hx := hx
    · exact hid
    · exact h.apart x hx
  · rw [hd]
    exact h.closed
  · rw [hd]
    exact h.acyclic
  · rw [hq, h.quiet]
    constructor
    · rintro ⟨⟨hroot, hall⟩, hs⟩
      refine ⟨hroot, fun x hx => ?_⟩
      obtain rfl | hx := (hmem x).1 hx
      · exact hs
      · exact hall x hx
    · rintro ⟨hroot, hall⟩
      exact ⟨⟨hroot, fun x hx => hall x ((hmem x).2 (Or.inr hx))⟩, hall id ((hmem id).2 (Or.inl rfl))⟩
  · intro x r
    rw [hg, hmem, h.graph]
    by_cases hx : x = id
    · subst hx
      simp
    · simp [hx]

theorem Fits.leave (h : Fits lease resolve root rootReport w) (hid : id ∈ w.visiting)
    (hdeps : ∀ y, Dep resolve id y → y ∈ w.done) : Fits lease resolve root rootReport (w.leave id) := by
  have hmem : ∀ x, (x ∈ (w.leave id).visiting ∨ x ∈ (w.leave id).done) ↔ x ∈ w.visiting ∨ x ∈ w.done := by
    intro x
    simp only [Walker.leave, Finset.mem_erase, Finset.mem_insert]
    by_cases hx : x = id
    · subst hx
      simp [hid]
    · simp [hx]
  have hdone : {x | x ∈ (w.leave id).done} = insert id {x | x ∈ w.done} := by
    ext x
    simp [Walker.leave]
  constructor
  · intro x hx
    exact h.below x ((hmem x).1 hx)
  · intro x hx hxd
    simp only [Walker.leave, Finset.mem_erase, Finset.mem_insert] at hx hxd
    obtain hxd | hxd := hxd
    · exact hx.1 hxd
    · exact h.apart x hx.2 hxd
  · rw [hdone]
    exact h.closed.insert hdeps
  · rw [hdone]
    exact h.acyclic.insert h.closed hdeps (h.apart id hid)
  · have hq : (w.leave id).Quiet ↔ w.Quiet := Iff.rfl
    simp only [hq, h.quiet, hmem]
  · intro x r
    rw [hmem]
    exact h.graph x r

namespace Walker

theorem noteLease_quiet (l : Option Report) :
    (w.noteLease id l).Quiet ↔ w.Quiet ∧ ∀ r, l = some r → r.status = .pass := by
  cases l with
  | none => simp [noteLease]
  | some r =>
    unfold noteLease Quiet
    cases hr : r.status <;> simp [hr]

theorem noteStatus_quiet (status : Verdict) : (w.noteStatus id status).Quiet ↔ w.Quiet ∧ status = .pass := by
  unfold noteStatus Quiet
  cases status <;> simp

theorem noteLease_graph (l : Option Report) : (w.noteLease id l).graph = w.graph := by
  unfold noteLease
  repeat' split
  all_goals rfl

theorem noteStatus_graph (status : Verdict) : (w.noteStatus id status).graph = w.graph := by
  cases status <;> rfl

theorem noteLease_lines (l : Option Report) : (w.noteLease id l).lines = w.lines := by
  unfold noteLease
  repeat' split
  all_goals rfl

theorem noteStatus_lines (status : Verdict) : (w.noteStatus id status).lines = w.lines := by
  cases status <;> rfl

theorem noteLease_sets (w : Walker) (id : String) (l : Option Report) : (w.noteLease id l).visiting = w.visiting ∧
    (w.noteLease id l).done = w.done ∧ (w.noteLease id l).cycle = w.cycle := by
  unfold noteLease
  repeat' split
  all_goals exact ⟨rfl, rfl, rfl⟩

theorem noteStatus_sets (w : Walker) (id : String) (status : Verdict) : (w.noteStatus id status).visiting = w.visiting ∧
    (w.noteStatus id status).done = w.done ∧ (w.noteStatus id status).cycle = w.cycle := by
  cases status <;> exact ⟨rfl, rfl, rfl⟩

variable {depth : Nat} {receipt : Receipt} {report : Report} {l : Option Report}

theorem record_sets (w : Walker) (id : String) (depth : Nat) (receipt : Receipt) (report : Report)
    (l : Option Report) : (w.record id depth receipt report l).visiting = w.visiting ∧
    (w.record id depth receipt report l).done = w.done ∧ (w.record id depth receipt report l).cycle = w.cycle := by
  obtain ⟨hv, hd, hc⟩ := noteLease_sets w id l
  unfold record
  dsimp only
  rw [(noteStatus_sets _ _ _).1, (noteStatus_sets _ _ _).2.1, (noteStatus_sets _ _ _).2.2]
  exact ⟨hv, hd, hc⟩

theorem record_graph : (w.record id depth receipt report l).graph = w.graph.insert id receipt := by
  unfold record
  dsimp only
  rw [noteStatus_graph, noteLease_graph]

/-- A receipt is noted nowhere exactly when its report is Pass and it has no lease status or a Pass one. -/
theorem record_quiet : (w.record id depth receipt report l).Quiet ↔
    w.Quiet ∧ report.status = .pass ∧ ∀ r, l = some r → r.status = .pass := by
  have hlists : (w.record id depth receipt report l).Quiet ↔ ((w.noteLease id l).noteStatus id
      (if l.any (·.status ≠ .pass) ∧ report.status = .pass then .incomplete else report.status)).Quiet := Iff.rfl
  rw [hlists, noteStatus_quiet, noteLease_quiet]
  constructor
  · rintro ⟨⟨hq, hl⟩, hs⟩
    have hany : ¬ l.any (·.status ≠ .pass) = true := by
      cases l with
      | none => simp
      | some r => simp [hl r rfl]
    rw [if_neg (fun h => hany h.1)] at hs
    exact ⟨hq, hs, hl⟩
  · rintro ⟨hq, hs, hl⟩
    have hany : ¬ l.any (·.status ≠ .pass) = true := by
      cases l with
      | none => simp
      | some r => simp [hl r rfl]
    rw [if_neg (fun h => hany h.1)]
    exact ⟨⟨hq, hl⟩, hs⟩

end Walker

theorem Fits.enter_miss {depth : Nat} {e : String} (h : Fits lease resolve root rootReport w)
    (hb : Below resolve root id) (hid : id ∉ w.done) (hvis : id ∉ w.visiting) (hres : resolve id = .error e) :
    Fits lease resolve root rootReport ((w.enter id).miss id depth e) := by
  have hno : ∀ r report, resolve id ≠ .ok (r, report) := by
    intro r report hr
    rw [hres] at hr
    cases hr
  apply h.enter hb hid
  · rfl
  · rfl
  · constructor
    · intro hq
      simp [Walker.Quiet, Walker.miss] at hq
    · rintro ⟨-, r, report, hr, -⟩
      exact absurd hr (hno r report)
  · intro x r
    show w.graph[x]? = some r ↔ _
    rw [h.graph]
    constructor
    · rintro ⟨hx, hr⟩
      have hne : x ≠ id := by
        rintro rfl
        exact hx.elim hvis hid
      exact Or.inr ⟨hne, hx, hr⟩
    · rintro (⟨-, report, hr⟩ | ⟨-, hx⟩)
      · exact absurd hr (hno r report)
      · exact hx

theorem Fits.enter_record {receipt : Receipt} {report : Report} (h : Fits lease resolve root rootReport w)
    (depth : Nat) (hb : Below resolve root id) (hid : id ∉ w.done)
    (hres : resolve id = .ok (receipt, report)) :
    Fits lease resolve root rootReport ((w.enter id).record id depth receipt report (lease receipt)) := by
  apply h.enter hb hid
  · exact (Walker.record_sets _ _ _ _ _ _).1
  · exact (Walker.record_sets _ _ _ _ _ _).2.1
  · have hq : (w.enter id).Quiet ↔ w.Quiet := Iff.rfl
    rw [Walker.record_quiet, hq]
    constructor
    · rintro ⟨hq, hs, hl⟩
      exact ⟨hq, receipt, report, hres, hs, hl⟩
    · rintro ⟨hq, r, rep, hr, hs, hl⟩
      rw [hres] at hr
      cases hr
      exact ⟨hq, hs, hl⟩
  · intro x r
    rw [Walker.record_graph, ExtTreeMap.getElem?_insert]
    by_cases hx : x = id
    · subst hx
      simp [hres, eq_comm]
    · simp [hx, Ne.symm hx, Walker.enter]

/-! ### The walk -/

/-- How a part of the walk ends: with a cycle that exists, or with `ids` finished and the path as it was. -/
def Walked (lease : Receipt → Option Report) (resolve : Resolver) (root : Receipt) (rootReport : Report)
    (w w' : Walker) (ids : List String) : Prop :=
  (w'.cycle.isSome = true ∧ Cyclic resolve root) ∨
    (w'.cycle = none ∧ Fits lease resolve root rootReport w' ∧ w'.visiting = w.visiting ∧ w.done ⊆ w'.done ∧
      ∀ x ∈ ids, x ∈ w'.done)

theorem walked_foldlM {f : Walker → String → Option Walker} (hstuck : ∀ w d, w.cycle.isSome = true → f w d = some w)
    {V : Finset String} (deps : List String)
    (hstep : ∀ w, ∀ d ∈ deps, w.cycle = none → Fits lease resolve root rootReport w → w.visiting = V →
      ∃ w', f w d = some w' ∧ Walked lease resolve root rootReport w w' [lower d])
    (hc : w.cycle = none) (h : Fits lease resolve root rootReport w) (hv : w.visiting = V) :
    ∃ w', deps.foldlM f w = some w' ∧ Walked lease resolve root rootReport w w' (deps.map lower) := by
  -- the invariant is that either a cycle is known, and then nothing more happens, or the walker fits
  induction deps generalizing w with
  | nil => exact ⟨w, rfl, Or.inr ⟨hc, h, rfl, Finset.Subset.refl _, by simp⟩⟩
  | cons d deps ih =>
    obtain ⟨w1, hw1, hwalk⟩ := hstep w d List.mem_cons_self hc h hv
    rw [List.foldlM_cons, hw1]
    obtain ⟨hcycle, hex⟩ | ⟨hc1, h1, hv1, hd1, hid⟩ := hwalk
    · refine ⟨w1, ?_, Or.inl ⟨hcycle, hex⟩⟩
      have hrest : ∀ l : List String, l.foldlM f w1 = some w1 := by
        intro l
        induction l with
        | nil => rfl
        | cons d l ihl =>
          rw [List.foldlM_cons, hstuck w1 d hcycle]
          exact ihl
      exact hrest deps
    · obtain ⟨w2, hw2, hwalk2⟩ := ih (fun w d hd => hstep w d (List.mem_cons_of_mem _ hd)) hc1 h1 (hv1.trans hv)
      refine ⟨w2, hw2, ?_⟩
      obtain hcycle | ⟨hc2, h2, hv2, hd2, hids⟩ := hwalk2
      · exact Or.inl hcycle
      · refine Or.inr ⟨hc2, h2, hv2.trans hv1, hd1.trans hd2, ?_⟩
        intro x hx
        rw [List.map_cons, List.mem_cons] at hx
        obtain rfl | hx := hx
        · exact hd2 (hid _ List.mem_cons_self)
        · exact hids x hx

theorem visit_stuck {fuel depth : Nat} (hc : w.cycle.isSome = true) :
    Walker.visit lease resolve (fuel + 1) w id depth = some w := by
  unfold Walker.visit
  rw [if_pos (Or.inl hc)]

/-- One visit. The fuel covers the ids of `B` that are not on the path; the path leads to the id. -/
theorem walked_visit {B : Finset String} (hB : ∀ x, Below resolve root x → x ∈ B) {fuel depth : Nat}
    (hc : w.cycle = none) (h : Fits lease resolve root rootReport w) (hb : Below resolve root id)
    (hpath : ∀ x ∈ w.visiting, TransGen (Dep resolve) x id) (hfuel : (B \ w.visiting).card < fuel) :
    ∃ w', Walker.visit lease resolve fuel w id depth = some w' ∧ Walked lease resolve root rootReport w w' [id] := by
  induction fuel generalizing w id depth with
  | zero => exact absurd hfuel (Nat.not_lt_zero _)
  | succ fuel ih =>
    unfold Walker.visit
    by_cases hdone : id ∈ w.done
    · rw [if_pos (Or.inr hdone)]
      exact ⟨w, rfl, Or.inr ⟨hc, h, rfl, Finset.Subset.refl _, by simpa using hdone⟩⟩
    rw [if_neg (by simp [hc, hdone])]
    by_cases hvis : id ∈ w.visiting
    · rw [if_pos hvis]
      exact ⟨_, rfl, Or.inl ⟨rfl, id, hb, hpath id hvis⟩⟩
    rw [if_neg hvis]
    have herase : (insert id w.visiting).erase id = w.visiting := Finset.erase_insert hvis
    cases hres : resolve id with
    | error e =>
      refine ⟨_, rfl, Or.inr ⟨hc, ?_, herase, Finset.subset_insert _ _, ?_⟩⟩
      · apply (h.enter_miss hb hdone hvis hres).leave
        · exact Finset.mem_insert_self _ _
        · rintro y ⟨r, report, hr, -⟩
          rw [hres] at hr
          cases hr
      · simp [Walker.leave]
    | ok pair =>
      obtain ⟨receipt, report⟩ := pair
      dsimp only
      have h2 := h.enter_record depth hb hdone hres
      have hv2 := Walker.record_sets (w.enter id) id depth receipt report (lease receipt)
      generalize (w.enter id).record id depth receipt report (lease receipt) = w2 at h2 hv2 ⊢
      obtain ⟨hv2, hd2, hc2⟩ := hv2
      replace hc2 : w2.cycle = none := hc2.trans hc
      have hdep : ∀ d ∈ sorted receipt.dependencies, Dep resolve id (lower d) := fun d hd =>
        ⟨receipt, report, hres, d, mem_sorted.1 hd, rfl⟩
      have hcard : (B \ insert id w.visiting).card < fuel := by
        have hlt : (B \ insert id w.visiting).card < (B \ w.visiting).card := by
          apply Finset.card_lt_card
          rw [Finset.ssubset_iff_of_subset (Finset.sdiff_subset_sdiff (Finset.Subset.refl B) (Finset.subset_insert _ _))]
          exact ⟨id, by simp [hB id hb, hvis], by simp⟩
        omega
      have hpos : 0 < fuel := by omega
      obtain ⟨fuel, rfl⟩ : ∃ n, fuel = n + 1 := ⟨fuel - 1, by omega⟩
      obtain ⟨w3, hw3, hwalk⟩ := walked_foldlM (V := insert id w.visiting) (fun w d => visit_stuck)
        (sorted receipt.dependencies) (fun w' d hd hc' h' hv' => ih hc' h' (hb.dep (hdep d hd)) (by
          intro x hx
          rw [hv', Finset.mem_insert] at hx
          obtain rfl | hx := hx
          · exact TransGen.single (hdep d hd)
          · exact (hpath x hx).tail (hdep d hd)) (by rw [hv']; exact hcard)) hc2 h2 hv2
      rw [hw3]
      refine ⟨w3.leave id, rfl, ?_⟩
      obtain hcycle | ⟨hc3, h3, hv3, hd3, hids⟩ := hwalk
      · exact Or.inl hcycle
      · refine Or.inr ⟨hc3, ?_, ?_, ?_, ?_⟩
        · apply h3.leave
          · rw [hv3, hv2]
            exact Finset.mem_insert_self _ _
          · rintro y ⟨r, rep, hr, d, hd, rfl⟩
            rw [hres] at hr
            cases hr
            exact hids _ (List.mem_map_of_mem (mem_sorted.2 hd))
        · show w3.visiting.erase id = w.visiting
          rw [hv3, hv2]
          exact herase
        · rw [hd2] at hd3
          exact hd3.trans (Finset.subset_insert _ _)
        · simp [Walker.leave]

theorem fits_initial (failed : List String) (hf : failed = [] ↔ rootReport.status ≠ .fail) :
    Fits lease resolve root rootReport { Walker.initial with failed := failed } where
  below := by simp [Walker.initial]
  apart := by simp [Walker.initial]
  closed := fun x hx => absurd hx (Finset.notMem_empty x)
  acyclic := fun x hx => absurd hx (Finset.notMem_empty x)
  quiet := by simp [Walker.Quiet, Walker.initial, hf]
  graph := by simp [Walker.initial]

def startWalker (root : Receipt) (rootReport : Report) : Walker :=
  if rootReport.status = .fail then { Walker.initial with failed := [s!"{lower root.id}: root receipt FAIL"] }
  else Walker.initial

/-- The walk of `verifyGraph`. -/
def walk (lease : Receipt → Option Report) (resolve : Resolver) (fuel : Nat) (root : Receipt) (rootReport : Report) :
    Option Walker :=
  (sorted root.dependencies).foldlM (fun w dep => Walker.visit lease resolve fuel w (lower dep) 1)
    (startWalker root rootReport)

theorem verifyGraph_eq (fuel : Nat) : verifyGraph lease resolve fuel root rootReport =
    (walk lease resolve fuel root rootReport).map (chainReport root rootReport) := rfl

theorem verifyGraph_of_walk {fuel : Nat} (h : walk lease resolve fuel root rootReport = some w) :
    verifyGraph lease resolve fuel root rootReport = some (chainReport root rootReport w) := by
  rw [verifyGraph_eq, h, Option.map_some]

/-- The walk from a root with finitely many ids below it ends, with all of them finished or with a cycle. -/
theorem walked_root (lease : Receipt → Option Report) (rootReport : Report) {B : Finset String}
    (hB : ∀ x, Below resolve root x → x ∈ B) {fuel : Nat} (hfuel : B.card < fuel) : ∃ w,
    walk lease resolve fuel root rootReport = some w ∧
      ((w.cycle.isSome = true ∧ Cyclic resolve root) ∨
        (w.cycle = none ∧ Fits lease resolve root rootReport w ∧ w.visiting = ∅ ∧
          ∀ x, Below resolve root x → x ∈ w.done)) := by
  obtain ⟨fuel, rfl⟩ : ∃ n, fuel = n + 1 := ⟨fuel - 1, by omega⟩
  have hfits : Fits lease resolve root rootReport (startWalker root rootReport) ∧
      (startWalker root rootReport).visiting = ∅ ∧ (startWalker root rootReport).cycle = none := by
    unfold startWalker
    split
    · exact ⟨fits_initial _ (by simp [*]), rfl, rfl⟩
    · exact ⟨fits_initial [] (by simp [*]), rfl, rfl⟩
  obtain ⟨hfits, hv, hc⟩ := hfits
  obtain ⟨w, hw, hwalk⟩ := walked_foldlM (V := ∅)
    (f := fun w dep => Walker.visit lease resolve (fuel + 1) w (lower dep) 1) (fun w d => visit_stuck)
    (sorted root.dependencies) (fun w d hd hc h hv => walked_visit hB hc h ⟨d, mem_sorted.1 hd, ReflTransGen.refl⟩ (by simp [hv])
      (by rw [hv, Finset.sdiff_empty]; omega)) hc hfits hv
  refine ⟨w, hw, ?_⟩
  obtain hcycle | ⟨hc, h, hvw, -, hids⟩ := hwalk
  · exact Or.inl hcycle
  · refine Or.inr ⟨hc, h, hvw.trans hv, ?_⟩
    rintro x ⟨d, hd, hx⟩
    have hd : lower d ∈ w.done := hids _ (List.mem_map_of_mem (mem_sorted.2 hd))
    obtain heq | hx := reflTransGen_iff_eq_or_transGen.1 hx
    · rw [heq]
      exact hd
    · exact h.closed.transGen hd hx

theorem taint_eq_nil : (((w.graph.toList.map Prod.snd).filter (·.tier = .testOnlyTrust)).map (·.id) = []) ↔
    ∀ (x : String) (r : Receipt), w.graph[x]? = some r → r.tier ≠ .testOnlyTrust := by
  simp only [List.map_eq_nil_iff, List.filter_eq_nil_iff, List.mem_map, decide_eq_true_eq]
  constructor
  · intro h x r hr
    exact h r ⟨(x, r), ExtTreeMap.mem_toList_iff_getElem?_eq_some.2 hr, rfl⟩
  · rintro h r ⟨⟨x, r'⟩, hr, rfl⟩
    exact h x r' (ExtTreeMap.mem_toList_iff_getElem?_eq_some.1 hr)

/-- The report is Pass exactly when no list has an entry, no cycle is known, the root's own report is Pass and a
production root has no test only receipt in the graph. -/
theorem chainReport_pass : (chainReport root rootReport w).status = .pass ↔ w.cycle = none ∧ w.Quiet ∧
    rootReport.status = .pass ∧
    (root.tier = .production → ∀ (x : String) (r : Receipt), w.graph[x]? = some r → r.tier ≠ .testOnlyTrust) := by
  unfold chainReport
  cases hcycle : w.cycle with
  | some c => simp
  | none =>
    dsimp only
    rw [← taint_eq_nil]
    unfold Walker.Quiet
    split_ifs with h1 h2 h3 h4 h5 h6
    · simp [h1.1, h1.2]
    · simp [h2]
    · simp [h3]
    · simp [h4]
    · simp [h5]
    · have hclean : root.tier = .production →
          ((w.graph.toList.map Prod.snd).filter (·.tier = .testOnlyTrust)).map (·.id) = [] :=
        fun hp => not_not.1 fun hb => h1 ⟨hp, hb⟩
      exact ⟨fun _ => ⟨rfl, ⟨not_not.1 h4, not_not.1 h2, not_not.1 h5⟩, h6, hclean⟩, fun _ => rfl⟩
    · simp [h6]

/-! ## More fuel -/

theorem foldlM_some_mono {σ α : Type} {f g : σ → α → Option σ} (h : ∀ s a t, f s a = some t → g s a = some t)
    (l : List α) {s t : σ} (hl : l.foldlM f s = some t) : l.foldlM g s = some t := by
  induction l generalizing s with
  | nil => exact hl
  | cons a l ih =>
    rw [List.foldlM_cons] at hl ⊢
    obtain ⟨u, hu, hl⟩ := Option.bind_eq_some_iff.1 hl
    rw [h s a u hu]
    exact ih hl

theorem visit_succ {fuel depth : Nat} (h : Walker.visit lease resolve fuel w id depth = some w') :
    Walker.visit lease resolve (fuel + 1) w id depth = some w' := by
  induction fuel generalizing w id depth w' with
  | zero => cases h
  | succ fuel ih =>
    unfold Walker.visit at h ⊢
    split_ifs at h ⊢ with hdone hvis
    · exact h
    · exact h
    · dsimp only at h ⊢
      cases hres : resolve id with
      | error e =>
        rw [hres] at h
        exact h
      | ok pair =>
        rw [hres] at h
        obtain ⟨w1, hw1, hleave⟩ := Option.map_eq_some_iff.1 h
        exact Option.map_eq_some_iff.2 ⟨w1, foldlM_some_mono (fun s d t => ih) _ hw1, hleave⟩

theorem verifyGraph_mono {fuel n : Nat} {report : ChainReport} (hle : n ≤ fuel)
    (h : verifyGraph lease resolve n root rootReport = some report) :
    verifyGraph lease resolve fuel root rootReport = some report := by
  induction fuel, hle using Nat.le_induction with
  | base => exact h
  | succ fuel _ ih =>
    obtain ⟨w, hw, hreport⟩ := Option.map_eq_some_iff.1 ih
    exact Option.map_eq_some_iff.2 ⟨w, foldlM_some_mono (fun s d t => visit_succ) _ hw, hreport⟩

/-- `verifyGraph` terminates with this report. -/
def Yields (lease : Receipt → Option Report) (resolve : Resolver) (root : Receipt) (rootReport : Report)
    (report : ChainReport) : Prop :=
  ∃ n, ∀ fuel, n ≤ fuel → verifyGraph lease resolve fuel root rootReport = some report

theorem Yields.of_run {n : Nat} {report : ChainReport}
    (h : verifyGraph lease resolve n root rootReport = some report) : Yields lease resolve root rootReport report :=
  ⟨n, fun _ hle => verifyGraph_mono hle h⟩

theorem Yields.unique {report report' : ChainReport} (h : Yields lease resolve root rootReport report)
    (h' : Yields lease resolve root rootReport report') : report = report' := by
  obtain ⟨n, hn⟩ := h
  obtain ⟨m, hm⟩ := h'
  have hsome := (hn (max n m) (le_max_left _ _)).symm.trans (hm (max n m) (le_max_right _ _))
  exact Option.some.inj hsome

/-! ## What Pass says -/

/-- The root and everything below it is in order. -/
structure InOrder (lease : Receipt → Option Report) (resolve : Resolver) (root : Receipt) (rootReport : Report) :
    Prop where
  passes : rootReport.status = .pass
  sound : ∀ x, Below resolve root x → Sound lease resolve x
  acyclic : ¬ Cyclic resolve root
  trusted : root.tier = .production → ∀ x r report, Below resolve root x → resolve x = .ok (r, report) →
    r.tier ≠ .testOnlyTrust

/-- `verifyGraph` ends for every resolver with finitely many ids below the root. It reports Pass exactly when the root
and everything below it is in order, and Fail whenever there is a cycle below the root. -/
theorem verify_graph_exact (lease : Receipt → Option Report) (resolve : Resolver) (root : Receipt)
    (rootReport : Report) (hfin : {x | Below resolve root x}.Finite) :
    ∃ report, Yields lease resolve root rootReport report ∧
      (report.status = .pass ↔ InOrder lease resolve root rootReport) ∧
      (Cyclic resolve root → report.status = .fail) := by
  obtain ⟨w, hw, hwalk⟩ := walked_root lease rootReport (fun x hx => hfin.mem_toFinset.2 hx) (Nat.lt_succ_self _)
  have hrun := verifyGraph_of_walk hw
  refine ⟨_, Yields.of_run hrun, ?_⟩
  obtain ⟨hcycle, hex⟩ | ⟨hcycle, h, hv, hall⟩ := hwalk
  · have hfail : (chainReport root rootReport w).status = .fail := by
      obtain ⟨c, hc⟩ := Option.isSome_iff_exists.1 hcycle
      unfold chainReport
      rw [hc]
    rw [hfail]
    exact ⟨⟨fun h => Verdict.noConfusion h, fun h => absurd hex h.acyclic⟩, fun _ => rfl⟩
  · -- the finished ids are exactly the ids below the root
    have hdone : ∀ x, (x ∈ w.visiting ∨ x ∈ w.done) ↔ Below resolve root x :=
      fun x => ⟨h.below x, fun hx => Or.inr (hall x hx)⟩
    have hno : ¬ Cyclic resolve root := by
      rintro ⟨x, hx, hxx⟩
      exact h.acyclic x (hall x hx) hxx
    refine ⟨?_, fun hex => absurd hex hno⟩
    rw [chainReport_pass, h.quiet]
    simp only [h.graph, hdone]
    constructor
    · rintro ⟨-, ⟨-, hsound⟩, hroot, htest⟩
      exact ⟨hroot, hsound, hno, fun hp x r report hx hr => htest hp x r ⟨hx, report, hr⟩⟩
    · rintro ⟨hroot, hsound, -, htest⟩
      refine ⟨hcycle, ⟨?_, hsound⟩, hroot, ?_⟩
      · rw [hroot]
        exact Verdict.noConfusion
      · rintro hp x r ⟨hx, report, hr⟩
        exact htest hp x r report hx hr

theorem finite_below {B : Finset String} (hroot : ∀ d ∈ root.dependencies, lower d ∈ B)
    (hstep : ∀ x ∈ B, ∀ y, Dep resolve x y → y ∈ B) : {x | Below resolve root x}.Finite := by
  apply B.finite_toSet.subset
  rintro x ⟨d, hd, hx⟩
  induction hx with
  | refl => exact hroot d hd
  | tail _ hyz ih => exact hstep _ ih _ hyz

/-! A root over a production receipt over a test only one, and no cycle. -/

def sampleUpper : String := String.ofList (List.replicate 64 'a')

def sampleLower : String := String.ofList (List.replicate 64 'b')

def sampleRoot : Receipt := sampleReceipt .qemu [sampleUpper]

def sampleReport : Report := .ofPass "identity, ledger, and lease bindings check out"

def sampleResolver : Resolver := fun id =>
  if id = sampleUpper then .ok (sampleReceipt .production [sampleLower], sampleReport)
  else if id = sampleLower then .ok (sampleReceipt .testOnlyTrust [], sampleReport)
  else .error "missing dependency receipt"

theorem sampleResolver_dep {x y : String} (h : Dep sampleResolver x y) : x = sampleUpper ∧ y = sampleLower := by
  obtain ⟨r, report, hr, d, hd, rfl⟩ := h
  unfold sampleResolver at hr
  split_ifs at hr with h1 h2
  · cases hr
    have hd : d = sampleLower := by simpa [sampleReceipt] using hd
    refine ⟨h1, ?_⟩
    rw [hd]
    decide
  · cases hr
    simp [sampleReceipt] at hd

theorem sampleResolver_finite : {x | Below sampleResolver sampleRoot x}.Finite := by
  apply finite_below (B := {sampleUpper, sampleLower})
  · decide
  · intro x _ y hxy
    rw [(sampleResolver_dep hxy).2]
    decide

theorem sampleRoot_passes : ∃ report, Yields (fun _ => none) sampleResolver sampleRoot sampleReport report ∧
    report.status = .pass := by
  have hrun : ((verifyGraph (fun _ => none) sampleResolver 3 sampleRoot sampleReport).map (·.status)) = some .pass := by
    decide
  obtain ⟨report, hreport, hstatus⟩ := Option.map_eq_some_iff.1 hrun
  exact ⟨report, Yields.of_run hreport, hstatus⟩

theorem verify_graph_exact_sample : InOrder (fun _ => none) sampleResolver sampleRoot sampleReport := by
  obtain ⟨report, hy, hpass, -⟩ := verify_graph_exact (fun _ => none) sampleResolver sampleRoot sampleReport
    sampleResolver_finite
  obtain ⟨report', hy', hstatus⟩ := sampleRoot_passes
  rw [hy'.unique hy] at hstatus
  exact hpass.1 hstatus

/-! ## Test only trust -/

/-- `x` resolves to a receipt of this tier. -/
def HasTier (resolve : Resolver) (tier : Tier) (x : String) : Prop :=
  ∃ r report, resolve x = .ok (r, report) ∧ r.tier = tier

/-- A production receipt below the root has a test only receipt among its transitive dependencies. -/
def TaintedBelow (resolve : Resolver) (root : Receipt) : Prop :=
  ∃ x y, Below resolve root x ∧ HasTier resolve .production x ∧ TransGen (Dep resolve) x y ∧
    HasTier resolve .testOnlyTrust y

/-- The root or a receipt below it is a production receipt with a test only receipt among its transitive
dependencies. -/
def Tainted (resolve : Resolver) (root : Receipt) : Prop :=
  (root.tier = .production ∧ ∃ y, Below resolve root y ∧ HasTier resolve .testOnlyTrust y) ∨ TaintedBelow resolve root

theorem Below.transGen {x y : String} (h : Below resolve root x) (hxy : TransGen (Dep resolve) x y) :
    Below resolve root y := by
  obtain ⟨d, hd, hx⟩ := h
  exact ⟨d, hd, hx.trans hxy.to_reflTransGen⟩

/-- A passing chain keeps test only trust out of every production receipt exactly when the root is a production receipt
itself, or the chain does not pass for a reason of its own, or no production receipt below the root is tainted. -/
theorem test_trust_kept_out (lease : Receipt → Option Report) (resolve : Resolver) (root : Receipt)
    (rootReport : Report) (hfin : {x | Below resolve root x}.Finite) :
    (∀ report, Yields lease resolve root rootReport report → report.status = .pass → ¬ Tainted resolve root) ↔
      (root.tier = .production ∨ rootReport.status ≠ .pass ∨ (∃ x, Below resolve root x ∧ ¬ Sound lease resolve x) ∨
        Cyclic resolve root ∨ ¬ TaintedBelow resolve root) := by
  obtain ⟨report, hy, hpass, -⟩ := verify_graph_exact lease resolve root rootReport hfin
  constructor
  · intro h
    by_contra hno
    simp only [not_or, not_exists, not_and, not_not] at hno
    obtain ⟨htier, hroot, hsound, hcyclic, htaint⟩ := hno
    have horder : InOrder lease resolve root rootReport := ⟨hroot, hsound, hcyclic, fun hp => absurd hp htier⟩
    exact h report hy (hpass.2 horder) (Or.inr htaint)
  · intro hcond report' hy' hstatus htaint
    rw [hy'.unique hy] at hstatus
    have horder := hpass.1 hstatus
    obtain htier | hroot | ⟨x, hx, hns⟩ | hcyclic | hclean := hcond
    · obtain ⟨-, y, hb, r, rep, hr, ht⟩ | ⟨x, y, hx, -, hxy, r, rep, hr, ht⟩ := htaint
      · exact horder.trusted htier y r rep hb hr ht
      · exact horder.trusted htier y r rep (hx.transGen hxy) hr ht
    · exact hroot horder.passes
    · exact hns (horder.sound x hx)
    · exact horder.acyclic hcyclic
    · obtain ⟨htier, y, hb, r, rep, hr, ht⟩ | htaint := htaint
      · exact horder.trusted htier y r rep hb hr ht
      · exact hclean htaint

theorem sampleResolver_tainted : TaintedBelow sampleResolver sampleRoot := by
  have hupper : sampleResolver sampleUpper = .ok (sampleReceipt .production [sampleLower], sampleReport) := by
    decide
  have hlower : sampleResolver sampleLower = .ok (sampleReceipt .testOnlyTrust [], sampleReport) := by
    decide
  have hcase : lower sampleLower = sampleLower := by decide
  have hcase' : lower sampleUpper = sampleUpper := by decide
  refine ⟨sampleUpper, sampleLower, ?_, ⟨_, _, hupper, rfl⟩, ?_, ⟨_, _, hlower, rfl⟩⟩
  · refine ⟨sampleUpper, List.mem_singleton_self _, ?_⟩
    rw [hcase']
  · exact TransGen.single ⟨_, _, hupper, sampleLower, List.mem_singleton_self _, hcase⟩

theorem test_trust_kept_out_sample :
    ¬ (sampleRoot.tier = .production ∨ sampleReport.status ≠ .pass ∨
      (∃ x, Below sampleResolver sampleRoot x ∧ ¬ Sound (fun _ => none) sampleResolver x) ∨
      Cyclic sampleResolver sampleRoot ∨ ¬ TaintedBelow sampleResolver sampleRoot) := by
  intro hcond
  obtain ⟨report, hy, hstatus⟩ := sampleRoot_passes
  exact (test_trust_kept_out (fun _ => none) sampleResolver sampleRoot sampleReport sampleResolver_finite).2 hcond
    report hy hstatus (Or.inr sampleResolver_tainted)

/-- A chain that passes with a test only receipt under a production receipt. -/
theorem test_trust_reaches_production :
    ∃ lease resolve root rootReport report, {x | Below resolve root x}.Finite ∧
      Yields lease resolve root rootReport report ∧ report.status = .pass ∧ Tainted resolve root := by
  obtain ⟨report, hy, hstatus⟩ := sampleRoot_passes
  exact ⟨fun _ => none, sampleResolver, sampleRoot, sampleReport, report, sampleResolver_finite, hy, hstatus,
    Or.inr sampleResolver_tainted⟩

end SovereignCore.Evidence
