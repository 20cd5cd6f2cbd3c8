import SovereignCore.AienTest.Manifest
import SovereignCore.Lib.Table
import Mathlib.Logic.Relation
import Mathlib.Data.List.Perm.Basic
import Mathlib.Data.List.Nodup

/-!
# The commit verdict

`judge` goes once over the entries of a plan, dependencies first. An entry takes what is known of its gate, unless a
dependency is not PASS; the first such dependency then decides.

* `Entry`, `Plan`, `Known`, `judge` : the algebra;
* `Rests`, `own`, `Sound` : what a gate rests on, and what it is by itself;
* `verdictOf_eq` : the verdicts as a fixed point, whatever order they are computed in;
* `verdictOf_pass` : PASS is exactly that everything below is sound; `verdictOf_cause` : else some cause below decides;
* `judge_exact_iff` : the algebra is exact, and independent of the order in a list, when the causes below each gate agree.
-/

namespace SovereignCore.AienTest

open Std Relation

inductive Section
  | required
  | cached
  | needsSpark
  | needsGb10
  | advisory
  | blocked
  deriving DecidableEq, Repr

/-- One selected gate. -/
structure Entry where
  gate : String
  checkId : String := ""
  pool : Pool := .host
  exactness : Exactness := .exact
  cacheScope : CacheScope := .portable
  required : Bool := true
  section_ : Section := .required
  reason : String := ""
  dependsOn : List String := []
  always : Bool := false
  because : String := ""
  deriving DecidableEq, Repr

/-- A plan, each gate selected once. -/
structure Plan where
  base : String := ""
  head : String := ""
  changed : List String := []
  crumbPaths : List String := []
  pins : List String := []
  unmapped : List String := []
  removed : List String := []
  configChanged : List String := []
  blocked : Option String := none
  entries : List Entry
  graphDigest : String := ""
  notes : List String := []
  distinct : (entries.map Entry.gate).Nodup

/-- What is known about one gate after a run. -/
structure Known where
  verdict : Verdict
  reason : String
  receipt : Option String
  deriving DecidableEq, Repr

structure Judged where
  verdict : Verdict
  reason : String
  gates : ExtTreeMap String (Verdict × String)

section Functions

variable (known : ExtTreeMap String Known)

def ownVerdict (e : Entry) : Verdict × String :=
  let v :=
    match known[e.gate]? with
    | some k => (k.verdict, k.reason)
    | none => (.notRun, "NO_RECEIPT")
  let v := if e.section_ = .blocked then (.blockedOperator, e.reason) else v
  if known[e.gate]?.any fun k => k.verdict = .pass ∧ k.receipt = none then (.notRun, "NO_RECEIPT") else v

/-- What is known of a gate that is not an entry; a PASS counts only with a receipt. -/
def outsideVerdict (d : String) : Option (Verdict × String) :=
  (known[d]?.filter fun k => k.receipt ≠ none ∨ k.verdict ≠ .pass).map fun k => (k.verdict, k.reason)

/-- The loop over the dependencies, up to the first that is not PASS. -/
def overDeps (gates : ExtTreeMap String (Verdict × String)) : List String → Verdict × String → Verdict × String
  | [], v => v
  | d :: ds, v =>
    match gates[d]?.or (outsideVerdict known d) with
    | some (.pass, _) => overDeps gates ds v
    | some (.fail, _) => (.fail, s!"DEPENDENCY_FAILED:{d}")
    | some (.notRun, _) | none => (.notRun, s!"UNVERIFIED_DEPENDENCY:{d}")
    | some (other, _) => (other, s!"DEP_BLOCKED:{d}")

def judgeEntry (gates : ExtTreeMap String (Verdict × String)) (e : Entry) : ExtTreeMap String (Verdict × String) :=
  gates.insert e.gate (overDeps known gates e.dependsOn (ownVerdict known e))

def judgeEntries (entries : List Entry) : ExtTreeMap String (Verdict × String) := entries.foldl (judgeEntry known) ∅

/-- The loop over the required entries: the worst verdict and the first entry that has it. -/
def worstOf (gates : ExtTreeMap String (Verdict × String)) : List Entry → Verdict × String → Verdict × String
  | [], worst => worst
  | e :: es, worst =>
    let (v, r) := (gates[e.gate]?).getD (.notRun, "")
    worstOf gates es (if worst.1.exitCode < v.exitCode then (v, s!"{e.gate}:{r}") else worst)

def commitVerdict (plan : Plan) (gates : ExtTreeMap String (Verdict × String)) : Verdict × String :=
  match plan.blocked with
  | some b => (.blockedOperator, b)
  | none =>
    if plan.unmapped ≠ [] then (.notRun, "UNMAPPED_PATH")
    else if plan.removed ≠ [] then (.notRun, "GATE_REMOVED")
    else
      let required := plan.entries.filter Entry.required
      if required = [] then (.notRun, "NO_REQUIRED_GATES")
      else
        match required.find? fun e => ((gates[e.gate]?).getD (.notRun, "")).1 = .fail with
        | some e => (.fail, e.gate ++ ":" ++ ((gates[e.gate]?).getD (.notRun, "")).2)
        | none => worstOf gates required (.pass, "")

def judge (plan : Plan) : Judged :=
  let gates := judgeEntries known plan.entries
  let commit := commitVerdict plan gates
  ⟨commit.1, commit.2, gates⟩

end Functions

/-! ## What gates rest on -/

/-- Gate `g` is an entry with the dependency `d`. -/
def Rests (entries : List Entry) (g d : String) : Prop := ∃ e ∈ entries, e.gate = g ∧ d ∈ e.dependsOn

def Ordered (entries : List Entry) : Prop :=
  ∀ before e rest, entries = before ++ e :: rest → ∀ d ∈ e.dependsOn, d ∉ (e :: rest).map Entry.gate

variable {known : ExtTreeMap String Known} {entries : List Entry} {e : Entry} {g d : String}

def placeOf (entries : List Entry) (g : String) : Nat :=
  if g ∈ entries.map Entry.gate then (entries.map Entry.gate).idxOf g + 1 else 0

theorem placeOf_lt (hord : Ordered entries) (hnd : (entries.map Entry.gate).Nodup) (h : Rests entries g d) :
    placeOf entries d < placeOf entries g := by
  obtain ⟨e, he, rfl, hd⟩ := h
  obtain ⟨before, rest, rfl⟩ := List.append_of_mem he
  have hlater := hord before e rest rfl d hd
  have hself : e.gate ∈ (before ++ e :: rest).map Entry.gate := List.mem_map_of_mem he
  unfold placeOf
  rw [if_pos hself]
  split_ifs with hmem
  · rw [List.map_append] at hmem hnd ⊢
    have hbefore : d ∈ before.map Entry.gate := (List.mem_append.1 hmem).resolve_right hlater
    have hnot : e.gate ∉ before.map Entry.gate := fun hin =>
      List.disjoint_of_nodup_append hnd hin (List.mem_map_of_mem List.mem_cons_self)
    rw [List.idxOf_append_of_mem hbefore, List.idxOf_append_of_notMem hnot]
    have := List.idxOf_lt_length_of_mem hbefore
    omega
  · omega

theorem rests_induction (hord : Ordered entries) (hnd : (entries.map Entry.gate).Nodup) {P : String → Prop}
    (step : ∀ g, (∀ d, Rests entries g d → P d) → P g) (g : String) : P g := by
  induction hn : placeOf entries g using Nat.strong_induction_on generalizing g with
  | _ n ih =>
    subst hn
    exact step g fun d hd => ih _ (placeOf_lt hord hnd hd) d rfl

theorem entry_unique (hnd : (entries.map Entry.gate).Nodup) {e' : Entry} (he : e ∈ entries) (he' : e' ∈ entries)
    (h : e.gate = e'.gate) : e = e' := List.inj_on_of_nodup_map hnd he he' h

/-! ## The verdicts as a fixed point -/

def seen (known : ExtTreeMap String Known) (gates : ExtTreeMap String (Verdict × String)) (d : String) : Verdict :=
  ((gates[d]?.or (outsideVerdict known d)).map Prod.fst).getD .notRun

/-- The judged verdict of an entry's gate; what is known of any other. -/
def verdictOf (known : ExtTreeMap String Known) (entries : List Entry) (d : String) : Verdict :=
  seen known (judgeEntries known entries) d

theorem overDeps_fst (gates : ExtTreeMap String (Verdict × String)) (ds : List String) (v : Verdict × String) :
    (overDeps known gates ds v).1 = ((ds.map (seen known gates)).find? (· ≠ .pass)).getD v.1 := by
  induction ds with
  | nil => rfl
  | cons d ds ih =>
    unfold overDeps
    rw [List.map_cons, List.find?_cons]
    have hseen : seen known gates d = ((gates[d]?.or (outsideVerdict known d)).map Prod.fst).getD .notRun := rfl
    rcases hdep : gates[d]?.or (outsideVerdict known d) with _ | ⟨v', r⟩
    · rw [hdep] at hseen
      rw [hseen]
      rfl
    · rw [hdep] at hseen
      rw [hseen]
      cases v' with
      | pass => exact ih
      | fail => rfl
      | notRun => rfl
      | blockedHardware => rfl
      | blockedOperator => rfl
      | missingImplementation => rfl

theorem get_judgeEntries_append (known : ExtTreeMap String Known) (before rest : List Entry) (h : d ∉ rest.map Entry.gate) :
    (judgeEntries known (before ++ rest))[d]? = (judgeEntries known before)[d]? := by
  unfold judgeEntries
  rw [List.foldl_append]
  generalize before.foldl (judgeEntry known) ∅ = gates
  induction rest generalizing gates with
  | nil => rfl
  | cons e rest ih =>
    rw [List.map_cons, List.mem_cons, not_or] at h
    rw [List.foldl_cons, ih h.2]
    unfold judgeEntry
    rw [Table.get_insert, if_neg (Ne.symm h.1)]

/-- An entry's verdict is that of the first dependency that is not PASS, else its own. -/
theorem verdictOf_eq (known : ExtTreeMap String Known) (hord : Ordered entries) (hnd : (entries.map Entry.gate).Nodup) (he : e ∈ entries) :
    verdictOf known entries e.gate =
      ((e.dependsOn.map (verdictOf known entries)).find? (· ≠ .pass)).getD (ownVerdict known e).1 := by
  obtain ⟨before, rest, rfl⟩ := List.append_of_mem he
  have hlater : e.gate ∉ rest.map Entry.gate := by
    rw [List.map_append, List.map_cons] at hnd
    exact (List.nodup_cons.1 (List.nodup_append.1 hnd).2.1).1
  have hget : (judgeEntries known (before ++ e :: rest))[e.gate]? =
      some (overDeps known (judgeEntries known before) e.dependsOn (ownVerdict known e)) := by
    have hsplit : before ++ e :: rest = (before ++ [e]) ++ rest := by simp
    rw [hsplit, get_judgeEntries_append known _ _ hlater]
    unfold judgeEntries
    rw [List.foldl_append, List.foldl_cons, List.foldl_nil]
    unfold judgeEntry
    rw [Table.get_insert, if_pos rfl]
  have hdeps : e.dependsOn.map (seen known (judgeEntries known before)) =
      e.dependsOn.map (verdictOf known (before ++ e :: rest)) := by
    refine List.map_congr_left fun d hd => ?_
    unfold verdictOf seen
    rw [get_judgeEntries_append known _ _ (hord before e rest rfl d hd)]
  have hself : verdictOf known (before ++ e :: rest) e.gate =
      (overDeps known (judgeEntries known before) e.dependsOn (ownVerdict known e)).1 := by
    unfold verdictOf seen
    rw [hget]
    rfl
  rw [hself, overDeps_fst, hdeps]

theorem verdictOf_outside (h : d ∉ entries.map Entry.gate) :
    verdictOf known entries d = ((outsideVerdict known d).map Prod.fst).getD .notRun := by
  have hget := get_judgeEntries_append known [] entries h
  have hempty : (judgeEntries known [])[d]? = none := ExtTreeMap.getElem?_empty
  unfold verdictOf seen
  rw [List.nil_append] at hget
  rw [hget, hempty]
  rfl

/-! ## Soundness -/

def own (known : ExtTreeMap String Known) (entries : List Entry) (d : String) : Verdict :=
  match entries.find? fun e => e.gate = d with
  | some e => (ownVerdict known e).1
  | none => ((outsideVerdict known d).map Prod.fst).getD .notRun

def Sound (known : ExtTreeMap String Known) (entries : List Entry) (d : String) : Prop :=
  (∀ e ∈ entries, e.gate = d → e.section_ ≠ .blocked) ∧
    ∃ k, known[d]? = some k ∧ k.verdict = .pass ∧ k.receipt ≠ none

theorem own_entry (known : ExtTreeMap String Known) (hnd : (entries.map Entry.gate).Nodup) (he : e ∈ entries) :
    own known entries e.gate = (ownVerdict known e).1 := by
  unfold own
  cases hfind : entries.find? fun e' => e'.gate = e.gate with
  | none =>
    rw [List.find?_eq_none] at hfind
    exact absurd (decide_eq_true rfl) (hfind e he)
  | some e' =>
    have hgate : e'.gate = e.gate := by simpa using List.find?_some hfind
    rw [entry_unique hnd (List.mem_of_find?_eq_some hfind) he hgate]

theorem own_outside (h : d ∉ entries.map Entry.gate) :
    own known entries d = ((outsideVerdict known d).map Prod.fst).getD .notRun := by
  unfold own
  cases hfind : entries.find? fun e => e.gate = d with
  | none => rfl
  | some e =>
    have hgate : e.gate = d := by simpa using List.find?_some hfind
    exact absurd (List.mem_map.2 ⟨e, List.mem_of_find?_eq_some hfind, hgate⟩) h

theorem ownVerdict_pass : (ownVerdict known e).1 = .pass ↔
    e.section_ ≠ .blocked ∧ ∃ k, known[e.gate]? = some k ∧ k.verdict = .pass ∧ k.receipt ≠ none := by
  unfold ownVerdict
  cases hk : known[e.gate]? with
  | none => by_cases hb : e.section_ = .blocked <;> simp [hb]
  | some k =>
    by_cases hb : e.section_ = .blocked <;> by_cases hv : k.verdict = .pass <;> by_cases hr : k.receipt = none <;>
      simp [hb, hv, hr]

theorem outside_pass : ((outsideVerdict known d).map Prod.fst).getD .notRun = .pass ↔
    ∃ k, known[d]? = some k ∧ k.verdict = .pass ∧ k.receipt ≠ none := by
  unfold outsideVerdict
  cases hk : known[d]? with
  | none => simp
  | some k => by_cases hv : k.verdict = .pass <;> by_cases hr : k.receipt = none <;> simp [hv, hr, Option.filter]

theorem own_pass (hnd : (entries.map Entry.gate).Nodup) : own known entries d = .pass ↔ Sound known entries d := by
  unfold Sound
  by_cases hmem : d ∈ entries.map Entry.gate
  · obtain ⟨e, he, rfl⟩ := List.mem_map.1 hmem
    rw [own_entry known hnd he, ownVerdict_pass]
    refine and_congr_left fun _ => ⟨fun h e' he' hgate => ?_, fun h => h e he rfl⟩
    rw [entry_unique hnd he' he hgate]
    exact h
  · rw [own_outside hmem, outside_pass]
    refine (and_iff_right fun e he hgate => ?_).symm
    exact absurd (List.mem_map.2 ⟨e, he, hgate⟩) hmem

/-! ## Clear gates and causes -/

/-- All that `g` rests on is sound, itself included. -/
def Clear (known : ExtTreeMap String Known) (entries : List Entry) (g : String) : Prop :=
  ∀ x, ReflTransGen (Rests entries) g x → Sound known entries x

/-- A gate below `g` that is not PASS by itself, though all it rests on is clear. -/
structure Cause (known : ExtTreeMap String Known) (entries : List Entry) (g c : String) : Prop where
  below : ReflTransGen (Rests entries) g c
  own_ne : own known entries c ≠ .pass
  clear : ∀ d, Rests entries c d → Clear known entries d

theorem clear_iff : Clear known entries g ↔
    Sound known entries g ∧ ∀ d, Rests entries g d → Clear known entries d := by
  constructor
  · intro h
    exact ⟨h g .refl, fun d hd x hx => h x (.head hd hx)⟩
  · intro ⟨hself, hdeps⟩ x hx
    rcases ReflTransGen.cases_head hx with rfl | ⟨d, hd, hx⟩
    · exact hself
    · exact hdeps d hd x hx

theorem rests_entry (hnd : (entries.map Entry.gate).Nodup) (he : e ∈ entries) :
    Rests entries e.gate d ↔ d ∈ e.dependsOn := by
  constructor
  · intro ⟨e', he', hgate, hd⟩
    rwa [entry_unique hnd he' he hgate] at hd
  · exact fun hd => ⟨e, he, rfl, hd⟩

theorem not_rests (h : g ∉ entries.map Entry.gate) : ¬ Rests entries g d := by
  intro ⟨e, he, hgate, _⟩
  exact h (List.mem_map.2 ⟨e, he, hgate⟩)

/-- What decides a gate: one of its dependencies, or itself when they all pass. -/
theorem verdictOf_cases (known : ExtTreeMap String Known) (hord : Ordered entries) (hnd : (entries.map Entry.gate).Nodup) (g : String) :
    (∃ d, Rests entries g d ∧ verdictOf known entries d ≠ .pass ∧
        verdictOf known entries g = verdictOf known entries d) ∨
      (∀ d, Rests entries g d → verdictOf known entries d = .pass) ∧
        verdictOf known entries g = own known entries g := by
  by_cases hmem : g ∈ entries.map Entry.gate
  · obtain ⟨e, he, rfl⟩ := List.mem_map.1 hmem
    rw [verdictOf_eq known hord hnd he, own_entry known hnd he]
    cases hfind : (e.dependsOn.map (verdictOf known entries)).find? (· ≠ .pass) with
    | none =>
      right
      refine ⟨fun d hd => ?_, rfl⟩
      have hall := List.find?_eq_none.1 hfind _ (List.mem_map_of_mem ((rests_entry hnd he).1 hd))
      simpa using hall
    | some v =>
      left
      obtain ⟨d, hd, rfl⟩ := List.mem_map.1 (List.mem_of_find?_eq_some hfind)
      exact ⟨d, (rests_entry hnd he).2 hd, by simpa using List.find?_some hfind, rfl⟩
  · right
    exact ⟨fun d hd => absurd hd (not_rests hmem), (verdictOf_outside hmem).trans (own_outside hmem).symm⟩

theorem verdictOf_pass (hord : Ordered entries) (hnd : (entries.map Entry.gate).Nodup) (g : String) :
    verdictOf known entries g = .pass ↔ Clear known entries g := by
  induction g using rests_induction hord hnd with
  | step g ih =>
    rw [clear_iff]
    rcases verdictOf_cases known hord hnd g with ⟨d, hd, hne, heq⟩ | ⟨hdeps, heq⟩
    · rw [heq]
      exact iff_of_false hne fun h => hne ((ih d hd).2 (h.2 d hd))
    · rw [heq, own_pass hnd]
      exact (and_iff_left fun d hd => (ih d hd).1 (hdeps d hd)).symm

/-- A gate that is not clear takes the verdict of one of its causes. -/
theorem verdictOf_cause (hord : Ordered entries) (hnd : (entries.map Entry.gate).Nodup) (g : String)
    (h : ¬ Clear known entries g) :
    ∃ c, Cause known entries g c ∧ verdictOf known entries g = own known entries c := by
  induction g using rests_induction hord hnd with
  | step g ih =>
    rcases verdictOf_cases known hord hnd g with ⟨d, hd, hne, heq⟩ | ⟨hdeps, heq⟩
    · obtain ⟨c, hc, hown⟩ := ih d hd (mt (verdictOf_pass hord hnd d).2 hne)
      exact ⟨c, ⟨.head hd hc.below, hc.own_ne, hc.clear⟩, heq.trans hown⟩
    · refine ⟨g, ⟨.refl, ?_, fun d hd => (verdictOf_pass hord hnd d).1 (hdeps d hd)⟩, heq⟩
      rw [← heq]
      exact mt (verdictOf_pass hord hnd g).1 h

theorem Cause.not_clear (hnd : (entries.map Entry.gate).Nodup) {c : String} (hc : Cause known entries g c) :
    ¬ Clear known entries g := fun h => hc.own_ne ((own_pass hnd).2 (h c hc.below))

/-! ## The order inside a list -/

/-- The same entries, up to the order inside `depends_on`. -/
def Reordered : List Entry → List Entry → Prop :=
  List.Forall₂ fun e e' => ∃ ds, e.dependsOn.Perm ds ∧ e' = { e with dependsOn := ds }

section Reordered

variable {entries' : List Entry}

theorem Reordered.gates (h : Reordered entries entries') : entries'.map Entry.gate = entries.map Entry.gate := by
  induction h with
  | nil => rfl
  | cons he _ ih =>
    obtain ⟨ds, _, rfl⟩ := he
    rw [List.map_cons, List.map_cons, ih]

theorem Reordered.symm (h : Reordered entries entries') : Reordered entries' entries := by
  induction h with
  | nil => exact .nil
  | cons he _ ih =>
    obtain ⟨ds, hds, rfl⟩ := he
    exact .cons ⟨_, hds.symm, rfl⟩ ih

theorem Reordered.mem (h : Reordered entries entries') (he : e ∈ entries) :
    ∃ ds, e.dependsOn.Perm ds ∧ { e with dependsOn := ds } ∈ entries' := by
  induction h with
  | nil => exact absurd he List.not_mem_nil
  | cons he' _ ih =>
    obtain ⟨ds, hds, rfl⟩ := he'
    rcases List.mem_cons.1 he with rfl | he
    · exact ⟨ds, hds, List.mem_cons_self⟩
    · obtain ⟨ds', hds', hmem⟩ := ih he
      exact ⟨ds', hds', List.mem_cons_of_mem _ hmem⟩

theorem Reordered.rests (h : Reordered entries entries') (hr : Rests entries g d) : Rests entries' g d := by
  obtain ⟨e, he, rfl, hd⟩ := hr
  obtain ⟨ds, hds, hmem⟩ := h.mem he
  exact ⟨_, hmem, rfl, hds.mem_iff.1 hd⟩

theorem Reordered.rests_eq (h : Reordered entries entries') : Rests entries' = Rests entries := by
  funext g d
  exact propext ⟨h.symm.rests, h.rests⟩

theorem ordered_cons : Ordered (e :: entries) ↔
    (∀ d ∈ e.dependsOn, d ∉ (e :: entries).map Entry.gate) ∧ Ordered entries := by
  constructor
  · intro h
    exact ⟨h [] e entries rfl, fun before e' rest heq => h (e :: before) e' rest (by rw [heq, List.cons_append])⟩
  · intro ⟨hhead, htail⟩ before e' rest heq
    cases before with
    | nil =>
      obtain ⟨rfl, rfl⟩ := List.cons.inj heq
      exact hhead
    | cons e₀ before => exact htail before e' rest (List.cons.inj heq).2

theorem Reordered.ordered (h : Reordered entries entries') (hord : Ordered entries) : Ordered entries' := by
  induction h with
  | nil => exact hord
  | cons he htail ih =>
    obtain ⟨hhead, hord⟩ := ordered_cons.1 hord
    obtain ⟨ds, hds, rfl⟩ := he
    refine ordered_cons.2 ⟨fun d hd => ?_, ih hord⟩
    have hgates := hhead d (hds.mem_iff.2 hd)
    rw [List.map_cons] at hgates ⊢
    rwa [Reordered.gates htail]

theorem Reordered.own_eq (h : Reordered entries entries') (hnd : (entries.map Entry.gate).Nodup) (d : String) :
    own known entries' d = own known entries d := by
  have hnd' : (entries'.map Entry.gate).Nodup := by rwa [h.gates]
  by_cases hmem : d ∈ entries.map Entry.gate
  · obtain ⟨e, he, rfl⟩ := List.mem_map.1 hmem
    obtain ⟨ds, _, he'⟩ := h.mem he
    have hown := own_entry known hnd' he'
    rw [own_entry known hnd he]
    exact hown
  · rw [own_outside hmem, own_outside (by rwa [h.gates])]

theorem Reordered.clear_iff (h : Reordered entries entries') (hnd : (entries.map Entry.gate).Nodup) :
    Clear known entries' g ↔ Clear known entries g := by
  have hnd' : (entries'.map Entry.gate).Nodup := by rwa [h.gates]
  unfold Clear
  rw [h.rests_eq]
  simp only [← own_pass hnd, ← own_pass hnd', h.own_eq hnd]

theorem Reordered.cause (h : Reordered entries entries') (hnd : (entries.map Entry.gate).Nodup) {c : String}
    (hc : Cause known entries' g c) : Cause known entries g c where
  below := h.rests_eq ▸ hc.below
  own_ne := h.own_eq hnd c ▸ hc.own_ne
  clear := fun d hd => (h.clear_iff hnd).1 (hc.clear d (h.rests hd))

theorem exists_front (he : e ∈ entries) (hd : d ∈ e.dependsOn) :
    ∃ entries', Reordered entries entries' ∧ { e with dependsOn := d :: e.dependsOn.erase d } ∈ entries' := by
  obtain ⟨before, rest, rfl⟩ := List.append_of_mem he
  refine ⟨before ++ { e with dependsOn := d :: e.dependsOn.erase d } :: rest, ?_, by simp⟩
  have hsame : ∀ es : List Entry, Reordered es es := fun es => List.forall₂_same.2 fun e _ => ⟨_, .refl _, rfl⟩
  exact List.rel_append (hsame before) (.cons ⟨_, List.perm_cons_erase hd, rfl⟩ (hsame rest))

end Reordered

/-! ## The commit -/

/-- The verdicts that decide the commit, once it is not decided by the plan itself. -/
def requiredVerdicts (entries : List Entry) (verdict : String → Verdict) : List Verdict :=
  (entries.filter Entry.required).map fun e => verdict e.gate

theorem worstOf_fst (gates : ExtTreeMap String (Verdict × String)) (es : List Entry) (worst : Verdict × String) :
    (worstOf gates es worst).1 =
      (es.map fun e => ((gates[e.gate]?).getD (.notRun, "")).1).foldl Verdict.worse worst.1 := by
  induction es generalizing worst with
  | nil => rfl
  | cons e es ih =>
    unfold worstOf
    rw [List.map_cons, List.foldl_cons, ih]
    congr 1
    unfold Verdict.worse
    split <;> rfl

theorem commitVerdict_fst (plan : Plan) (gates : ExtTreeMap String (Verdict × String)) :
    (commitVerdict plan gates).1 =
      if plan.blocked ≠ none then .blockedOperator
      else if plan.unmapped ≠ [] ∨ plan.removed ≠ [] ∨ plan.entries.filter Entry.required = [] then .notRun
      else campaignVerdict (requiredVerdicts plan.entries fun g => ((gates[g]?).getD (.notRun, "")).1) := by
  unfold commitVerdict
  cases plan.blocked with
  | some b => rfl
  | none =>
    rw [if_neg (not_not.2 rfl)]
    by_cases hunmapped : plan.unmapped = [] <;> by_cases hremoved : plan.removed = [] <;>
      by_cases hreq : plan.entries.filter Entry.required = [] <;> simp only [hunmapped, hremoved, hreq, ne_eq,
        not_true_eq_false, not_false_eq_true, if_true, if_false, true_or, or_true, or_self]
    unfold campaignVerdict requiredVerdicts
    cases hfind : (plan.entries.filter Entry.required).find? fun e =>
        ((gates[e.gate]?).getD (.notRun, "")).1 = .fail with
    | some e =>
      have hfail := List.find?_some hfind
      rw [if_pos (List.mem_map.2 ⟨e, List.mem_of_find?_eq_some hfind, by simpa using hfail⟩)]
    | none =>
      have hnone : Verdict.fail ∉ (plan.entries.filter Entry.required).map fun e =>
          ((gates[e.gate]?).getD (.notRun, "")).1 := by
        rw [List.mem_map]
        rintro ⟨e, he, hfail⟩
        exact List.find?_eq_none.1 hfind e he (decide_eq_true hfail)
      rw [if_neg hnone]
      exact worstOf_fst _ _ _

theorem get_judgeEntries (known : ExtTreeMap String Known) (hmem : g ∈ entries.map Entry.gate) :
    ∃ r, (judgeEntries known entries)[g]? = some (verdictOf known entries g, r) := by
  have hsome : ∃ v, (judgeEntries known entries)[g]? = some v := by
    induction entries using List.reverseRecOn with
    | nil => exact absurd hmem List.not_mem_nil
    | append_singleton es e ih =>
      unfold judgeEntries
      rw [List.foldl_append, List.foldl_cons, List.foldl_nil]
      unfold judgeEntry
      rw [Table.get_insert]
      split_ifs with hgate
      · exact ⟨_, rfl⟩
      · rw [List.map_append, List.mem_append] at hmem
        refine ih (hmem.resolve_right fun h => hgate ?_)
        exact (List.mem_singleton.1 h).symm
  obtain ⟨⟨v, r⟩, hv⟩ := hsome
  refine ⟨r, ?_⟩
  unfold verdictOf seen
  rw [hv]
  rfl

def Judged.verdictAt (judged : Judged) (g : String) : Option Verdict := judged.gates[g]?.map Prod.fst

theorem verdictAt_judge (plan : Plan) (g : String) : (judge known plan).verdictAt g =
    if g ∈ plan.entries.map Entry.gate then some (verdictOf known plan.entries g) else none := by
  unfold Judged.verdictAt judge
  split_ifs with hmem
  · obtain ⟨r, hget⟩ := get_judgeEntries known hmem
    rw [hget]
    rfl
  · have hget := get_judgeEntries_append known [] plan.entries hmem
    rw [List.nil_append] at hget
    rw [hget]
    exact congrArg (Option.map Prod.fst) ExtTreeMap.getElem?_empty

theorem judge_verdict (known : ExtTreeMap String Known) (plan : Plan) : (judge known plan).verdict =
    if plan.blocked ≠ none then .blockedOperator
    else if plan.unmapped ≠ [] ∨ plan.removed ≠ [] ∨ plan.entries.filter Entry.required = [] then .notRun
    else campaignVerdict (requiredVerdicts plan.entries (verdictOf known plan.entries)) := by
  have hsame : requiredVerdicts plan.entries (fun g => (((judgeEntries known plan.entries)[g]?).getD (.notRun, "")).1) =
      requiredVerdicts plan.entries (verdictOf known plan.entries) := by
    refine List.map_congr_left fun e he => ?_
    have hmem : e.gate ∈ plan.entries.map Entry.gate := List.mem_map_of_mem (List.mem_of_mem_filter he)
    obtain ⟨r, hget⟩ := get_judgeEntries known hmem
    simp only [hget, Option.getD_some]
  rw [← hsame]
  exact commitVerdict_fst plan _

theorem judge_pass {plan : Plan} (hord : Ordered plan.entries) : (judge known plan).verdict = .pass ↔
    plan.blocked = none ∧ plan.unmapped = [] ∧ plan.removed = [] ∧ (∃ e ∈ plan.entries, e.required) ∧
      ∀ e ∈ plan.entries, e.required → Clear known plan.entries e.gate := by
  have hreq : (∃ e ∈ plan.entries, e.required = true) ↔ plan.entries.filter Entry.required ≠ [] := by
    rw [ne_eq, List.filter_eq_nil_iff]
    push Not
    rfl
  have hall : (∀ v ∈ requiredVerdicts plan.entries (verdictOf known plan.entries), v = .pass) ↔
      ∀ e ∈ plan.entries, e.required = true → Clear known plan.entries e.gate := by
    unfold requiredVerdicts
    rw [List.forall_mem_map]
    simp only [List.mem_filter, verdictOf_pass hord plan.distinct, and_imp]
  rw [judge_verdict, hreq, ← hall]
  split_ifs with hblocked hplan
  · exact iff_of_false (by decide) fun h => hblocked h.1
  · refine iff_of_false (by decide) fun h => ?_
    rcases hplan with hplan | hplan | hplan
    · exact hplan h.2.1
    · exact hplan h.2.2.1
    · exact h.2.2.2.1 hplan
  · push Not at hblocked hplan
    rw [campaignVerdict_pass]
    exact ⟨fun h => ⟨hblocked, hplan.1, hplan.2.1, hplan.2.2, h⟩, fun h => h.2.2.2.2⟩

/-! ## Exactness -/

/-- The same plan, with names inside `depends_on` in another order. -/
def Plan.reorder (plan : Plan) (entries : List Entry) (h : Reordered plan.entries entries) : Plan :=
  { plan with entries := entries, distinct := h.gates ▸ plan.distinct }

/-- What the algebra promises about a plan and what is known. -/
structure Exact (known : ExtTreeMap String Known) (plan : Plan) : Prop where
  pass : (judge known plan).verdict = .pass ↔
    plan.blocked = none ∧ plan.unmapped = [] ∧ plan.removed = [] ∧ (∃ e ∈ plan.entries, e.required) ∧
      ∀ e ∈ plan.entries, e.required → Clear known plan.entries e.gate
  failed : ∀ e ∈ plan.entries, ∀ d ∈ e.dependsOn, (judge known plan).verdictAt d = some .fail →
    (judge known plan).verdictAt e.gate = some .fail
  unordered : ∀ entries' (h : Reordered plan.entries entries'),
    (judge known (plan.reorder entries' h)).verdict = (judge known plan).verdict ∧
      ∀ g, (judge known (plan.reorder entries' h)).verdictAt g = (judge known plan).verdictAt g

theorem causes_agree (hord : Ordered entries) (hnd : (entries.map Entry.gate).Nodup)
    (hsame : ∀ entries', Reordered entries entries' → ∀ g, verdictOf known entries' g = verdictOf known entries g)
    (g c : String) (hc : Cause known entries g c) : own known entries c = verdictOf known entries g := by
  induction g using rests_induction hord hnd with
  | step g ih =>
    rcases ReflTransGen.cases_head hc.below with rfl | ⟨d, hd, hbelow⟩
    · rcases verdictOf_cases known hord hnd g with ⟨d, hd, hne, _⟩ | ⟨_, heq⟩
      · exact absurd ((verdictOf_pass hord hnd d).2 (hc.clear d hd)) hne
      · exact heq.symm
    · -- With `d` in front, `g` takes the verdict of `d`.
      have hcd : Cause known entries d c := ⟨hbelow, hc.own_ne, hc.clear⟩
      obtain ⟨e, he, rfl, hmem⟩ := hd
      obtain ⟨entries', hre, he'⟩ := exists_front he hmem
      have hne : verdictOf known entries d ≠ .pass := mt (verdictOf_pass hord hnd d).1 (hcd.not_clear hnd)
      have hfront := verdictOf_eq known (hre.ordered hord) (by rwa [hre.gates]) he'
      rw [List.map_cons, hsame entries' hre d, List.find?_cons, decide_eq_true hne] at hfront
      have hg : verdictOf known entries' e.gate = verdictOf known entries d := hfront
      rw [ih d ⟨e, he, rfl, hmem⟩ hcd, ← hg, hsame entries' hre]

theorem verdictOf_reordered (hord : Ordered entries) (hnd : (entries.map Entry.gate).Nodup) {entries' : List Entry}
    (h : Reordered entries entries') (g : String)
    (hagree : ∀ c c', Cause known entries g c → Cause known entries g c' → own known entries c = own known entries c') :
    verdictOf known entries' g = verdictOf known entries g := by
  have hord' := h.ordered hord
  have hnd' : (entries'.map Entry.gate).Nodup := by rwa [h.gates]
  by_cases hclear : Clear known entries g
  · rw [(verdictOf_pass hord hnd g).2 hclear, (verdictOf_pass hord' hnd' g).2 ((h.clear_iff hnd).2 hclear)]
  · obtain ⟨c, hc, hown⟩ := verdictOf_cause hord hnd g hclear
    obtain ⟨c', hc', hown'⟩ := verdictOf_cause hord' hnd' g (mt (h.clear_iff hnd).1 hclear)
    rw [hown, hown', h.own_eq hnd]
    exact hagree c' c (h.cause hnd hc') hc

def Agree (known : ExtTreeMap String Known) (entries : List Entry) : Prop :=
  ∀ e ∈ entries, ∀ c c', Cause known entries e.gate c → Cause known entries e.gate c' →
    own known entries c = own known entries c'

theorem Agree.verdictOf_eq {plan : Plan} (h : Agree known plan.entries) (hord : Ordered plan.entries)
    {entries' : List Entry} (hre : Reordered plan.entries entries') (g : String) :
    verdictOf known entries' g = verdictOf known plan.entries g := by
  by_cases hmem : g ∈ plan.entries.map Entry.gate
  · obtain ⟨e, he, rfl⟩ := List.mem_map.1 hmem
    exact verdictOf_reordered hord plan.distinct hre e.gate (h e he)
  · rw [verdictOf_outside hmem, verdictOf_outside (by rwa [hre.gates])]

theorem requiredVerdicts_reordered {entries' : List Entry} (h : Reordered entries entries') {verdict verdict' : String → Verdict}
    (hv : ∀ g, verdict' g = verdict g) :
    requiredVerdicts entries' verdict' = requiredVerdicts entries verdict := by
  obtain rfl : verdict' = verdict := funext hv
  unfold requiredVerdicts
  induction h with
  | nil => rfl
  | @cons e e' es es' he _ ih =>
    obtain ⟨ds, _, rfl⟩ := he
    simp only [List.filter_cons]
    split_ifs
    · rw [List.map_cons, List.map_cons, ih]
    · exact ih

theorem filter_required_reordered {entries' : List Entry} (h : Reordered entries entries') :
    entries'.filter Entry.required = [] ↔ entries.filter Entry.required = [] := by
  have hmap : requiredVerdicts entries' (fun _ => .pass) = requiredVerdicts entries (fun _ => .pass) :=
    requiredVerdicts_reordered h fun _ => rfl
  unfold requiredVerdicts at hmap
  rw [← List.map_eq_nil_iff (f := fun _ => Verdict.pass), hmap, List.map_eq_nil_iff]

/-- The algebra is exact when, below each gate, the first gates that are not PASS by themselves agree. -/
theorem judge_exact_iff (known : ExtTreeMap String Known) (plan : Plan) (hord : Ordered plan.entries) :
    Exact known plan ↔ Agree known plan.entries := by
  constructor
  · intro h e he c c' hc hc'
    have hsame : ∀ entries', Reordered plan.entries entries' → ∀ g,
        verdictOf known entries' g = verdictOf known plan.entries g := by
      intro entries' hre g
      have hat := (h.unordered entries' hre).2 g
      rw [verdictAt_judge, verdictAt_judge] at hat
      have hgates : (plan.reorder entries' hre).entries.map Entry.gate = plan.entries.map Entry.gate := hre.gates
      rw [hgates] at hat
      split_ifs at hat with hmem
      · exact Option.some.inj hat
      · rw [verdictOf_outside hmem, verdictOf_outside (by rwa [hre.gates])]
    rw [causes_agree hord plan.distinct hsame _ c hc, causes_agree hord plan.distinct hsame _ c' hc']
  · intro h
    refine ⟨judge_pass hord, fun e he d hd hfail => ?_, fun entries' hre => ⟨?_, fun g => ?_⟩⟩
    · rw [verdictAt_judge] at hfail
      rw [verdictAt_judge, if_pos (List.mem_map_of_mem he)]
      split_ifs at hfail with hmem
      have hd' : verdictOf known plan.entries d = .fail := Option.some.inj hfail
      have hclear : ¬ Clear known plan.entries d := fun hclear => by
        rw [(verdictOf_pass hord plan.distinct d).2 hclear] at hd'
        exact absurd hd' (by decide)
      obtain ⟨c, hc, hown⟩ := verdictOf_cause hord plan.distinct d hclear
      have hce : Cause known plan.entries e.gate c := ⟨.head ⟨e, he, rfl, hd⟩ hc.below, hc.own_ne, hc.clear⟩
      obtain ⟨c', hc', hown'⟩ := verdictOf_cause hord plan.distinct e.gate (hce.not_clear plan.distinct)
      rw [hown', h e he c' c hc' hce, ← hown, hd']
    · rw [judge_verdict, judge_verdict]
      have hlist : requiredVerdicts (plan.reorder entries' hre).entries (verdictOf known entries') =
          requiredVerdicts plan.entries (verdictOf known plan.entries) :=
        requiredVerdicts_reordered hre (h.verdictOf_eq hord hre)
      have hreq : (plan.reorder entries' hre).entries.filter Entry.required = [] ↔
          plan.entries.filter Entry.required = [] := filter_required_reordered hre
      have hentries : (plan.reorder entries' hre).entries = entries' := rfl
      rw [hentries] at hlist hreq ⊢
      simp only [hlist, hreq]
      rfl
    · have hgates : (plan.reorder entries' hre).entries.map Entry.gate = plan.entries.map Entry.gate := hre.gates
      rw [verdictAt_judge, verdictAt_judge, hgates]
      exact if_congr Iff.rfl (congrArg some (h.verdictOf_eq hord hre g)) rfl

def mixedPlan : Plan where
  entries := [⟨"a", "", .host, .exact, .portable, true, .required, "", [], false, ""⟩,
    ⟨"b", "", .host, .exact, .portable, true, .required, "", [], false, ""⟩,
    ⟨"c", "", .host, .exact, .portable, true, .required, "", ["a", "b"], false, ""⟩]
  distinct := by decide

def mixedKnown : ExtTreeMap String Known :=
  (∅ : ExtTreeMap String Known).insert "b" ⟨.fail, "EXIT_STATUS", some "sha256:b"⟩

theorem mixed_ordered : Ordered mixedPlan.entries := by
  have hnil : Ordered [] := fun before e rest h => absurd h.symm (by simp)
  unfold mixedPlan
  refine ordered_cons.2 ⟨by simp, ordered_cons.2 ⟨by simp, ordered_cons.2 ⟨by simp, hnil⟩⟩⟩

theorem mixed_not_fail : Ordered mixedPlan.entries ∧ ¬ Exact mixedKnown mixedPlan := by
  refine ⟨mixed_ordered, fun h => ?_⟩
  have hfirst : verdictOf mixedKnown mixedPlan.entries "a" = .notRun := by
    have hown : (ownVerdict mixedKnown mixedPlan.entries[0]).1 = .notRun := by
      simp [ownVerdict, mixedKnown, mixedPlan]
    exact (verdictOf_eq _ mixed_ordered mixedPlan.distinct (e := mixedPlan.entries[0]) (by decide)).trans hown
  have hsecond : verdictOf mixedKnown mixedPlan.entries "b" = .fail := by
    have hown : (ownVerdict mixedKnown mixedPlan.entries[1]).1 = .fail := by
      simp [ownVerdict, mixedKnown, mixedPlan]
    exact (verdictOf_eq _ mixed_ordered mixedPlan.distinct (e := mixedPlan.entries[1]) (by decide)).trans hown
  have hthird : verdictOf mixedKnown mixedPlan.entries "c" = .notRun := by
    have heq := verdictOf_eq mixedKnown mixed_ordered mixedPlan.distinct (e := mixedPlan.entries[2]) (by decide)
    have hdeps : mixedPlan.entries[2].dependsOn = ["a", "b"] := rfl
    rw [hdeps, List.map_cons, hfirst] at heq
    exact heq
  have hfailed := h.failed mixedPlan.entries[2] (by decide) "b" (by decide)
  have hgate : mixedPlan.entries[2].gate = "c" := rfl
  rw [hgate, verdictAt_judge, verdictAt_judge, if_pos (by decide), if_pos (by decide), hsecond, hthird] at hfailed
  exact absurd (hfailed rfl) (by decide)

/-- Where no gate has a result, all causes are NOT_RUN. -/
theorem mixed_unknown : Ordered mixedPlan.entries ∧ Exact ∅ mixedPlan := by
  refine ⟨mixed_ordered, (judge_exact_iff ∅ mixedPlan mixed_ordered).2 ?_⟩
  have hown : ∀ d, own ∅ mixedPlan.entries d = .notRun := by
    intro d
    by_cases hmem : d ∈ mixedPlan.entries.map Entry.gate
    · obtain ⟨e, he, rfl⟩ := List.mem_map.1 hmem
      rw [own_entry _ mixedPlan.distinct he]
      have hsection : e.section_ ≠ .blocked := by
        revert e
        decide
      simp [ownVerdict, hsection]
    · rw [own_outside hmem]
      simp [outsideVerdict]
  intro e _ c c' _ _
  rw [hown, hown]

end SovereignCore.AienTest
