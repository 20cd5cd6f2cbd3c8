import SovereignCore.Evidence.Chain
import SovereignCore.Lib.Result

/-!
# The outcome of a chain

What the report of a chain says depends on the graph below its root and on the verdicts there, not on the order of the
walk.

* `visit_keeps` : a rule for what every visit keeps;
* `outcome`, `chain_outcome` : the status of the report and the kinds on its lines, from the graph;
* `ResolveAlike`, `outcome_congr` : resolvers that differ in nothing the outcome reads.
-/

namespace SovereignCore.Evidence

open Text Reach Relation Std Result

variable {lease : Receipt → Option Report} {resolve : Resolver} {root : Receipt} {rootReport : Report}
variable {w w' : Walker} {id : String}

/-! ## A rule for visits -/

theorem foldlM_rel {σ α : Type} {f : σ → α → Option σ} {R : σ → σ → Prop} (hrefl : ∀ s, R s s)
    (htrans : ∀ s t u, R s t → R t u → R s u) (h : ∀ s a t, f s a = some t → R s t) (l : List α) {s t : σ}
    (hl : l.foldlM f s = some t) : R s t := by
  induction l generalizing s with
  | nil => exact Option.some.inj hl ▸ hrefl s
  | cons a l ih =>
    rw [List.foldlM_cons] at hl
    obtain ⟨u, hu, hl⟩ := Option.bind_eq_some_iff.1 hl
    exact htrans s u t (h s a u hu) (ih hl)

namespace Walker

def Met (w : Walker) (id : String) : Prop := ∃ l ∈ w.lines, l.id = id

theorem record_lines (w : Walker) (id : String) (depth : Nat) (r : Receipt) (report : Report) (l : Option Report) :
    ∃ line : ChainLine, line.id = id ∧ line.kind = r.kind ∧
      (w.record id depth r report l).lines = w.lines ++ [line] := by
  let status := if l.any (·.status ≠ .pass) ∧ report.status = .pass then .incomplete else report.status
  refine ⟨⟨id, r.kind, r.tier, status, depth, noteText report l status⟩, rfl, rfl, ?_⟩
  unfold record
  dsimp only
  rw [noteStatus_lines, noteLease_lines]

end Walker

/-- What the begin of a visit, its end and a cycle keep, the whole visit keeps. Ids that have a line keep it. -/
theorem visit_keeps {P : Walker → Prop}
    (hmiss : ∀ w id depth e, P w → resolve id = .error e → P ((w.enter id).miss id depth e))
    (hrecord : ∀ w id depth r report, P w → resolve id = .ok (r, report) →
      P ((w.enter id).record id depth r report (lease r)))
    (hleave : ∀ w id, P w → w.Met id → P (w.leave id)) (hcycle : ∀ w c, P w → P { w with cycle := c })
    {fuel depth : Nat} (h : Walker.visit lease resolve fuel w id depth = some w') :
    (P w → P w') ∧ ∀ x, w.Met x → w'.Met x := by
  induction fuel generalizing w id depth w' with
  | zero => cases h
  | succ fuel ih =>
    unfold Walker.visit at h
    split_ifs at h with hdone hvis
    · cases h
      exact ⟨fun hP => hP, fun _ hx => hx⟩
    · cases h
      exact ⟨hcycle w _, fun _ hx => hx⟩
    · dsimp only at h
      cases hres : resolve id with
      | error e =>
        rw [hres] at h
        cases h
        have hmet : ((w.enter id).miss id depth e).Met id := ⟨_, List.mem_append_right _ (List.mem_singleton_self _), rfl⟩
        refine ⟨fun hP => hleave _ id (hmiss w id depth e hP hres) hmet, ?_⟩
        rintro x ⟨l, hl, hx⟩
        exact ⟨l, List.mem_append_left _ hl, hx⟩
      | ok pair =>
        obtain ⟨r, report⟩ := pair
        rw [hres] at h
        obtain ⟨w1, hw1, rfl⟩ := Option.map_eq_some_iff.1 h
        obtain ⟨hP1, hmet1⟩ := foldlM_rel (R := fun a b : Walker => (P a → P b) ∧ ∀ x, a.Met x → b.Met x)
          (fun _ => ⟨fun hP => hP, fun _ hx => hx⟩)
          (fun _ _ _ h1 h2 => ⟨fun hP => h2.1 (h1.1 hP), fun x hx => h2.2 x (h1.2 x hx)⟩) (fun _ _ _ => ih) _ hw1
        obtain ⟨line, hid, -, hlines⟩ := Walker.record_lines (w.enter id) id depth r report (lease r)
        have hmet : w1.Met id := by
          apply hmet1
          exact ⟨line, hlines ▸ List.mem_append_right _ (List.mem_singleton_self _), hid⟩
        refine ⟨fun hP => hleave w1 id (hP1 (hrecord w id depth r report hP hres)) hmet, ?_⟩
        rintro x ⟨l, hl, hx⟩
        exact hmet1 x ⟨l, hlines ▸ List.mem_append_left _ hl, hx⟩

/-! ## What is noted of an id -/

/-- Noted as failed, from the status of the report and that of the lease. -/
def Fails (status : Verdict) (lease : Option Verdict) : Prop := lease = some .fail ∨ status = .fail

def Lacks (status : Verdict) (lease : Option Verdict) : Prop :=
  lease = some .incomplete ∨ status = .incomplete ∨ (status = .pass ∧ lease.any (· ≠ .pass))

def Blocks (status : Verdict) (lease : Option Verdict) : Prop :=
  lease = some .blocked ∨ lease = some .skipped ∨ status = .blocked ∨ status = .skipped

/-- `P` holds of what `x` resolves to, `unresolved` if it does not resolve. -/
def At (lease : Receipt → Option Report) (resolve : Resolver) (unresolved : Prop)
    (P : Verdict → Option Verdict → Prop) (x : String) : Prop :=
  match resolve x with
  | .error _ => unresolved
  | .ok (r, report) => P report.status ((lease r).map (·.status))

/-- The kind on the line of `x`. -/
def kindAt (resolve : Resolver) (x : String) : String :=
  match resolve x with
  | .error _ => "?"
  | .ok (r, _) => r.kind

theorem at_error {e : String} {unresolved : Prop} {P : Verdict → Option Verdict → Prop} (h : resolve id = .error e) :
    At lease resolve unresolved P id ↔ unresolved := by
  unfold At
  rw [h]

theorem at_ok {r : Receipt} {report : Report} {unresolved : Prop} {P : Verdict → Option Verdict → Prop}
    (h : resolve id = .ok (r, report)) :
    At lease resolve unresolved P id ↔ P report.status ((lease r).map (·.status)) := by
  unfold At
  rw [h]

namespace Walker

theorem record_notes (w : Walker) (id : String) (depth : Nat) (r : Receipt) (report : Report) (l : Option Report) :
    ((w.record id depth r report l).failed = [] ↔
      w.failed = [] ∧ ¬ Fails report.status (l.map (·.status))) ∧
    ((w.record id depth r report l).missing = [] ↔ w.missing = [] ∧ ¬ Lacks report.status (l.map (·.status))) ∧
    ((w.record id depth r report l).blocked = [] ↔ w.blocked = [] ∧ ¬ Blocks report.status (l.map (·.status))) := by
  unfold record noteLease noteStatus Fails Lacks Blocks
  dsimp only
  cases l with
  | none => cases report.status <;> simp
  | some l =>
    obtain ⟨status, reasons⟩ := l
    cases status <;> cases report.status <;> simp

end Walker

/-- What the walk notes: an entry in a list for every id that calls for it, and the kind of every id. -/
structure Told (lease : Receipt → Option Report) (resolve : Resolver) (rootReport : Report) (w : Walker) : Prop where
  failed : w.failed = [] ↔ rootReport.status ≠ .fail ∧ ∀ l ∈ w.lines, ¬ At lease resolve False Fails l.id
  missing : w.missing = [] ↔ ∀ l ∈ w.lines, ¬ At lease resolve True Lacks l.id
  blocked : w.blocked = [] ↔ ∀ l ∈ w.lines, ¬ At lease resolve False Blocks l.id
  kinds : ∀ l ∈ w.lines, l.kind = kindAt resolve l.id
  met : ∀ x, x ∈ w.visiting ∨ x ∈ w.done ↔ w.Met x

theorem Told.append (h : Told lease resolve rootReport w) {line : ChainLine} (hlines : w'.lines = w.lines ++ [line])
    (hkind : line.kind = kindAt resolve line.id) (hv : w'.visiting = insert line.id w.visiting)
    (hd : w'.done = w.done) (hf : w'.failed = [] ↔ w.failed = [] ∧ ¬ At lease resolve False Fails line.id)
    (hm : w'.missing = [] ↔ w.missing = [] ∧ ¬ At lease resolve True Lacks line.id)
    (hb : w'.blocked = [] ↔ w.blocked = [] ∧ ¬ At lease resolve False Blocks line.id) :
    Told lease resolve rootReport w' := by
  have hall : ∀ Q : ChainLine → Prop, (∀ l ∈ w'.lines, Q l) ↔ (∀ l ∈ w.lines, Q l) ∧ Q line := by
    intro Q
    simp [hlines, or_imp, forall_and]
  constructor
  · rw [hf, h.failed, hall, and_assoc]
  · rw [hm, h.missing, hall]
  · rw [hb, h.blocked, hall]
  · exact (hall _).2 ⟨h.kinds, hkind⟩
  · intro x
    have hmet : w'.Met x ↔ w.Met x ∨ line.id = x := by
      unfold Walker.Met
      rw [hlines]
      simp [or_and_right, exists_or]
    rw [hmet, ← h.met, hv, hd, Finset.mem_insert, eq_comm (a := x), or_assoc, or_comm]

theorem Told.miss {depth : Nat} {e : String} (h : Told lease resolve rootReport w) (hres : resolve id = .error e) :
    Told lease resolve rootReport ((w.enter id).miss id depth e) := by
  have hlines : ((w.enter id).miss id depth e).lines =
      w.lines ++ [⟨id, "?", .testOnlyTrust, .incomplete, depth, "MISSING"⟩] := rfl
  apply h.append hlines
  · unfold kindAt
    rw [hres]
  · rfl
  · rfl
  · rw [at_error hres]
    simp [Walker.miss, Walker.enter]
  · rw [at_error hres]
    simp [Walker.miss]
  · rw [at_error hres]
    simp [Walker.miss, Walker.enter]

theorem Told.record {depth : Nat} {r : Receipt} {report : Report} (h : Told lease resolve rootReport w)
    (hres : resolve id = .ok (r, report)) :
    Told lease resolve rootReport ((w.enter id).record id depth r report (lease r)) := by
  obtain ⟨line, hid, hkind, hlines⟩ := Walker.record_lines (w.enter id) id depth r report (lease r)
  obtain ⟨hv, hd, -⟩ := Walker.record_sets (w.enter id) id depth r report (lease r)
  obtain ⟨hf, hm, hb⟩ := Walker.record_notes (w.enter id) id depth r report (lease r)
  subst hid
  apply h.append hlines _ hv hd
  · rw [hf, at_ok hres]
    rfl
  · rw [hm, at_ok hres]
    rfl
  · rw [hb, at_ok hres]
    rfl
  · unfold kindAt
    rw [hkind, hres]

theorem Told.leave (h : Told lease resolve rootReport w) (hmet : w.Met id) :
    Told lease resolve rootReport (w.leave id) := by
  refine ⟨h.failed, h.missing, h.blocked, h.kinds, ?_⟩
  intro x
  have hx : (w.leave id).Met x ↔ w.Met x := Iff.rfl
  rw [hx, ← h.met]
  simp only [Walker.leave, Finset.mem_erase, Finset.mem_insert]
  by_cases hid : x = id
  · subst hid
    simp [(h.met x).2 hmet]
  · simp [hid]

theorem told_initial (failed : List String) (hf : failed = [] ↔ rootReport.status ≠ .fail) :
    Told lease resolve rootReport { Walker.initial with failed := failed } where
  failed := by simp [Walker.initial, hf]
  missing := by simp [Walker.initial]
  blocked := by simp [Walker.initial]
  kinds := by simp [Walker.initial]
  met := by simp [Walker.initial, Walker.Met]

theorem told_visit {fuel depth : Nat} (h : Walker.visit lease resolve fuel w id depth = some w')
    (ht : Told lease resolve rootReport w) : Told lease resolve rootReport w' :=
  (visit_keeps (fun _ _ _ _ hP hres => hP.miss hres) (fun _ _ _ _ _ hP hres => hP.record hres)
    (fun _ _ hP hmet => hP.leave hmet)
    (fun _ _ hP => ⟨hP.failed, hP.missing, hP.blocked, hP.kinds, hP.met⟩) h).1 ht

theorem told_walk {fuel : Nat} (h : walk lease resolve fuel root rootReport = some w) :
    Told lease resolve rootReport w := by
  have hstart : Told lease resolve rootReport (startWalker root rootReport) := by
    unfold startWalker
    split
    · exact told_initial _ (by simp [*])
    · exact told_initial [] (by simp [*])
  have hkeeps := foldlM_rel (R := fun a b => Told lease resolve rootReport a → Told lease resolve rootReport b)
    (fun _ hP => hP) (fun _ _ _ h1 h2 hP => h2 (h1 hP)) (fun _ _ _ hvisit => told_visit hvisit) _ h
  exact hkeeps hstart

/-! ## The outcome -/

def SomeBelow (resolve : Resolver) (root : Receipt) (P : String → Prop) : Prop := ∃ x, Below resolve root x ∧ P x

open Classical in
noncomputable def outcome (lease : Receipt → Option Report) (resolve : Resolver) (root : Receipt)
    (rootReport : Report) : Verdict :=
  if Cyclic resolve root then .fail
  else if root.tier = .production ∧ SomeBelow resolve root (HasTier resolve .testOnlyTrust) then .fail
  else if rootReport.status = .fail ∨ SomeBelow resolve root (At lease resolve False Fails) then .fail
  else if SomeBelow resolve root (At lease resolve True Lacks) then .incomplete
  else if SomeBelow resolve root (At lease resolve False Blocks) then .blocked
  else rootReport.status

theorem chainReport_status (h : w.cycle = none) : (chainReport root rootReport w).status =
    if root.tier = .production ∧
        ((w.graph.toList.map Prod.snd).filter (·.tier = .testOnlyTrust)).map (·.id) ≠ [] then .fail
    else if w.failed ≠ [] ∨ rootReport.status = .fail then .fail
    else if w.missing ≠ [] then .incomplete
    else if w.blocked ≠ [] then .blocked
    else rootReport.status := by
  unfold chainReport
  rw [h]
  dsimp only
  by_cases hf : w.failed ≠ []
  · rw [if_pos hf, if_pos (Or.inl hf)]
    split_ifs <;> rfl
  · rw [if_neg hf]
    by_cases hr : rootReport.status = .fail
    · rw [if_pos hr, if_pos (Or.inr hr)]
      split_ifs <;> rfl
    · rw [if_neg hr, if_neg (not_or.2 ⟨hf, hr⟩)]
      split_ifs with h1 h2 h3 h4
      · rfl
      · rfl
      · rfl
      · exact h4.symm
      · rfl

/-- The chain report has the status that the graph gives; without a cycle its lines have the kinds below the root. -/
theorem chain_outcome (lease : Receipt → Option Report) (rootReport : Report) {B : Finset String}
    (hB : ∀ x, Below resolve root x → x ∈ B) {fuel : Nat} (hfuel : B.card < fuel) :
    ∃ report, verifyGraph lease resolve fuel root rootReport = some report ∧
      report.status = outcome lease resolve root rootReport ∧
      (¬ Cyclic resolve root → ∀ kind, (∃ l ∈ report.lines, l.kind = kind) ↔
        SomeBelow resolve root fun x => kindAt resolve x = kind) := by
  obtain ⟨w, hw, hwalk⟩ := walked_root lease rootReport hB hfuel
  have htold := told_walk hw
  refine ⟨chainReport root rootReport w, verifyGraph_of_walk hw, ?_⟩
  obtain ⟨hcycle, hex⟩ | ⟨hcycle, hfits, -, hall⟩ := hwalk
  · obtain ⟨c, hc⟩ := Option.isSome_iff_exists.1 hcycle
    refine ⟨?_, fun hno => absurd hex hno⟩
    unfold chainReport outcome
    rw [hc, if_pos hex]
  · have hno : ¬ Cyclic resolve root := by
      rintro ⟨x, hx, hxx⟩
      exact hfits.acyclic x (hall x hx) hxx
    -- the lines are those of the ids below the root
    have hseen : ∀ x, Below resolve root x ↔ w.Met x := by
      intro x
      rw [← htold.met]
      exact ⟨fun hx => Or.inr (hall x hx), hfits.below x⟩
    have hlines : ∀ P : String → Prop, (∀ l ∈ w.lines, ¬ P l.id) ↔ ¬ SomeBelow resolve root P := by
      intro P
      constructor
      · rintro h ⟨x, hx, hP⟩
        obtain ⟨l, hl, rfl⟩ := (hseen x).1 hx
        exact h l hl hP
      · intro h l hl hP
        exact h ⟨l.id, (hseen l.id).2 ⟨l, hl, rfl⟩, hP⟩
    have htaint : (((w.graph.toList.map Prod.snd).filter (·.tier = .testOnlyTrust)).map (·.id) ≠ []) ↔
        SomeBelow resolve root (HasTier resolve .testOnlyTrust) := by
      rw [Ne, taint_eq_nil]
      constructor
      · intro h
        push Not at h
        obtain ⟨x, r, hr, htier⟩ := h
        obtain ⟨hx, report, hres⟩ := (hfits.graph x r).1 hr
        exact ⟨x, hfits.below x hx, r, report, hres, htier⟩
      · rintro ⟨x, hx, r, report, hres, htier⟩ h
        exact h x r ((hfits.graph x r).2 ⟨Or.inr (hall x hx), report, hres⟩) htier
    have hf : w.failed ≠ [] ↔ rootReport.status = .fail ∨ SomeBelow resolve root (At lease resolve False Fails) := by
      rw [Ne, htold.failed, hlines, not_and_or, not_not, not_not]
    have hm : w.missing ≠ [] ↔ SomeBelow resolve root (At lease resolve True Lacks) := by
      rw [Ne, htold.missing, hlines, not_not]
    have hb : w.blocked ≠ [] ↔ SomeBelow resolve root (At lease resolve False Blocks) := by
      rw [Ne, htold.blocked, hlines, not_not]
    constructor
    · classical
      rw [chainReport_status hcycle]
      unfold outcome
      rw [if_neg hno]
      apply if_congr (and_congr_right' htaint) rfl
      apply if_congr _ rfl
      · exact if_congr hm rfl (if_congr hb rfl rfl)
      · rw [hf, or_right_comm, or_self]
    · intro _ kind
      have hperm : ∀ l, l ∈ (chainReport root rootReport w).lines ↔ l ∈ w.lines := by
        intro l
        have hsort := (List.perm_insertionSort ChainLine.before w.lines).mem_iff (a := l)
        unfold chainReport
        rw [hcycle]
        dsimp only
        split_ifs <;> exact hsort
      constructor
      · rintro ⟨l, hl, rfl⟩
        have hl := (hperm l).1 hl
        exact ⟨l.id, (hseen l.id).2 ⟨l, hl, rfl⟩, (htold.kinds l hl).symm⟩
      · rintro ⟨x, hx, rfl⟩
        obtain ⟨l, hl, rfl⟩ := (hseen x).1 hx
        exact ⟨l, (hperm l).2 hl, htold.kinds l hl⟩

/-! ## Resolvers that the outcome cannot tell apart -/

/-- The same dependencies, whatever their order, repetition and letter case. -/
def DepsAlike (a b : Receipt) : Prop := ∀ x, x ∈ a.dependencies.map lower ↔ x ∈ b.dependencies.map lower

/-- Two answers that differ in nothing the outcome reads. -/
structure AnswerAlike (lease lease' : Receipt → Option Report) (a b : Receipt × Report) : Prop where
  kind : a.1.kind = b.1.kind
  tier : a.1.tier = b.1.tier
  deps : DepsAlike a.1 b.1
  status : a.2.status = b.2.status
  leases : (lease a.1).map (·.status) = (lease' b.1).map (·.status)

def ResolveAlike (lease : Receipt → Option Report) (resolve : Resolver) (lease' : Receipt → Option Report)
    (resolve' : Resolver) : Prop := ∀ x, Both (AnswerAlike lease lease') (resolve x) (resolve' x)

variable {lease' : Receipt → Option Report} {resolve' : Resolver} {root' : Receipt} {rootReport' : Report}

theorem ResolveAlike.symm (h : ResolveAlike lease resolve lease' resolve') :
    ResolveAlike lease' resolve' lease resolve := by
  intro x
  apply (h x).symm.imp
  intro b a hab
  exact ⟨hab.kind.symm, hab.tier.symm, fun y => (hab.deps y).symm, hab.status.symm, hab.leases.symm⟩

section Alike

variable (h : ResolveAlike lease resolve lease' resolve')

include h

theorem ResolveAlike.dep {x y : String} (hxy : Dep resolve x y) : Dep resolve' x y := by
  obtain ⟨r, report, hr, d, hd, rfl⟩ := hxy
  have hx := h x
  rw [hr] at hx
  generalize hr' : resolve' x = answer at hx
  cases hx with
  | accepted hab =>
    obtain ⟨d', hd', heq⟩ := List.mem_map.1 ((hab.deps (lower d)).1 (List.mem_map_of_mem hd))
    exact ⟨_, _, hr', d', hd', heq⟩

theorem ResolveAlike.below (hdeps : DepsAlike root root') {x : String} (hx : Below resolve root x) :
    Below resolve' root' x := by
  obtain ⟨d, hd, hx⟩ := hx
  obtain ⟨d', hd', heq⟩ := List.mem_map.1 ((hdeps (lower d)).1 (List.mem_map_of_mem hd))
  refine ⟨d', hd', ?_⟩
  rw [heq]
  exact ReflTransGen.mono (fun _ _ => h.dep) _ _ hx

theorem ResolveAlike.cyclic (hdeps : DepsAlike root root') (hc : Cyclic resolve root) : Cyclic resolve' root' := by
  obtain ⟨x, hx, hxx⟩ := hc
  exact ⟨x, h.below hdeps hx, TransGen.mono (fun _ _ => h.dep) _ _ hxx⟩

theorem ResolveAlike.at_iff {unresolved : Prop} {P : Verdict → Option Verdict → Prop} {x : String} :
    At lease resolve unresolved P x ↔ At lease' resolve' unresolved P x := by
  have hx := h x
  unfold At
  generalize resolve x = answer at hx ⊢
  generalize resolve' x = answer' at hx ⊢
  cases hx with
  | refused _ _ => exact Iff.rfl
  | accepted hab =>
    dsimp only
    rw [hab.status, hab.leases]

theorem ResolveAlike.hasTier {tier : Tier} {x : String} (hx : HasTier resolve tier x) : HasTier resolve' tier x := by
  obtain ⟨r, report, hr, rfl⟩ := hx
  have hx := h x
  rw [hr] at hx
  generalize hr' : resolve' x = answer at hx
  cases hx with
  | accepted hab => exact ⟨_, _, hr', hab.tier.symm⟩

theorem ResolveAlike.kindAt_eq (x : String) : kindAt resolve x = kindAt resolve' x := by
  have hx := h x
  unfold kindAt
  generalize resolve x = answer at hx ⊢
  generalize resolve' x = answer' at hx ⊢
  cases hx with
  | refused _ _ => rfl
  | accepted hab => exact hab.kind

theorem ResolveAlike.someBelow (hdeps : DepsAlike root root') {P Q : String → Prop} (hPQ : ∀ x, P x → Q x)
    (hb : SomeBelow resolve root P) : SomeBelow resolve' root' Q := by
  obtain ⟨x, hx, hP⟩ := hb
  exact ⟨x, h.below hdeps hx, hPQ x hP⟩

end Alike

theorem ResolveAlike.someBelow_iff (h : ResolveAlike lease resolve lease' resolve') (hdeps : DepsAlike root root')
    {P Q : String → Prop} (hPQ : ∀ x, P x ↔ Q x) : SomeBelow resolve root P ↔ SomeBelow resolve' root' Q :=
  ⟨h.someBelow hdeps fun x => (hPQ x).1, h.symm.someBelow (fun x => (hdeps x).symm) fun x => (hPQ x).2⟩

theorem ResolveAlike.cyclic_iff (h : ResolveAlike lease resolve lease' resolve') (hdeps : DepsAlike root root') :
    Cyclic resolve root ↔ Cyclic resolve' root' :=
  ⟨h.cyclic hdeps, h.symm.cyclic fun x => (hdeps x).symm⟩

/-- Chains that differ in nothing the outcome reads have one outcome. -/
theorem outcome_congr (h : ResolveAlike lease resolve lease' resolve') (hdeps : DepsAlike root root')
    (htier : root.tier = root'.tier) (hstatus : rootReport.status = rootReport'.status) :
    outcome lease resolve root rootReport = outcome lease' resolve' root' rootReport' := by
  have htaint : SomeBelow resolve root (HasTier resolve .testOnlyTrust) ↔
      SomeBelow resolve' root' (HasTier resolve' .testOnlyTrust) :=
    h.someBelow_iff hdeps fun x => ⟨h.hasTier, h.symm.hasTier⟩
  classical
  unfold outcome
  rw [htier, hstatus]
  apply if_congr (h.cyclic_iff hdeps) rfl
  apply if_congr (and_congr_right' htaint) rfl
  apply if_congr (or_congr_right (h.someBelow_iff hdeps fun x => h.at_iff)) rfl
  apply if_congr (h.someBelow_iff hdeps fun x => h.at_iff) rfl
  exact if_congr (h.someBelow_iff hdeps fun x => h.at_iff) rfl rfl

end SovereignCore.Evidence
