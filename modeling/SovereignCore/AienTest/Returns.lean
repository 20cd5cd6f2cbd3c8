import Mathlib
import SovereignCore.AienTest.Schedule

/-!
# The runner returns

Every move but a wake-up without a notification uses up some of `potential`: a gate is executed once, and a worker that
looks in vain sleeps until somebody notifies.

* `run_length` : how many moves a run can have;
* `run_graph_returns` : as long as a worker has not left, some other move than such a wake-up can be made.
-/

namespace SovereignCore.AienTest

section Potential

variable {r : GraphRun} {s s' : State} {l₁ l₂ : List Phase} {ph ph' : Phase}

/-- The moves of a worker that takes the lock and looks at every gate in vain. -/
def GraphRun.round (r : GraphRun) : Nat := r.selection.length + 3

def GraphRun.alarm (r : GraphRun) (crew : Nat) : Nat := (crew + 1) * r.round + 1

def GraphRun.rank (r : GraphRun) (crew : Nat) : Phase → Nat
  | .exited => 0
  | .waiting => 1
  | .picking rest => rest.length + 2
  | .entering => r.round
  | .notifying => r.alarm crew
  | .returned _ _ => r.alarm crew + 1
  | .reporting _ => r.alarm crew + 2
  | .executing .after _ => r.alarm crew + 3
  | .executing .program _ => r.alarm crew + 4
  | .executing .before _ => r.alarm crew + 5

/-- What is left of a run: the gates that were not executed, and the ways the workers still have to go. -/
def GraphRun.potential (r : GraphRun) (s : State) : Nat :=
  (r.selection.length - s.executed.length) * (r.alarm s.workers.length + 6) +
    (s.workers.map (r.rank s.workers.length)).sum

theorem sum_place (f : Phase → Nat) : ((l₁ ++ ph :: l₂).map f).sum = ((l₁ ++ l₂).map f).sum + f ph := by
  rw [List.map_append, List.map_append, List.map_cons, List.sum_append, List.sum_append, List.sum_cons]
  omega

theorem length_place : (l₁ ++ ph :: l₂).length = (l₁ ++ ph' :: l₂).length := by
  simp

theorem potential_place (hw : s.workers = l₁ ++ ph :: l₂) (hw' : s'.workers = l₁ ++ ph' :: l₂)
    (hexec : s'.executed = s.executed) : r.potential s' + r.rank s.workers.length ph =
      r.potential s + r.rank s.workers.length ph' := by
  have hlen : s'.workers.length = s.workers.length := by
    rw [hw, hw']
    exact length_place
  unfold GraphRun.potential
  rw [hexec, hlen, hw', sum_place, hw, sum_place]
  omega

theorem potential_le (hw : s.workers = l₁ ++ ph :: l₂) (hw' : s'.workers = l₁ ++ ph' :: l₂)
    (hexec : s'.executed = s.executed) {k : Nat} (hle : r.rank s.workers.length ph' ≤ r.rank s.workers.length ph + k) :
    r.potential s' ≤ r.potential s + k := by
  have hplace := potential_place (r := r) hw hw' hexec
  omega

theorem potential_lt (hw : s.workers = l₁ ++ ph :: l₂) (hw' : s'.workers = l₁ ++ ph' :: l₂)
    (hexec : s'.executed = s.executed) (hlt : r.rank s.workers.length ph' < r.rank s.workers.length ph) :
    r.potential s' < r.potential s := by
  have hplace := potential_place (r := r) hw hw' hexec
  omega

theorem Inv.ready_le (h : Inv r s) : s.sched.ready.length ≤ r.selection.length :=
  (List.subperm_of_subset h.booked.kept.ready_nodup fun i hi => h.booked.kept.sub i (.inl hi)).length_le

theorem potential_execute (h : Inv r s) {i : String} {rest : List String} {p : Pick}
    (hw : s.workers = l₁ ++ .picking (i :: rest) :: l₂) (hw' : s'.workers = l₁ ++ .executing .before p :: l₂)
    (hexec : s'.executed = s.executed ++ [i]) : r.potential s' < r.potential s := by
  have hready : i ∈ s.sched.ready := (h.looking.rest _ (hw ▸ mem_place.2 (.inl rfl))).1.subset List.mem_cons_self
  have hlt : s.executed.length < r.selection.length := by
    have hsub : (i :: s.executed).Subperm r.selection := by
      refine List.subperm_of_subset (List.nodup_cons.2 ⟨h.booked.kept.ready_new i hready, h.booked.kept.started_nodup⟩) ?_
      intro j hj
      rcases List.mem_cons.1 hj with rfl | hj
      · exact h.booked.kept.sub j (.inl hready)
      · exact h.booked.kept.sub j (.inr hj)
    exact hsub.length_le
  have hlen : s'.workers.length = s.workers.length := by
    rw [hw, hw']
    exact length_place
  obtain ⟨left, hleft⟩ : ∃ left, r.selection.length - s.executed.length = left + 1 := ⟨_, (Nat.succ_pred (by omega)).symm⟩
  have hleft' : r.selection.length - s'.executed.length = left := by
    rw [hexec, List.length_append, List.length_singleton]
    omega
  unfold GraphRun.potential
  rw [hlen, hleft, hleft', Nat.succ_mul, hw', sum_place, hw, sum_place]
  show _ + (_ + (r.alarm _ + 5)) < _ + (_ + (rest.length + 1 + 2))
  omega

theorem potential_notify (hw : s.workers = l₁ ++ .notifying :: l₂) (hw' : s'.workers = (l₁ ++ .entering :: l₂).map Phase.wakeUp)
    (hexec : s'.executed = s.executed) : r.potential s' < r.potential s := by
  have hlen : s'.workers.length = s.workers.length := by
    rw [hw, hw', List.length_map]
    exact length_place
  have hrank : ∀ crew (ws : List Phase), (ws.map fun ph => r.rank crew ph.wakeUp).sum ≤
      (ws.map (r.rank crew)).sum + ws.length * r.round := by
    intro crew ws
    induction ws with
    | nil => exact Nat.zero_le _
    | cons ph ws ih =>
      have hone : r.rank crew ph.wakeUp ≤ r.rank crew ph + r.round := by
        cases ph with
        | waiting => exact Nat.le_add_left _ _
        | _ => exact Nat.le_add_right _ _
      rw [List.map_cons, List.map_cons, List.sum_cons, List.sum_cons, List.length_cons, Nat.succ_mul]
      omega
  have hothers := hrank s.workers.length (l₁ ++ l₂)
  have hcount : s.workers.length = (l₁ ++ l₂).length + 1 := by
    rw [hw]
    simp
    omega
  unfold GraphRun.potential
  rw [hexec, hlen, hw', List.map_map]
  show _ + ((l₁ ++ .entering :: l₂).map fun ph => r.rank _ ph.wakeUp).sum < _
  have hsum : (s.workers.map (r.rank s.workers.length)).sum =
      ((l₁ ++ l₂).map (r.rank s.workers.length)).sum + r.alarm s.workers.length :=
    (congrArg (fun ws : List Phase => (ws.map (r.rank s.workers.length)).sum) hw).trans (sum_place _)
  rw [sum_place, hsum]
  show _ + (_ + r.round) < _
  have halarm : r.alarm s.workers.length = (l₁ ++ l₂).length * r.round + (r.round + r.round) + 1 := by
    unfold GraphRun.alarm
    rw [hcount, Nat.succ_mul, Nat.succ_mul]
    omega
  omega

theorem potential_move (h : Inv r s) (hmove : Move r s false s') : r.potential s' < r.potential s := by
  cases hmove with
  | leave hw hover => exact potential_lt hw rfl rfl (Nat.succ_pos _)
  | enter hw hlock hover =>
    have hready := h.ready_le
    refine potential_lt hw rfl rfl ?_
    show s.sched.ready.length + 2 < r.selection.length + 3
    omega
  | wait hw => exact potential_lt hw rfl rfl (Nat.lt_succ_self 1)
  | skip hw hfree => exact potential_lt hw rfl rfl (Nat.lt_succ_self _)
  | choose hw hpass hfree => exact potential_execute h hw rfl rfl
  | decline hw hpass => exact potential_execute h hw rfl rfl
  | start hw hm hrun => exact potential_lt hw rfl rfl (Nat.lt_succ_self _)
  | finish hw => exact potential_lt hw rfl rfl (Nat.lt_succ_self _)
  | @release l₁ l₂ stage p ph hw hph =>
    refine potential_lt hw rfl rfl ?_
    have hrank : r.rank s.workers.length ph ≤ r.alarm s.workers.length + 2 := by
      obtain rfl | ⟨e, rfl⟩ := hph
      · exact Nat.le_refl _
      · exact Nat.le_succ _
    have hstage : r.alarm s.workers.length + 3 ≤ r.rank s.workers.length (.executing stage p) := by
      cases stage
      · exact Nat.add_le_add_left (by decide) _
      · exact Nat.add_le_add_left (by decide) _
      · exact Nat.le_refl _
    omega
  | ret hw => exact potential_lt hw rfl rfl (Nat.lt_succ_self _)
  | store hw hlock => exact potential_lt hw rfl rfl (Nat.lt_succ_self _)
  | stop hw hlock => exact potential_lt hw rfl rfl (Nat.lt_succ_self _)
  | notify hw => exact potential_notify hw rfl rfl

theorem potential_wake (hmove : Move r s true s') : r.potential s' ≤ r.potential s + r.round := by
  cases hmove with
  | wake hw =>
    apply potential_le hw
    · rfl
    · rfl
    · exact Nat.le_add_left _ _

def GraphRun.bound (r : GraphRun) : Nat :=
  r.selection.length * (r.alarm r.workerCount + 6) + r.workerCount * r.round

theorem GraphRun.potential_init (r : GraphRun) : r.potential r.init = r.bound := by
  have hlen : r.init.workers.length = r.workerCount := List.length_replicate
  have hsum : (r.init.workers.map (r.rank r.workerCount)).sum = r.workerCount * r.round := by
    show ((List.replicate r.workerCount .entering).map (r.rank r.workerCount)).sum = _
    rw [List.map_replicate, List.sum_replicate_nat]
    rfl
  unfold GraphRun.potential GraphRun.bound
  rw [hlen, hsum]
  rfl

theorem run_length {acts : List (Nat × Act)} (h : Inv r s) (hrun : Machine.run r.step acts s = some s') :
    acts.length + r.potential s' ≤ r.potential s + acts.countP (fun act => act.2.spurious) * (r.round + 1) := by
  induction acts generalizing s with
  | nil =>
    obtain rfl := Option.some.inj hrun
    simp
  | cons act acts ih =>
    obtain ⟨s₁, hstep, hrest⟩ := Option.bind_eq_some_iff.1 hrun
    have hmoves := ih (h.step hstep) hrest
    have hmove := move_of_step hstep
    rw [List.length_cons, List.countP_cons]
    cases hspurious : act.2.spurious with
    | false =>
      rw [hspurious] at hmove
      have hless := potential_move h hmove
      rw [if_neg Bool.false_ne_true]
      show acts.length + 1 + _ ≤ _ + acts.countP _ * _
      omega
    | true =>
      rw [hspurious] at hmove
      have hmore := potential_wake hmove
      rw [if_pos rfl, Nat.succ_mul]
      omega

end Potential

/-! ## Some move can be made -/

section Enabled

variable {r : GraphRun} {s : State} {w : Nat} {ph : Phase}

theorem step_of_move {act : Act} {s' : State} (hw : s.workers[w]? = some ph) (h : r.move s w ph act = some s') :
    r.step s (w, act) = some s' := by
  unfold GraphRun.step
  rw [hw]
  exact h

theorem enabled_of_active (hw : s.workers[w]? = some ph) (hactive : ph.active = true)
    (hlock : s.locked = false ∨ ph.picks = true) : ∃ act s', act.2.spurious = false ∧ r.step s act = some s' := by
  have hmove : ∃ act s', act.spurious = false ∧ r.move s w ph act = some s' := by
    cases ph with
    | entering =>
      have hfree : s.locked = false := hlock.resolve_right nofun
      by_cases hover : s.sched.Over
      · exact ⟨.enter, _, rfl, by simp only [GraphRun.move, hfree, if_pos hover]; rfl⟩
      · exact ⟨.enter, _, rfl, by simp only [GraphRun.move, hfree, if_neg hover]; rfl⟩
    | picking rest => exact ⟨.look, _, rfl, rfl⟩
    | waiting => cases hactive
    | executing stage p =>
      cases stage with
      | before => exact ⟨.release, _, rfl, rfl⟩
      | program => exact ⟨.finish, _, rfl, rfl⟩
      | after => exact ⟨.release, _, rfl, rfl⟩
    | reporting i => exact ⟨.panic, _, rfl, rfl⟩
    | returned i res =>
      have hfree : s.locked = false := hlock.resolve_right nofun
      exact ⟨.store, _, rfl, by simp only [GraphRun.move, hfree]; rfl⟩
    | notifying => exact ⟨.notify, _, rfl, rfl⟩
    | exited => cases hactive
  obtain ⟨act, s', hspurious, hmove⟩ := hmove
  exact ⟨(w, act), s', hspurious, step_of_move hw hmove⟩

theorem Inv.enabled (h : Inv r s) {live : Phase} (hmem : live ∈ s.workers) (hlive : live ≠ .exited) :
    ∃ act s', act.2.spurious = false ∧ r.step s act = some s' := by
  by_cases hlock : s.locked = true
  · obtain ⟨ph, hph, hpicks⟩ := List.any_eq_true.1 hlock
    obtain ⟨w, hw⟩ := List.mem_iff_getElem?.1 hph
    exact enabled_of_active hw (by cases ph <;> first | rfl | cases hpicks) (.inr hpicks)
  · obtain ⟨ph, hph, hactive⟩ : ∃ ph ∈ s.workers, ph.active = true := by
      by_cases hover : s.sched.Over
      · -- Sleepers are about to be woken.
        by_cases hwait : live = .waiting
        · exact ⟨.notifying, h.awake.woken (hwait ▸ hmem) hover, rfl⟩
        · exact ⟨live, hmem, by cases live <;> first | rfl | exact absurd rfl hwait | exact absurd rfl hlive⟩
      · exact List.countP_pos_iff.1 (h.awake.awake hover)
    obtain ⟨w, hw⟩ := List.mem_iff_getElem?.1 hph
    exact enabled_of_active hw hactive (.inl (Bool.not_eq_true _ ▸ hlock))

/-- A run has no more moves than `bound`, but for some for each spurious wake-up; and it can not stop before all workers
have left. -/
theorem run_graph_returns (r : GraphRun) {acts : List (Nat × Act)} {s : State}
    (h : Machine.run r.step acts r.init = some s) :
    acts.length ≤ r.bound + acts.countP (fun act => act.2.spurious) * (r.round + 1) ∧
      ((∀ ph ∈ s.workers, ph = .exited) ∨ ∃ act s', act.2.spurious = false ∧ r.step s act = some s') := by
  constructor
  · have hlen := run_length r.inv_init h
    rw [r.potential_init] at hlen
    omega
  · by_cases hall : ∀ ph ∈ s.workers, ph = .exited
    · exact .inl hall
    · push Not at hall
      obtain ⟨live, hmem, hlive⟩ := hall
      exact .inr ((inv_of_run h).enabled hmem hlive)

theorem lone_returns : loneActs.length ≤ loneGraphRun.bound + 0 * (loneGraphRun.round + 1) := by
  obtain ⟨s, hrun⟩ : ∃ s, Machine.run loneGraphRun.step loneActs loneGraphRun.init = some s := ⟨_, rfl⟩
  exact (run_graph_returns loneGraphRun hrun).1

end Enabled

end SovereignCore.AienTest
