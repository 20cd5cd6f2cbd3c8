import Mathlib
import SovereignCore.Harness.Generations
import SovereignCore.Harness.Memory
import SovereignCore.Harness.Permits

/-!
# How much the memory of event ids holds

A bucket holds the ids of the events a task accepted at its current generation. Almost every one of these events takes
the task further: it shows a claim, changes state, or leaves the generation. Three of them need not: a claim may be shown
again, and a key that is bound may be bound again, each time under a new id.

* `Status.load` : how far a task has come in its generation; `load_kept` : no action takes it back;
* `Sparing` : an event that takes its task further; `Sparings` : a run of such events;
* `allowance` : how many ids the bucket of a task may hold; `Thrifty` : none holds more;
* `dedup_bounded` : a run of such events remembers a window and 76 ids for each task;
* `dedup_unbounded` : a claim that is shown again and again.
-/

namespace SovereignCore.Harness

open Std Result Relation

/-! ## How far a task has come -/

/-- The place of a state in one generation. Giving a task up also drops its claims, so that place is past both of them; a
commit that ended is past everything. -/
def stage : TaskState → Nat
  | .blocked | .provisional => 0
  | .awaitingFinalProof => 1
  | .committable => 2
  | .committing => 3
  | .aborted => 6
  | .committed | .commitUncertain => 9

namespace Status

/-- How far a task has come in its generation: its state and the claims it has shown. -/
def load (s : Status) : Nat :=
  stage s.state + (if s.interface.isSome then 1 else 0) + (if s.completion.isSome then 1 else 0)

/-- The task makes progress, and at the same generation it does not go back. -/
def Advance (s s' : Status) : Prop := s.Progress s' ∧ (s'.generation = s.generation → s.load ≤ s'.load)

variable {s s' s'' : Status}

theorem Advance.trans (h : Advance s s') (h' : Advance s' s'') : Advance s s'' := by
  refine ⟨h.1.trans h'.1, fun hg => ?_⟩
  have hle : s.generation ≤ s'.generation := h.1.le
  have hle' : s'.generation ≤ s''.generation := h'.1.le
  have hsame : s'.generation = s.generation := UInt64.le_antisymm (hg ▸ hle') hle
  exact (h.2 hsame).trans (h'.2 (hg.trans hsame.symm))

theorem load_le (s : Status) : s.load ≤ 11 := by
  unfold load
  have hstage : stage s.state ≤ 9 := by cases s.state <;> decide
  split_ifs <;> omega

theorem load_ended (h : s.state.isCommitTerminal = true) : 9 ≤ s.load := by
  unfold load
  have hstage : stage s.state = 9 := by
    cases hs : s.state <;> simp [hs, TaskState.isCommitTerminal, stage] at h ⊢
  omega

theorem load_open (h : s.state.isCommitTerminal = false) : s.load ≤ 8 := by
  unfold load
  have hstage : stage s.state ≤ 6 := by
    cases hs : s.state <;> simp [hs, TaskState.isCommitTerminal, stage] at h ⊢
  split_ifs <;> omega

theorem load_abort : s.abort.load = 6 := rfl

theorem load_lt_abort (h : s.state.isActive = true ∨ s.state = .blocked ∨ s.state = .committing) :
    s.load < s.abort.load := by
  rw [load_abort]
  unfold load
  have hstage : stage s.state ≤ 3 := by
    rcases h with h | h | h
    · cases hs : s.state <;> simp [hs, TaskState.isActive, stage] at h ⊢
    · simp [h, stage]
    · simp [h, stage]
  split_ifs <;> omega

theorem load_setSlot (level : BindingLevel) (claim : ProofClaim) : s.load ≤ (s.setSlot level claim).load := by
  cases level with
  | interface =>
    show _ ≤ stage s.state + 1 + (if s.completion.isSome then 1 else 0)
    unfold load
    split_ifs <;> omega
  | final =>
    show _ ≤ stage s.state + (if s.interface.isSome then 1 else 0) + 1
    unfold load
    split_ifs <;> omega

theorem load_lt_setSlot {level : BindingLevel} {claim : ProofClaim} (h : s.slot level = none) :
    s.load < (s.setSlot level claim).load := by
  cases level with
  | interface =>
    show _ < stage s.state + 1 + (if s.completion.isSome then 1 else 0)
    have hnone : s.interface = none := h
    simp only [load, hnone, Option.isSome_none, Bool.false_eq_true, if_false]
    omega
  | final =>
    show _ < stage s.state + (if s.interface.isSome then 1 else 0) + 1
    have hnone : s.completion = none := h
    simp only [load, hnone, Option.isSome_none, Bool.false_eq_true, if_false]
    omega

/-- A task that changes state only moves by the stages of its states. -/
theorem load_lt_of_stage {a b : TaskState} (hs : s.state = a) (hs' : s'.state = b) (hlt : stage a < stage b)
    (hi : s'.interface = s.interface) (hc : s'.completion = s.completion) : s.load < s'.load := by
  unfold load
  rw [hi, hc, hs, hs']
  omega

end Status

theorem ne_next {g : UInt64} : g + 1 ≠ g := by
  intro h
  have := congrArg UInt64.toNat h
  rw [UInt64.toNat_add] at this
  have hlt := UInt64.toNat_lt g
  have : (1 : UInt64).toNat = 1 := rfl
  omega

namespace Net

variable {enabled : Bool} {n n' : Net} {a : Act} {t u : String} {s s' s1 su su' : Status}

theorem Falls.load_le (h : Falls s s') (hg : s'.generation = s.generation) : s.load ≤ s'.load := by
  cases h with
  | stays _ => exact Nat.le_refl _
  | resets _ => exact absurd hg ne_next
  | aborts h =>
    refine Nat.le_of_lt (Status.load_lt_abort ?_)
    rcases h with h | h
    · exact Or.inl h
    · exact Or.inr (Or.inl h)

theorem load_set (ht : n.status t = some s) (hroot : s1.generation = s.generation → s.load ≤ s1.load)
    (hu : n.status u = some su) (hu' : (n.set t s1).status u = some su') (hg : su'.generation = su.generation) :
    su.load ≤ su'.load := by
  rw [set_status] at hu'
  by_cases hut : u = t
  · subst hut
    obtain rfl := Option.some.inj (ht.symm.trans hu)
    rw [if_pos rfl] at hu'
    obtain rfl := Option.some.inj hu'
    exact hroot hg
  · rw [if_neg hut] at hu'
    obtain rfl := Option.some.inj (hu.symm.trans hu')
    exact Nat.le_refl _

theorem Sweep.load (hsweep : Sweep (n.set t s1) t n') (hac : Search.Acyclic n.Edge) (ht : n.status t = some s)
    (hroot : s1.generation = s.generation → s.load ≤ s1.load) (hu : n.status u = some su)
    (hu' : n'.status u = some su') (hg : su'.generation = su.generation) : su.load ≤ su'.load := by
  by_cases hb : (n.set t s1).Below t u
  · have hut : u ≠ t := fun he => not_below_self (n := n.set t s1) hac (he ▸ hb)
    obtain ⟨s0, s0', h0, h0', hf⟩ := hsweep.falls u hb
    rw [set_status, if_neg hut, hu] at h0
    obtain rfl := Option.some.inj h0
    rw [hu'] at h0'
    obtain rfl := Option.some.inj h0'
    exact hf.load_le hg
  · rw [hsweep.same u hb] at hu'
    exact load_set ht hroot hu hu' hg

theorem Step.load_le (hstep : Step enabled n a n') (hac : Search.Acyclic n.Edge) (hu : n.status u = some su)
    (hu' : n'.status u = some su') (hg : su'.generation = su.generation) : su.load ≤ su'.load := by
  cases hstep with
  | @register t st E hnew hs hgen hi hc hE hsub hacyclic =>
    have hut : u ≠ t := by
      rintro rfl
      simp [hnew] at hu
    have hu'' : (n.set t st).status u = some su' := hu'
    rw [set_status, if_neg hut] at hu''
    obtain rfl := Option.some.inj (hu.symm.trans hu'')
    exact Nat.le_refl _
  | depend =>
    have hu'' : n.status u = some su' := hu'
    obtain rfl := Option.some.inj (hu.symm.trans hu'')
    exact Nat.le_refl _
  | claim hs ha hslot => exact load_set hs (fun _ => Status.load_setSlot _ _) hu hu' hg
  | reclaim hs ha hsweep => exact hsweep.load hac hs (fun _ => Status.load_setSlot _ _) hu hu' hg
  | renew hs hst hlt hsweep =>
    exact hsweep.load hac hs (fun he => absurd (he : _ = _).symm (UInt64.ne_of_lt hlt)) hu hu' hg
  | revoke hs hst hsweep => exact hsweep.load hac hs (fun he => absurd he ne_next) hu hu' hg
  | abort hs hst hsweep =>
    refine hsweep.load hac hs (fun _ => Nat.le_of_lt (Status.load_lt_abort ?_)) hu hu' hg
    rcases hst with h | h
    · exact Or.inl h
    · exact Or.inr (Or.inl h)
  | cancel hs hst hsweep _ =>
    refine hsweep.load hac hs (fun _ => Nat.le_of_lt (Status.load_lt_abort ?_)) hu hu' hg
    rcases hst with h | h
    · exact Or.inl h
    · exact Or.inr (Or.inl h)
  | retry hs hst => exact load_set hs (fun he => absurd he ne_next) hu hu' hg
  | work hs hst =>
    refine load_set hs (fun _ => ?_) hu hu' hg
    exact Nat.le_of_lt (Status.load_lt_of_stage hst rfl (by simp [stage]) rfl rfl)
  | finalize hs hst hfinal =>
    refine load_set hs (fun _ => ?_) hu hu' hg
    exact Nat.le_of_lt (Status.load_lt_of_stage hst rfl (by simp [stage]) rfl rfl)
  | beginCommit hs hst hbelow habove =>
    refine load_set hs (fun _ => ?_) hu hu' hg
    exact Nat.le_of_lt (Status.load_lt_of_stage hst rfl (by simp [stage]) rfl rfl)
  | committed hs hst =>
    refine load_set hs (fun _ => ?_) hu hu' hg
    exact Nat.le_of_lt (Status.load_lt_of_stage hst rfl (by simp [stage]) rfl rfl)
  | failed hs hst hsweep =>
    exact hsweep.load hac hs (fun _ => Nat.le_of_lt (Status.load_lt_abort (Or.inr (Or.inr hst)))) hu hu' hg
  | uncertain hs hst hsweep =>
    refine (hsweep.set hac hs (by simp [hst, TaskState.isCommitTerminal])).load hac hs (fun _ => ?_) hu hu' hg
    exact Nat.le_of_lt (Status.load_lt_of_stage hst rfl (by simp [stage]) rfl rfl)
  | dispatch hs hst hready =>
    refine load_set hs (fun _ => ?_) hu hu' hg
    simp [Status.load, hst, stage]

theorem advance_kept : Kept Status.Advance where
  refl s := ⟨.refl, fun _ => Nat.le_refl _⟩
  trans := Status.Advance.trans
  step hstep hac hno hu := by
    obtain ⟨s', hs', hp⟩ := hstep.progress hac hno hu
    exact ⟨s', hs', hp, fun hg => hstep.load_le hac hu hs' hg⟩

/-- The task whose event an action is, if that event takes it further or out of its generation. -/
def Act.spender : Act → Option String
  | .revoke t | .abort t | .cancel t | .retry t | .work t | .finalize t | .beginCommit t | .endCommit t _ => some t
  | _ => none

theorem set_self : (n.set t s).status t = some s := by rw [set_status, if_pos rfl]

theorem Sweep.root (hsweep : Sweep (n.set t s1) t n') (hac : Search.Acyclic n.Edge) : n'.status t = some s1 := by
  rw [hsweep.same t (not_below_self (n := n.set t s1) hac), set_status, if_pos rfl]

/-- Such an action takes its task further, or to the next generation. -/
theorem Step.spends (hstep : Step enabled n a n') (hac : Search.Acyclic n.Edge) (ha : a.spender = some t) :
    ∃ s s', n.status t = some s ∧ n'.status t = some s' ∧
      (s'.generation = s.generation ∧ s.load < s'.load ∨ s'.generation = s.generation + 1) := by
  cases hstep with
  | revoke hs hst hsweep =>
    obtain rfl := Option.some.inj ha
    exact ⟨_, _, hs, hsweep.root hac, Or.inr rfl⟩
  | abort hs hst hsweep =>
    obtain rfl := Option.some.inj ha
    refine ⟨_, _, hs, hsweep.root hac, Or.inl ⟨rfl, Status.load_lt_abort ?_⟩⟩
    rcases hst with h | h
    · exact Or.inl h
    · exact Or.inr (Or.inl h)
  | cancel hs hst hsweep _ =>
    obtain rfl := Option.some.inj ha
    refine ⟨_, _, hs, hsweep.root hac, Or.inl ⟨rfl, Status.load_lt_abort ?_⟩⟩
    rcases hst with h | h
    · exact Or.inl h
    · exact Or.inr (Or.inl h)
  | retry hs hst =>
    obtain rfl := Option.some.inj ha
    exact ⟨_, _, hs, set_self, Or.inr rfl⟩
  | work hs hst =>
    obtain rfl := Option.some.inj ha
    refine ⟨_, _, hs, set_self, Or.inl ⟨rfl, ?_⟩⟩
    exact Status.load_lt_of_stage hst rfl (by simp [stage]) rfl rfl
  | finalize hs hst hfinal =>
    obtain rfl := Option.some.inj ha
    refine ⟨_, _, hs, set_self, Or.inl ⟨rfl, ?_⟩⟩
    exact Status.load_lt_of_stage hst rfl (by simp [stage]) rfl rfl
  | beginCommit hs hst hbelow habove =>
    obtain rfl := Option.some.inj ha
    refine ⟨_, _, hs, set_self, Or.inl ⟨rfl, ?_⟩⟩
    exact Status.load_lt_of_stage hst rfl (by simp [stage]) rfl rfl
  | committed hs hst =>
    obtain rfl := Option.some.inj ha
    refine ⟨_, _, hs, set_self, Or.inl ⟨rfl, ?_⟩⟩
    exact Status.load_lt_of_stage hst rfl (by simp [stage]) rfl rfl
  | failed hs hst hsweep =>
    obtain rfl := Option.some.inj ha
    exact ⟨_, _, hs, hsweep.root hac, Or.inl ⟨rfl, Status.load_lt_abort (Or.inr (Or.inr hst))⟩⟩
  | uncertain hs hst hsweep =>
    obtain rfl := Option.some.inj ha
    refine ⟨_, _, hs, set_self, Or.inl ⟨rfl, ?_⟩⟩
    exact Status.load_lt_of_stage hst rfl (by simp [stage]) rfl rfl
  | _ => exact nomatch ha

/-- Dispatches keep the generation of every task and take none back. -/
theorem Steps.started {ds : List String} (hsteps : Steps enabled n (ds.map .dispatch) n') (hu : n.status u = some su) :
    ∃ su', n'.status u = some su' ∧ su'.generation = su.generation ∧ su.Advance su' := by
  induction ds generalizing n su with
  | nil =>
    cases hsteps
    exact ⟨su, hu, rfl, advance_kept.refl su⟩
  | cons d ds ih =>
    cases hsteps with
    | @cons _ n₁ _ _ _ hstep hrest =>
      cases hstep with
      | @dispatch _ s bindings hs hst hready =>
        by_cases hud : u = d
        · subst hud
          obtain rfl := Option.some.inj (hu.symm.trans hs)
          obtain ⟨su', hsu', hg, hadv⟩ := ih hrest set_self
          have hfirst : su.Advance { su with state := .provisional, bindings } :=
            ⟨Status.progress_of_state rfl (by simp), fun _ => by simp [Status.load, hst, stage]⟩
          exact ⟨su', hsu', hg, hfirst.trans hadv⟩
        · exact ih hrest (by rw [set_status, if_neg hud]; exact hu)

end Net

/-! ## Events -/

namespace Core

variable {cfg : ProvisionalConfig} {dg : EventKind → String} {c c' : Core} {x x' : Exec} {e : JournalEntry}
variable {fx : Effects} {now g : UInt64} {kind : EventKind} {task : String} {t : TaskEntry}

/-- A bound event names the current generation of its task, or it begins the one it names. -/
theorem applyKind_scope (h : applyKind cfg c now kind = .ok x) (hscope : generationScope kind = some (task, g)) :
    ∃ t, c.tasks[task]? = some t ∧ (t.generation = g ∨ kind = .newGeneration task g ∧ t.generation < g) := by
  cases kind with
  | newGeneration task generation =>
    obtain ⟨rfl, rfl⟩ := Prod.mk.inj (Option.some.inj hscope)
    have h' : c.onNewGeneration now task generation = .ok x := h
    unfold onNewGeneration at h'
    simp only [bind_ok, task_ok, guard_ok] at h'
    obtain ⟨t, ht, hlt, -⟩ := h'
    exact ⟨t, ht, Or.inr ⟨rfl, UInt64.not_le.1 hlt⟩⟩
  | bindApproval key task generation =>
    obtain ⟨rfl, rfl⟩ := Prod.mk.inj (Option.some.inj hscope)
    obtain ⟨t, ht, hgen, -⟩ := onBindApproval_ok h
    exact ⟨t, ht, Or.inl hgen⟩
  | registerTask task resources producers => cases hscope
  | addDependency producer consumer => cases hscope
  | heartbeat task generation beat => cases hscope
  | auditRevoke revocations => cases hscope
  | tick => cases hscope
  | _ =>
    obtain ⟨rfl, rfl⟩ := Prod.mk.inj (Option.some.inj hscope)
    simp only [applyKind, onProof, onProducerFailed, onWorkDone, onFinalize, onCancel, onRetry, onRevoke, onBeginCommit,
      onCommitOutcome, bind_ok, requireGeneration_ok] at h
    obtain ⟨-, ⟨t, ht, hgen⟩, -⟩ := h
    exact ⟨t, ht, Or.inl hgen⟩

/-- The event takes its task further: a claim is shown once, and a key is bound once at a generation and stays with its
task. -/
def spares (c : Core) : EventKind → Bool
  | .interfacePublished task _ _ => c.tasks[task]?.all (·.interface.isNone)
  | .completionVerified task _ _ => c.tasks[task]?.all (·.completion.isNone)
  | .bindApproval key task generation => c.approvals[key]?.all fun b => b.task = task && b.generation ≠ generation
  | _ => true

/-- What a bound event does to its task, where it spares the memory. -/
inductive Spent (c c' : Core) (task : String) (g : UInt64) : Prop
  | further (t t' : TaskEntry) (ht : c.tasks[task]? = some t) (ht' : c'.tasks[task]? = some t') (hg : t.generation = g)
      (hg' : t'.generation = g) (hload : t.status.load < t'.status.load)
  | left (t t' : TaskEntry) (ht : c.tasks[task]? = some t) (ht' : c'.tasks[task]? = some t') (hg : t.generation = g)
      (hg' : t'.generation = g + 1)
  | begun (t t' : TaskEntry) (ht : c.tasks[task]? = some t) (ht' : c'.tasks[task]? = some t') (hg : t.generation < g)
      (hg' : t'.generation = g)
  | bound (key : String) (t : TaskEntry) (ht : c.tasks[task]? = some t) (hg : t.generation = g)
      (hopen : t.state.isCommitTerminal = false)
      (hkey : ∀ b, c.approvals[key]? = some b → b.task = task ∧ b.generation ≠ g)
      (hc : c' = { c with approvals := c.approvals.insert key ⟨task, g⟩ })

theorem handled_spent (cfg : ProvisionalConfig) {a : Net.Act} (hg : c.Good) (hh : Handled cfg.enabled c x [a]) (ha : a.spender = some task)
    (ht : c.tasks[task]? = some t) (hgen : t.generation = g) : Spent c x.core task g := by
  cases hh.steps with
  | cons hstep hrest =>
    cases hrest
    obtain ⟨s, s', hs, hs', h⟩ := hstep.spends hg.graph.acyclic ha
    obtain rfl := Option.some.inj ((net_status_of ht).symm.trans hs)
    obtain ⟨t', ht', rfl⟩ := net_status.1 hs'
    rcases h with ⟨hsame, hload⟩ | hnext
    · exact .further t t' ht ht' hgen (hsame.trans hgen) hload
    · exact .left t t' ht ht' hgen (hnext.trans (congrArg (· + 1) hgen))

theorem onProof_spent {level : BindingLevel} {claim : ProofClaim} (h : c.onProof now level task g claim = .ok x)
    (hslot : ∀ t, c.tasks[task]? = some t → slot level t = none) : Spent c x.core task g := by
  unfold onProof at h
  simp only [bind_ok, requireGeneration_ok, requireState_ok, task_ok, taskMut_ok] at h
  obtain ⟨-, ⟨t0, ht0, hgen⟩, -, -, t, ht, _, ⟨t1, ht1, rfl⟩, h⟩ := h
  obtain rfl := Option.some.inj (ht.symm.trans ht0)
  obtain rfl := Option.some.inj (ht.symm.trans ht1)
  rw [hslot t ht] at h
  simp only [Option.isSome_none, Bool.false_and, Bool.false_eq_true, if_false, pure_ok] at h
  subst h
  refine .further t (setSlot level claim t) ht (by simp) hgen ?_ ?_
  · have hsame : (setSlot level claim t).status.generation = _ := congrArg Status.generation status_setSlot
    rw [← hgen]
    exact hsame.trans (t.status.setSlot_state level claim).2.2.1
  · rw [status_setSlot]
    refine Status.load_lt_setSlot ?_
    have hsl : t.status.slot level = slot level t := by cases level <;> rfl
    rw [hsl, hslot t ht]

theorem onNewGeneration_begun (hg : c.Good) (h : c.onNewGeneration now task g = .ok x) :
    ∃ t t', c.tasks[task]? = some t ∧ x.core.tasks[task]? = some t' ∧ t.generation < g ∧ t'.generation = g := by
  unfold onNewGeneration at h
  simp only [bind_ok, task_ok, guard_ok] at h
  obtain ⟨t, ht, hlt, -, -, -, -, x1, h1, h2⟩ := h
  obtain ⟨-, -, t', ht', hsweep, -⟩ := renew_sweep (x := { core := c }) hg h1 h2
  obtain ⟨tx, htx, hstatus⟩ := net_status.1 (hsweep.root hg.graph.acyclic)
  exact ⟨t, tx, ht, htx, UInt64.not_le.1 hlt, congrArg Status.generation hstatus⟩

/-- **A bound event that spares the memory takes its task further.** -/
theorem applyKind_spent (hg : c.Good) (hsp : c.spares kind = true) (h : applyKind cfg c now kind = .ok x)
    (hscope : generationScope kind = some (task, g)) : Spent c x.core task g := by
  obtain ⟨t, ht, hgen⟩ := applyKind_scope h hscope
  cases kind with
  | newGeneration task' generation =>
    obtain ⟨rfl, rfl⟩ := Prod.mk.inj (Option.some.inj hscope)
    obtain ⟨t, t', ht, ht', hlt, hgen'⟩ := onNewGeneration_begun hg h
    exact .begun t t' ht ht' hlt hgen'
  | bindApproval key task' generation =>
    obtain ⟨rfl, rfl⟩ := Prod.mk.inj (Option.some.inj hscope)
    obtain ⟨t, ht, hgen, hopen, -, rfl⟩ := onBindApproval_ok h
    refine .bound key t ht hgen hopen (fun b hb => ?_) rfl
    simpa [spares, hb] using hsp
  | interfacePublished task' generation claim =>
    obtain ⟨rfl, rfl⟩ := Prod.mk.inj (Option.some.inj hscope)
    refine onProof_spent h fun t ht => ?_
    simpa [spares, ht, slot] using hsp
  | completionVerified task' generation claim =>
    obtain ⟨rfl, rfl⟩ := Prod.mk.inj (Option.some.inj hscope)
    refine onProof_spent h fun t ht => ?_
    simpa [spares, ht, slot] using hsp
  | producerFailed task' generation reason =>
    obtain ⟨rfl, rfl⟩ := Prod.mk.inj (Option.some.inj hscope)
    exact handled_spent cfg hg (onProducerFailed_spec hg h) rfl ht (hgen.resolve_right nofun)
  | workDone task' generation resultDigest =>
    obtain ⟨rfl, rfl⟩ := Prod.mk.inj (Option.some.inj hscope)
    exact handled_spent cfg hg (onWorkDone_spec hg h) rfl ht (hgen.resolve_right nofun)
  | finalize task' generation =>
    obtain ⟨rfl, rfl⟩ := Prod.mk.inj (Option.some.inj hscope)
    exact handled_spent cfg hg (onFinalize_spec hg h) rfl ht (hgen.resolve_right nofun)
  | cancel task' generation =>
    obtain ⟨rfl, rfl⟩ := Prod.mk.inj (Option.some.inj hscope)
    exact handled_spent cfg hg (onCancel_spec hg h) rfl ht (hgen.resolve_right nofun)
  | retry task' generation =>
    obtain ⟨rfl, rfl⟩ := Prod.mk.inj (Option.some.inj hscope)
    exact handled_spent cfg hg (onRetry_spec hg h) rfl ht (hgen.resolve_right nofun)
  | revoke task' generation reason =>
    obtain ⟨rfl, rfl⟩ := Prod.mk.inj (Option.some.inj hscope)
    exact handled_spent cfg hg (onRevoke_spec hg h) rfl ht (hgen.resolve_right nofun)
  | beginCommit task' generation completion producers =>
    obtain ⟨rfl, rfl⟩ := Prod.mk.inj (Option.some.inj hscope)
    exact handled_spent cfg hg (onBeginCommit_spec cfg.enabled hg h) rfl ht (hgen.resolve_right nofun)
  | commitOutcome task' generation outcome =>
    obtain ⟨rfl, rfl⟩ := Prod.mk.inj (Option.some.inj hscope)
    exact handled_spent cfg hg (onCommitOutcome_spec hg h) rfl ht (hgen.resolve_right nofun)
  | registerTask task' resources producers => exact nomatch hscope
  | addDependency producer consumer => exact nomatch hscope
  | heartbeat task' generation beat => exact nomatch hscope
  | auditRevoke revocations => exact nomatch hscope
  | tick => exact nomatch hscope

/-! ## The allowance of a task -/

/-- How many keys are bound to `task` at generation `g`. -/
def boundAt (c : Core) (task : String) (g : UInt64) : Nat :=
  Table.total c.approvals fun b => if b.task = task ∧ b.generation = g then 1 else 0

/-- How many ids the bucket of a task may hold: the event that began its generation, what took it further, and the keys
bound at that generation. The keys of an ended task are gone, so there it is as many as there may have been. -/
def allowance (c : Core) (task : String) (t : TaskEntry) : Nat :=
  1 + t.status.load + if t.state.isCommitTerminal then maxApprovalBindingsPerTask else c.boundAt task t.generation

theorem boundAt_le : c.boundAt task g ≤ c.keysOf task := by
  rw [keysOf_eq]
  refine Table.total_le_total fun b => ?_
  split_ifs with h1 h2
  · exact Nat.le_refl _
  · exact absurd h1.1 h2
  · exact Nat.zero_le _
  · exact Nat.le_refl _

theorem allowance_le (hkeys : c.keysOf task ≤ maxApprovalBindingsPerTask) : c.allowance task t ≤ 76 := by
  unfold allowance
  have hload := t.status.load_le
  have hbound : c.boundAt task t.generation ≤ maxApprovalBindingsPerTask := boundAt_le.trans hkeys
  have hmax : maxApprovalBindingsPerTask = 64 := rfl
  split_ifs <;> omega

theorem boundAt_settle (ht : c.tasks[task]? = some t) (hopen : t.state.isCommitTerminal = false) :
    (c.settle cfg dg e).boundAt task g = c.boundAt task g := by
  refine Table.total_filter_eq fun key b _ hdrop => ?_
  rw [if_neg]
  rintro ⟨rfl, -⟩
  simp [ht, bindingEnded, hopen] at hdrop

/-- A key bound at `g` for the first time is one more. -/
theorem boundAt_insert {key : String} (hkey : ∀ b, c.approvals[key]? = some b → b.task = task ∧ b.generation ≠ g) :
    boundAt { c with approvals := c.approvals.insert key ⟨task, g⟩ } task g = c.boundAt task g + 1 := by
  unfold boundAt
  cases hold : c.approvals[key]? with
  | none => rw [Table.total_insert_new hold, if_pos ⟨rfl, rfl⟩]
  | some b =>
    have hput := Table.total_insert (v := (⟨task, g⟩ : ApprovalBinding))
      (w := fun b => if b.task = task ∧ b.generation = g then 1 else 0) hold
    rw [if_neg fun h => (hkey b hold).2 h.2, if_pos ⟨rfl, rfl⟩] at hput
    exact hput

/-- A key that stays with its task leaves the count of the others alone. -/
theorem boundAt_insert_other {key other : String} {g' : UInt64} (hne : other ≠ task)
    (hkey : ∀ b, c.approvals[key]? = some b → b.task = task ∧ b.generation ≠ g) :
    boundAt { c with approvals := c.approvals.insert key ⟨task, g⟩ } other g' = c.boundAt other g' := by
  unfold boundAt
  cases hold : c.approvals[key]? with
  | none => rw [Table.total_insert_new hold, if_neg fun h => hne h.1.symm, Nat.add_zero]
  | some b =>
    have hput := Table.total_insert (v := (⟨task, g⟩ : ApprovalBinding))
      (w := fun b => if b.task = other ∧ b.generation = g' then 1 else 0) hold
    rw [if_neg fun h => hne (h.1.symm.trans (hkey b hold).1), if_neg fun h => hne h.1.symm] at hput
    exact hput

/-! ## Runs -/

/-- A core whose memory is in order: the window is within its bound, and the only bucket of a task is that of its current
generation, within its allowance. -/
structure Thrifty (cfg : ProvisionalConfig) (c : Core) : Prop where
  good : c.Good
  sound : c.seen.Sound
  window : c.seen.window.length ≤ cfg.dedupWindow
  keys : ∀ task, c.keysOf task ≤ maxApprovalBindingsPerTask
  bucket : ∀ task g, c.seen.bucket task g ≠ [] → ∃ t, c.tasks[task]? = some t ∧ t.generation = g ∧
    (c.seen.bucket task g).length ≤ c.allowance task t

/-- The event adds no one to the last generation, and it spares the memory. -/
def Sparing (c : Core) (e : JournalEntry) : Prop := NoWrap c e ∧ c.spares e.kind = true

instance : Decidable (Sparing c e) := inferInstanceAs (Decidable (_ ∧ _))

def Sparings (cfg : ProvisionalConfig) (dg : EventKind → String) : List JournalEntry → Core → Prop
  | [], _ => True
  | e :: es, c => Sparing c e ∧ ∀ c' fx, apply cfg c dg e = .ok (c', fx) → Sparings cfg dg es c'

instance sparingsDecidable : (es : List JournalEntry) → (c : Core) → Decidable (Sparings cfg dg es c)
  | [], _ => isTrue trivial
  | e :: es, c =>
    match h : apply cfg c dg e with
    | .ok (c', _) =>
      have := sparingsDecidable es c'
      decidable_of_iff (Sparing c e ∧ Sparings cfg dg es c') (by simp [Sparings, h])
    | .error _ => decidable_of_iff (Sparing c e) (by simp [Sparings, h])

theorem thrifty_empty (cfg : ProvisionalConfig) : Thrifty cfg {} where
  good := good_empty
  sound := Seen.sound_empty
  window := Nat.zero_le _
  keys task := by
    rw [keysOf_eq]
    exact Nat.zero_le _
  bucket task g h := absurd (by simp [Seen.bucket]) h

/-- The allowance of a task that stays at its generation does not shrink. -/
theorem allowance_mono {t' : TaskEntry} (hkeys : c.keysOf task ≤ maxApprovalBindingsPerTask)
    (hg : t'.generation = t.generation) (hload : t.status.load ≤ t'.status.load)
    (hbound : t'.state.isCommitTerminal = false → c.boundAt task t.generation ≤ c'.boundAt task t.generation) :
    c.allowance task t + (t'.status.load - t.status.load) ≤ c'.allowance task t' := by
  have hmax : c.boundAt task t.generation ≤ maxApprovalBindingsPerTask := boundAt_le.trans hkeys
  unfold allowance
  rw [hg]
  cases he' : t'.state.isCommitTerminal with
  | true =>
    simp only [if_true]
    split_ifs <;> omega
  | false =>
    -- an ended task has come further than any other, so this one had not ended before
    have he : t.state.isCommitTerminal = false := by
      cases he : t.state.isCommitTerminal with
      | false => rfl
      | true =>
        have h1 : 9 ≤ t.status.load := Status.load_ended he
        have h2 : t'.status.load ≤ 8 := Status.load_open he'
        omega
    have hb := hbound he'
    simp only [he, Bool.false_eq_true, if_false]
    omega

/-- An event that spares the memory unbinds no key from the current generation of its task. -/
theorem applyKind_boundAt {u : String} {t : TaskEntry} (hg : c.Good) (hsp : c.spares kind = true)
    (h : applyKind cfg c now kind = .ok x) (ht : c.tasks[u]? = some t) :
    c.boundAt u t.generation ≤ x.core.boundAt u t.generation := by
  by_cases hbind : ∃ key task g, kind = .bindApproval key task g
  · obtain ⟨key, task, g, rfl⟩ := hbind
    obtain ⟨t', ht', hgen, -, -, rfl⟩ := onBindApproval_ok h
    have hkey : ∀ b, c.approvals[key]? = some b → b.task = task ∧ b.generation ≠ g := fun b hb => by
      simpa [spares, hb] using hsp
    by_cases hu : u = task
    · subst hu
      obtain rfl := Option.some.inj (ht.symm.trans ht')
      rw [hgen, boundAt_insert hkey]
      exact Nat.le_succ _
    · rw [boundAt_insert_other hu hkey]
  · have hframe := applyKind_frame hg (fun key task g hk => hbind ⟨key, task, g, hk⟩) h
    unfold boundAt
    rw [hframe.approvals]

theorem applyKind_keys (hg : c.Good) (hkeys : ∀ task, c.keysOf task ≤ maxApprovalBindingsPerTask)
    (h : applyKind cfg c now kind = .ok x) (task : String) : x.core.keysOf task ≤ maxApprovalBindingsPerTask := by
  by_cases hbind : ∃ key task g, kind = .bindApproval key task g
  · obtain ⟨key, task', g, rfl⟩ := hbind
    obtain ⟨t', -, -, -, hroom, rfl⟩ := onBindApproval_ok h
    exact keysOf_approve hkeys hroom task
  · have hframe := applyKind_frame hg (fun key task g hk => hbind ⟨key, task, g, hk⟩) h
    unfold keysOf
    rw [hframe.approvals]
    exact hkeys task

theorem applyKind_seen (hg : c.Good) (h : applyKind cfg c now kind = .ok x) : x.core.seen = c.seen := by
  by_cases hbind : ∃ key task g, kind = .bindApproval key task g
  · obtain ⟨key, task, g, rfl⟩ := hbind
    obtain ⟨t', -, -, -, -, rfl⟩ := onBindApproval_ok h
    rfl
  · exact (applyKind_frame hg (fun key task g hk => hbind ⟨key, task, g, hk⟩) h).seen

/-- The bucket of the current generation is within the allowance, also where it is empty. -/
theorem Thrifty.length_le (hc : Thrifty cfg c) (ht : c.tasks[task]? = some t) :
    (c.seen.bucket task t.generation).length ≤ c.allowance task t := by
  by_cases hne : c.seen.bucket task t.generation = []
  · rw [hne]
    exact Nat.zero_le _
  · obtain ⟨t', ht', -, hlen⟩ := hc.bucket task t.generation hne
    obtain rfl := Option.some.inj (ht.symm.trans ht')
    exact hlen

/-- What an accepted event is made of: its kind, then the pump, then the bookkeeping. -/
theorem apply_phases (hg : c.Good) (h : apply cfg c dg e = .ok (c', fx)) :
    ∃ x x' : Exec, applyKind cfg { c with lastAt := e.now } e.now e.kind = .ok x ∧ c' = x'.core.settle cfg dg e ∧
      e.id ∉ c.seen.ids ∧ x'.core.approvals = x.core.approvals ∧
      c'.seen = (c.seen.record e.id (dg e.kind) e.kind cfg.dedupWindow).prune (fun u => c'.tasks[u]?.map (·.generation)) ∧
      ∀ (u : String) (t : TaskEntry), x.core.tasks[u]? = some t → ∃ t', c'.tasks[u]? = some t' ∧
        t'.generation = t.generation ∧ t.status.load ≤ t'.status.load := by
  obtain ⟨-, hid, -, x, x', hx, hx', rfl, rfl⟩ := apply_ok h
  have hgood : Core.Good { c with lastAt := e.now } := hg.congr rfl rfl rfl
  obtain ⟨acts, hh, -, -⟩ := applyKind_spec hgood hx
  obtain ⟨y, ds, hy, hp⟩ := Exec.pump_spec cfg e.now hh.good
  obtain rfl := Except.ok.inj (hx'.symm.trans hy)
  have hseen : x.core.seen = c.seen := applyKind_seen (c := { c with lastAt := e.now }) hgood hx
  refine ⟨x, x', hx, rfl, hid, hp.rest.2.1, ?_, fun u t ht => ?_⟩
  · rw [← hseen, ← hp.rest.1]
    rfl
  obtain ⟨s', hs', hgen, hadv⟩ := hp.steps.started (net_status_of ht)
  obtain ⟨t', ht', rfl⟩ := net_status.1 hs'
  exact ⟨t', ht', hgen, hadv.2 hgen⟩

theorem apply_advance {u : String} (hg : c.Good) (hno : NoWrap c e) (h : apply cfg c dg e = .ok (c', fx))
    (ht : c.tasks[u]? = some t) : ∃ t', c'.tasks[u]? = some t' ∧ t.status.Advance t'.status := by
  obtain ⟨n, hkept, hdisp⟩ := apply_kept Net.advance_kept hg hno h
  obtain ⟨s₁, hs₁, hadv₁⟩ := hkept u t.status (net_status_of ht)
  obtain ⟨s', hs', -, hadv⟩ := hdisp.started hs₁
  obtain ⟨t', ht', rfl⟩ := net_status.1 hs'
  exact ⟨t', ht', hadv₁.trans hadv⟩

/-- What is in a bucket after an event: nothing below the current generation, else what was there and the event's id, if
it is bound to that task and generation. -/
theorem apply_bucket {u : String} (hg : c.Good) (h : apply cfg c dg e = .ok (c', fx)) :
    c'.seen.bucket u g = if (c'.tasks[u]?.map (·.generation)).any (g < ·) then [] else
      if generationScope e.kind = some (u, g) then c.seen.bucket u g ++ [e.id] else c.seen.bucket u g := by
  obtain ⟨-, -, -, -, -, -, hseen, -⟩ := apply_phases hg h
  rw [hseen, Seen.bucket_prune, Seen.bucket_record]

theorem Thrifty.spent {u : String} (hc : Thrifty cfg c) (hsp : Sparing c e) (h : apply cfg c dg e = .ok (c', fx))
    (hscope : generationScope e.kind = some (u, g)) (hnow : ∀ t', c'.tasks[u]? = some t' → ¬ g < t'.generation) :
    ∃ t', c'.tasks[u]? = some t' ∧ t'.generation = g ∧ (c.seen.bucket u g).length + 1 ≤ c'.allowance u t' := by
  have hgood : Core.Good { c with lastAt := e.now } := hc.good.congr rfl rfl rfl
  have hspares : spares { c with lastAt := e.now } e.kind = true := hsp.2
  obtain ⟨x, x', hx, rfl, -, happr, -, hpump⟩ := apply_phases hc.good h
  have hsettle : ∀ {t'} g, x'.core.tasks[u]? = some t' → t'.state.isCommitTerminal = false →
      (x'.core.settle cfg dg e).boundAt u g = x.core.boundAt u g := by
    intro t' g ht' hopen
    rw [boundAt_settle ht' hopen]
    unfold boundAt
    rw [happr]
  cases applyKind_spent hgood hspares hx hscope with
  | further t t₁ ht ht₁ hg hg₁ hload =>
    obtain ⟨t', ht', hg', hload'⟩ := hpump u t₁ ht₁
    refine ⟨t', ht', hg'.trans hg₁, ?_⟩
    have hlen : (c.seen.bucket u t.generation).length ≤ c.allowance u t := hc.length_le ht
    rw [hg] at hlen
    have hmono : c.allowance u t + (t'.status.load - t.status.load) ≤ (x'.core.settle cfg dg e).allowance u t' :=
      allowance_mono (hc.keys u) ((hg'.trans hg₁).trans hg.symm) (by omega) fun hopen => by
        rw [hsettle _ ht' hopen]
        exact applyKind_boundAt (c := { c with lastAt := e.now }) hgood hspares hx ht
    omega
  | left t t₁ ht ht₁ hg hg₁ =>
    -- the generation was left without a wrap, so its bucket is gone
    obtain ⟨t', ht', hg', -⟩ := hpump u t₁ ht₁
    obtain ⟨t'', ht'', hadv⟩ := apply_advance hc.good hsp.1 h ht
    obtain rfl := Option.some.inj (ht'.symm.trans ht'')
    have hle : t.generation ≤ t'.generation := hadv.1.le
    rw [hg, hg', hg₁] at hle
    refine absurd ?_ (hnow t' ht')
    rw [hg', hg₁]
    exact UInt64.lt_of_le_of_ne hle (Ne.symm ne_next)
  | begun t t₁ ht ht₁ hg hg₁ =>
    obtain ⟨t', ht', hg', -⟩ := hpump u t₁ ht₁
    refine ⟨t', ht', hg'.trans hg₁, ?_⟩
    have hnone : c.seen.bucket u g = [] := by
      by_contra hsome
      obtain ⟨t₀, ht₀, hg₀, -⟩ := hc.bucket u g hsome
      obtain rfl := Option.some.inj (ht₀.symm.trans ht)
      exact UInt64.lt_irrefl _ (hg₀ ▸ hg)
    rw [hnone]
    unfold allowance
    simp only [List.length_nil]
    omega
  | bound key t ht hg hopen hkey hcore =>
    have ht₁ : x.core.tasks[u]? = some t := by rw [hcore]; exact ht
    obtain ⟨t', ht', hg', hload'⟩ := hpump u t ht₁
    refine ⟨t', ht', hg'.trans hg, ?_⟩
    have hlen : (c.seen.bucket u t.generation).length ≤ c.allowance u t := hc.length_le ht
    rw [hg] at hlen
    have hmono : x.core.allowance u t + (t'.status.load - t.status.load) ≤ (x'.core.settle cfg dg e).allowance u t' :=
      allowance_mono (applyKind_keys (c := { c with lastAt := e.now }) hgood hc.keys hx u) hg' hload' fun hopen => by rw [hsettle _ ht' hopen]
    have hmore : x.core.boundAt u g = c.boundAt u g + 1 := by
      rw [hcore]
      exact boundAt_insert hkey
    unfold allowance at hlen hmono ⊢
    rw [hopen, hg] at hlen hmono
    simp only [Bool.false_eq_true, if_false] at hlen hmono
    omega

theorem Thrifty.kept {u : String} (hc : Thrifty cfg c) (hsp : Sparing c e) (h : apply cfg c dg e = .ok (c', fx))
    (hne : c.seen.bucket u g ≠ []) (hnow : ∀ t', c'.tasks[u]? = some t' → ¬ g < t'.generation) :
    ∃ t', c'.tasks[u]? = some t' ∧ t'.generation = g ∧ (c.seen.bucket u g).length ≤ c'.allowance u t' := by
  have hgood : Core.Good { c with lastAt := e.now } := hc.good.congr rfl rfl rfl
  have hspares : spares { c with lastAt := e.now } e.kind = true := hsp.2
  obtain ⟨t, ht, rfl, hlen⟩ := hc.bucket u g hne
  obtain ⟨t', ht', hadv⟩ := apply_advance hc.good hsp.1 h ht
  have hsame : t'.generation = t.generation := UInt64.le_antisymm (UInt64.not_lt.1 (hnow t' ht')) hadv.1.le
  refine ⟨t', ht', hsame, hlen.trans ?_⟩
  obtain ⟨x, x', hx, rfl, -, happr, -, -⟩ := apply_phases hc.good h
  have hmono : c.allowance u t + (t'.status.load - t.status.load) ≤ (x'.core.settle cfg dg e).allowance u t' :=
    allowance_mono (hc.keys u) hsame (hadv.2 hsame) fun hopen => by
      rw [boundAt_settle (c := x'.core) ht' hopen]
      refine (applyKind_boundAt (c := { c with lastAt := e.now }) hgood hspares hx ht).trans (Nat.le_of_eq ?_)
      unfold boundAt
      rw [happr]
  omega

theorem Thrifty.apply (hc : Thrifty cfg c) (hsp : Sparing c e) (h : apply cfg c dg e = .ok (c', fx)) :
    Thrifty cfg c' := by
  have hgood : Core.Good { c with lastAt := e.now } := hc.good.congr rfl rfl rfl
  have hbucket : ∀ u g, c'.seen.bucket u g = _ := fun u g => apply_bucket hc.good h
  have hspent : ∀ u g, _ := fun u g => Thrifty.spent (u := u) (g := g) hc hsp h
  have hkept : ∀ u g, _ := fun u g => Thrifty.kept (u := u) (g := g) hc hsp h
  have hgood' := (apply_spec hc.good h).1
  obtain ⟨x, x', hx, rfl, hid, happr, hseen, -⟩ := apply_phases hc.good h
  refine ⟨hgood', ?_, ?_, fun u => ?_, fun u g hne => ?_⟩
  · rw [hseen]
    exact (hc.sound.record hid).prune
  · rw [hseen]
    exact Seen.length_window_record hc.window
  · refine keysOf_settle.trans ?_
    unfold keysOf
    rw [happr]
    exact applyKind_keys (c := { c with lastAt := e.now }) hgood hc.keys hx u
  · rw [hbucket] at hne
    by_cases hany : (((x'.core.settle cfg dg e).tasks[u]?).map (·.generation)).any (g < ·) = true
    · rw [if_pos hany] at hne
      exact absurd rfl hne
    · rw [if_neg hany] at hne
      rw [hbucket, if_neg hany]
      have hnow : ∀ t', (x'.core.settle cfg dg e).tasks[u]? = some t' → ¬ g < t'.generation := by
        intro t' ht' hlt
        exact hany (by simpa [ht'] using hlt)
      by_cases hscope : generationScope e.kind = some (u, g)
      · rw [if_pos hscope, List.length_append]
        exact hspent u g hscope hnow
      · rw [if_neg hscope] at hne ⊢
        exact hkept u g hne hnow

theorem Thrifty.replay {es : List JournalEntry} (hc : Thrifty cfg c) (hsp : Sparings cfg dg es c)
    (h : replay cfg dg es c = .ok c') : Thrifty cfg c' := by
  induction es generalizing c with
  | nil =>
    obtain rfl := Except.ok.inj h
    exact hc
  | cons e es ih =>
    unfold Core.replay at h
    rw [List.foldlM_cons, bind_ok] at h
    obtain ⟨c₁, h₁, h₂⟩ := h
    simp only [bind_ok, pure_ok] at h₁
    obtain ⟨⟨c₁, fx⟩, happ, rfl⟩ := h₁
    exact ih (hc.apply hsp.1 happ) (hsp.2 c₁ fx happ) h₂

/-- Every id is in the window or in the bucket of a task at its current generation. -/
theorem Thrifty.size_le (hc : Thrifty cfg c) : c.seen.ids.size ≤ cfg.dedupWindow + 76 * c.tasks.size := by
  have hall : ∀ x ∈ c.seen.ids,
      x ∈ c.seen.window ++ c.tasks.toList.flatMap fun e => c.seen.bucket e.1 e.2.generation := by
    intro x hx
    rcases (hc.sound.known x).1 hx with hx | ⟨task, g, hx⟩
    · exact List.mem_append_left _ hx
    · obtain ⟨t, ht, rfl, -⟩ := hc.bucket task g (List.ne_nil_of_mem hx)
      refine List.mem_append_right _ (List.mem_flatMap.2 ⟨(task, t), ?_, hx⟩)
      exact ExtTreeMap.mem_toList_iff_getElem?_eq_some.2 ht
  have hbuckets : (c.tasks.toList.flatMap fun e => c.seen.bucket e.1 e.2.generation).length ≤
      c.tasks.toList.length • 76 := by
    have hcard : (c.tasks.toList.map fun e => (c.seen.bucket e.1 e.2.generation).length).length = c.tasks.toList.length :=
      List.length_map _
    rw [List.length_flatMap, ← hcard]
    refine List.sum_le_card_nsmul _ _ fun k hk => ?_
    obtain ⟨⟨task, t⟩, he, rfl⟩ := List.mem_map.1 hk
    exact (hc.length_le (ExtTreeMap.mem_toList_iff_getElem?_eq_some.1 he)).trans (allowance_le (hc.keys task))
  rw [ExtTreeMap.length_toList, smul_eq_mul, Nat.mul_comm] at hbuckets
  calc c.seen.ids.size
    _ ≤ _ := Table.size_le_length hall
    _ ≤ cfg.dedupWindow + 76 * c.tasks.size := by
      rw [List.length_append]
      exact Nat.add_le_add hc.window hbuckets

/-- **The memory of event ids is bounded** in a run in which no event adds one to the last generation, no claim is shown
at a generation that has one, and a key is bound only while it is free or bound to the same task at another generation:
it holds a window and 76 ids for each task. -/
theorem dedup_bounded (cfg : ProvisionalConfig) (dg : EventKind → String) (es : List JournalEntry) (c : Core)
    (hsp : Sparings cfg dg es {}) (h : Core.replay cfg dg es {} = .ok c) :
    c.seen.ids.size ≤ cfg.dedupWindow + 76 * c.tasks.size :=
  ((thrifty_empty cfg).replay hsp h).size_le

/-- A run to a commit, with a bound key: every event takes its task further. -/
def boundStart : List JournalEntry :=
  untilCommittable ++ [⟨9, "e9", 0, .bindApproval "k" "t" 1⟩, ⟨10, "e10", 0, .interfacePublished "t" 1 ⟨"r3", "c3", "d3"⟩⟩]

theorem dedup_bounded_boundStart :
    ∃ c, Core.replay {} (fun _ => "") boundStart {} = .ok c ∧ c.seen.ids.size = 10 ∧
      c.seen.ids.size ≤ 4096 + 76 * c.tasks.size := by
  have heval : (Core.replay {} (fun _ => "") boundStart {}).toOption.map (·.seen.ids.size) = some 10 := by
    decide +kernel
  obtain ⟨c, hc, hsize⟩ := Option.map_eq_some_iff.1 heval
  have hsp : Sparings {} (fun _ => "") boundStart {} := by decide +kernel
  exact ⟨c, toOption_some.1 hc, hsize, dedup_bounded _ _ _ c hsp (toOption_some.1 hc)⟩

/-! ## A claim that is shown again -/

def shownId (n : Nat) : String := String.ofList (List.replicate (n + 1) 'a')

theorem shownId_inj {n m : Nat} (h : shownId n = shownId m) : n = m := by
  have hlen := congrArg (fun s : String => s.toList.length) h
  simpa [shownId] using hlen

def shownClaim : ProofClaim := ⟨"r1", "c1", "d1"⟩

def showAgain (c : Core) (n : Nat) : JournalEntry :=
  ⟨c.seq + 1, shownId n, c.lastAt, .interfacePublished "t" 1 shownClaim⟩

/-- One running task, whose interface was shown `n` times. -/
structure Shown (n : Nat) (c : Core) : Prop where
  good : c.Good
  sound : c.seen.Sound
  running : ∃ t, c.tasks["t"]? = some t ∧ t.state = .provisional ∧ t.generation = 1 ∧ t.interface = some shownClaim
  alone : ∀ u t, c.tasks[u]? = some t → u = "t"
  bucket : c.seen.bucket "t" 1 = (List.range n).map shownId
  ids : ∀ x ∈ c.seen.ids, x = "r" ∨ ∃ k < n, x = shownId k

theorem dispatches_same {enabled : Bool} {n n' : Net} {ds : List String} {u : String} {s : Status}
    (hsteps : Net.Steps enabled n (ds.map .dispatch) n') (hu : n.status u = some s) (hs : s.state ≠ .blocked) :
    n'.status u = some s := by
  induction ds generalizing n with
  | nil =>
    cases hsteps
    exact hu
  | cons d ds ih =>
    cases hsteps with
    | cons hstep hrest =>
      cases hstep with
      | dispatch hd hst hready =>
        refine ih hrest ?_
        rw [Net.set_status, if_neg]
        · exact hu
        · rintro rfl
          exact hs (Option.some.inj (hu.symm.trans hd) ▸ hst)

theorem Shown.next {n : Nat} (h : Shown n c) (cfg : ProvisionalConfig) (dg : EventKind → String) :
    ∃ c' fx, apply cfg c dg (c.showAgain n) = .ok (c', fx) ∧ Shown (n + 1) c' := by
  obtain ⟨t, ht, hst, hgen, hi⟩ := h.running
  have hfresh : shownId n ∉ c.seen.ids := by
    intro hmem
    rcases h.ids _ hmem with hr | ⟨k, hk, he⟩
    · have := congrArg String.toList hr
      simp [shownId, List.replicate_succ] at this
    · exact absurd (shownId_inj he) (by omega)
  have hset : setSlot .interface shownClaim t = t := by
    unfold setSlot
    rw [← hi]
  have hgood : Core.Good { c with lastAt := c.lastAt } := h.good
  have hx : applyKind cfg { c with lastAt := c.lastAt } c.lastAt (.interfacePublished "t" 1 shownClaim) =
      .ok { core := c.put "t" t c.pool } := by
    simp only [applyKind, onProof, bind_ok, requireGeneration_ok, requireState_ok, task_ok, taskMut_ok]
    refine ⟨(), ⟨t, ht, hgen⟩, (), ⟨t, ht, by rw [hst]; rfl⟩, t, ht, c.put "t" t c.pool, ⟨t, ht, by rw [hset]⟩, ?_⟩
    have hslot : slot .interface t = some shownClaim := hi
    simp [hslot]
  obtain ⟨acts, hh, hacts, -⟩ := applyKind_spec hgood hx
  obtain ⟨x', ds, hpump, hp⟩ := Exec.pump_spec cfg c.lastAt hh.good
  have happ : apply cfg c dg (c.showAgain n) = .ok (x'.core.settle cfg dg (c.showAgain n), x'.fx) := by
    unfold apply
    simp only [guard_ok, bind_ok, pure_ok]
    exact ⟨by simp [showAgain], by simpa [showAgain] using hfresh, UInt64.lt_irrefl _, _, hx, _, hpump, rfl⟩
  have hgood' := (apply_spec h.good happ).1
  have htask : (c.put "t" t c.pool).tasks["t"]? = some t := by simp
  obtain ⟨t', ht', hstatus⟩ := net_status.1 (dispatches_same hp.steps (net_status_of htask) (by
    show t.state ≠ .blocked
    rw [hst]
    decide))
  have hgen' : t'.generation = 1 := (congrArg Status.generation hstatus).trans hgen
  obtain ⟨-, -, -, -, -, -, hseen, -⟩ := apply_phases h.good happ
  have hbucket := apply_bucket (u := "t") (g := 1) h.good happ
  refine ⟨_, _, happ, hgood', ?_, ⟨t', ht', (congrArg Status.state hstatus).trans hst, hgen',
    (congrArg Status.interface hstatus).trans hi⟩, fun u tu htu => ?_, ?_, fun x hx => ?_⟩
  · rw [hseen]
    exact (h.sound.record hfresh).prune
  · -- nothing was registered
    obtain ⟨s₁, hs₁⟩ := hp.steps.known (by simp) (net_status_of (c := x'.core) htu)
    obtain ⟨t₁, ht₁, -⟩ := net_status.1 hs₁
    by_cases hu : u = "t"
    · exact hu
    · have hput : (c.put "t" t c.pool).tasks[u]? = some t₁ := ht₁
      rw [put_tasks, if_neg (Ne.symm hu)] at hput
      exact h.alone u t₁ hput
  · have htask' : (x'.core.settle cfg dg (c.showAgain n)).tasks["t"]? = some t' := ht'
    have hscope : generationScope (c.showAgain n).kind = some ("t", 1) := rfl
    rw [htask', hscope, if_pos rfl, h.bucket] at hbucket
    rw [hbucket, List.range_succ, List.map_append]
    simp [hgen', showAgain]
  · rw [hseen, Seen.mem_prune, Seen.mem_record_bound (show generationScope (c.showAgain n).kind = some ("t", 1) from rfl)] at hx
    rcases hx.1 with rfl | hx
    · exact .inr ⟨n, Nat.lt_succ_self n, rfl⟩
    · rcases h.ids x hx with hr | ⟨k, hk, he⟩
      · exact .inl hr
      · exact .inr ⟨k, Nat.lt_succ_of_lt hk, he⟩

def firstShown : List JournalEntry :=
  [⟨1, "r", 0, .registerTask "t" ⟨1, 1⟩ []⟩, ⟨2, shownId 0, 0, .interfacePublished "t" 1 shownClaim⟩]

theorem shown_first : ∃ c, replay {} (fun _ => "") firstShown {} = .ok c ∧ Shown 1 c := by
  have htasks : (replay {} (fun _ => "") firstShown {}).toOption.map (fun c =>
      c.tasks.toList.map fun e => (e.1, e.2.state, e.2.generation, e.2.interface)) =
      some [("t", .provisional, 1, some shownClaim)] := by decide +kernel
  have hseen : (replay {} (fun _ => "") firstShown {}).toOption.map (fun c => (c.seen.ids.keys, c.seen.bucket "t" 1)) =
      some ([shownId 0, "r"], [shownId 0]) := by decide +kernel
  obtain ⟨c, hc, hval⟩ := Option.map_eq_some_iff.1 hseen
  obtain ⟨hids, hbucket⟩ := Prod.mk.inj hval
  rw [hc, Option.map_some, Option.some.injEq] at htasks
  have hrun := toOption_some.1 hc
  have hthrifty : Thrifty {} c := (thrifty_empty {}).replay (by decide +kernel) hrun
  obtain ⟨⟨u, t⟩, hlist, hent⟩ := List.map_eq_singleton_iff.1 htasks
  simp only [Prod.mk.injEq] at hent
  obtain ⟨rfl, hst, hgen, hi⟩ := hent
  have hmem : ∀ u t', c.tasks[u]? = some t' ↔ (u, t') = ("t", t) := fun u t' => by
    rw [← ExtTreeMap.mem_toList_iff_getElem?_eq_some, hlist, List.mem_singleton]
  refine ⟨c, hrun, hthrifty.good, hthrifty.sound, ⟨t, (hmem "t" t).2 rfl, hst, hgen, hi⟩,
    fun u t' ht' => (Prod.mk.inj ((hmem u t').1 ht')).1, hbucket, fun x hx => ?_⟩
  rw [← ExtTreeMap.mem_keys, hids] at hx
  rcases List.mem_cons.1 hx with rfl | hx
  · exact .inr ⟨0, Nat.zero_lt_one, rfl⟩
  · exact .inl (List.mem_singleton.1 hx)

theorem shown_run (n : Nat) : ∃ es c, replay {} (fun _ => "") es {} = .ok c ∧ Shown (n + 1) c := by
  induction n with
  | zero =>
    obtain ⟨c, hrun, h⟩ := shown_first
    exact ⟨_, c, hrun, h⟩
  | succ n ih =>
    obtain ⟨es, c, hrun, h⟩ := ih
    obtain ⟨c', fx, happ, h'⟩ := h.next {} fun _ => ""
    refine ⟨es ++ [c.showAgain (n + 1)], c', ?_, h'⟩
    unfold replay at hrun ⊢
    rw [List.foldlM_append, hrun]
    simp [happ]

/-- **The memory of event ids is not bounded**: an interface that is shown again under a new id is remembered again, as
often as it is shown. -/
theorem dedup_unbounded :
    ¬ ∃ K, ∀ (cfg : ProvisionalConfig) (dg : EventKind → String) (es : List JournalEntry) (c : Core),
      replay cfg dg es {} = .ok c → c.seen.ids.size ≤ cfg.dedupWindow + K * c.tasks.size := by
  rintro ⟨K, hK⟩
  obtain ⟨es, c, hrun, h⟩ := shown_run (4096 + K)
  have hsize : c.seen.ids.size ≤ 4096 + K * c.tasks.size := hK {} _ es c hrun
  have htasks : c.tasks.size ≤ 1 := by
    refine Table.size_le_length (l := ["t"]) fun u hu => ?_
    obtain ⟨t, ht⟩ := Table.mem_iff.1 hu
    exact List.mem_singleton.2 (h.alone u t ht)
  have hids : ((List.range (4096 + K + 1)).map shownId).length ≤ c.seen.ids.size := by
    refine Table.length_le_size ?_ fun x hx => ?_
    · exact List.Nodup.map (fun _ _ he => shownId_inj he) List.nodup_range
    · rw [← h.bucket] at hx
      exact (h.sound.known x).2 (.inr ⟨"t", 1, hx⟩)
  rw [List.length_map, List.length_range] at hids
  have hmul : K * c.tasks.size ≤ K * 1 := Nat.mul_le_mul_left K htasks
  omega

end Core

end SovereignCore.Harness
