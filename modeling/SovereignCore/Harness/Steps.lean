import SovereignCore.Harness.Calls

/-!
# Events are steps of the dependency protocol

Each handler of the core, when it accepts an event, takes the net through a sequence of protocol actions; the pump adds
one dispatch for each task it starts. With `Net.Step.sound` that carries every protocol invariant over to the code.

* `Good` : the graph is a DAG over the registered tasks, and the ready queue agrees with the `queued` flags;
* `revokeDescendants_spec` : the cascade is a `Sweep`;
* `pump_spec` : the pump never refuses, and only dispatches;
* `apply_spec` : an accepted event as protocol actions.
-/

namespace SovereignCore.Harness

open Std Result Relation

/-! ## Runs of actions -/

namespace Net

/-- The actions in order. -/
inductive Steps (enabled : Bool) : Net → List Act → Net → Prop
  | refl {n : Net} : Steps enabled n [] n
  | cons {n n' n'' : Net} {a : Act} {as : List Act} (h : Step enabled n a n') (hs : Steps enabled n' as n'') :
      Steps enabled n (a :: as) n''

variable {enabled : Bool} {n n' n'' : Net} {a : Act} {as bs : List Act} {t : String}

theorem Steps.single (h : Step enabled n a n') : Steps enabled n [a] n' := .cons h .refl

theorem Steps.trans (h : Steps enabled n as n') (h' : Steps enabled n' bs n'') : Steps enabled n (as ++ bs) n'' := by
  induction h with
  | refl => exact h'
  | cons hstep _ ih => exact .cons hstep (ih h')

theorem Steps.sound (hs : Steps enabled n as n') (h : Sound enabled n) : Sound enabled n' := by
  induction hs with
  | refl => exact h
  | cons hstep _ ih => exact ih (hstep.sound h)

theorem Steps.frozen (hs : Steps enabled n as n') (h : Sound enabled n) (ht : n.Committing t)
    (hno : ∀ done, .endCommit t done ∉ as) : Frozen n n' t := by
  induction hs with
  | refl => exact Frozen.refl h
  | @cons n n₁ n₂ a as hstep _ ih =>
    have h1 := hstep.frozen h ht fun done ha => hno done (by simp [ha])
    obtain ⟨s, hs, hc⟩ := ht
    have h2 := ih (hstep.sound h) ⟨s, by rw [h1.task]; exact hs, hc⟩ fun done hm => hno done (by simp [hm])
    exact h1.trans h2

end Net

/-! ## The structural invariant -/

namespace Core

structure Good (c : Core) : Prop where
  graph : c.graph.WF
  nodes : ∀ id, c.graph.contains id = true ↔ ∃ t, c.tasks[id]? = some t
  nodup : c.queue.Nodup
  member : ∀ id ∈ c.queue, ∃ t, c.tasks[id]? = some t ∧ t.queued = true
  queued : ∀ id t, c.tasks[id]? = some t → t.queued = true → id ∈ c.queue ∧ t.state = .blocked

variable {c c' : Core} {id : String} {t t' : TaskEntry} {pool : PermitPool} {now : UInt64}

theorem good_empty : Core.Good {} where
  graph := DependencyGraph.empty_wf
  nodes _ := by simp [DependencyGraph.contains]
  nodup := List.nodup_nil
  member _ h := by simp at h
  queued _ _ h := by simp at h

/-- `Good` reads the graph, the tasks and the queue only. -/
theorem Good.congr (h : c.Good) (hg : c'.graph = c.graph) (ht : c'.tasks = c.tasks) (hq : c'.queue = c.queue) :
    c'.Good where
  graph := hg ▸ h.graph
  nodes := by rw [hg, ht]; exact h.nodes
  nodup := hq ▸ h.nodup
  member := by rw [hq, ht]; exact h.member
  queued := by rw [hq, ht]; exact h.queued

theorem Good.put (h : c.Good) (ht : c.tasks[id]? = some t) (hq : t'.queued = t.queued)
    (hb : t'.queued = true → t'.state = .blocked) : (c.put id t' pool).Good where
  graph := h.graph
  nodes k := by
    rw [put_graph, h.nodes, put_tasks]
    by_cases hk : id = k
    · subst hk
      simp [ht]
    · simp [hk]
  nodup := h.nodup
  member k hk := by
    obtain ⟨tk, htk, hqk⟩ := h.member k hk
    rw [put_tasks]
    by_cases he : id = k
    · subst he
      rw [ht] at htk
      obtain rfl := Option.some.inj htk
      exact ⟨t', by simp, hq.trans hqk⟩
    · exact ⟨tk, by simp [he, htk], hqk⟩
  queued k tk htk hqk := by
    rw [put_tasks] at htk
    by_cases he : id = k
    · subst he
      simp only [if_true, Option.some.injEq] at htk
      subst htk
      exact ⟨(h.queued id t ht (hq.symm.trans hqk)).1, hb hqk⟩
    · simp only [he, if_false] at htk
      exact h.queued k tk htk hqk

theorem Good.dequeue_queue (h : c.Good) : (c.dequeue id).queue = c.queue.filter (· ≠ id) := by
  unfold dequeue
  have hno : id ∉ c.queue → c.queue = c.queue.filter (· ≠ id) := by
    intro hn
    rw [List.filter_eq_self.2]
    intro k hk
    simpa using fun he : k = id => hn (he ▸ hk)
  cases ht : c.tasks[id]? with
  | none =>
    refine hno fun hm => ?_
    obtain ⟨t, ht', -⟩ := h.member id hm
    simp [ht] at ht'
  | some t =>
    by_cases hq : t.queued = true
    · simp only [hq, if_true]
    · simp only [hq]
      refine hno fun hm => ?_
      obtain ⟨t', ht', hq'⟩ := h.member id hm
      rw [ht] at ht'
      obtain rfl := Option.some.inj ht'
      exact hq hq'

theorem Good.dequeue (h : c.Good) : (c.dequeue id).Good where
  graph := by rw [dequeue_graph]; exact h.graph
  nodes k := by
    rw [dequeue_graph, h.nodes, dequeue_tasks]
    cases c.tasks[k]? with
    | none => simp
    | some t => simp
  nodup := by rw [h.dequeue_queue]; exact h.nodup.filter _
  member k hk := by
    rw [h.dequeue_queue, List.mem_filter] at hk
    obtain ⟨tk, htk, hqk⟩ := h.member k hk.1
    have hne : ¬ id = k := fun he => by simp [he] at hk
    exact ⟨tk, by rw [dequeue_tasks, htk]; simp [hne], hqk⟩
  queued k tk htk hqk := by
    rw [dequeue_tasks] at htk
    by_cases he : id = k
    · simp only [he, if_true, Option.map_eq_some_iff] at htk
      obtain ⟨t0, -, rfl⟩ := htk
      simp at hqk
    · simp only [he, if_false, Option.map_id'] at htk
      obtain ⟨hm, hs⟩ := h.queued k tk htk hqk
      exact ⟨by rw [h.dequeue_queue, List.mem_filter]; exact ⟨hm, by simpa using Ne.symm he⟩, hs⟩

theorem Good.not_queued (h : c.Good) (ht : c.tasks[id]? = some t) (hs : t.state ≠ .blocked) : t.queued = false := by
  by_contra hq
  exact hs (h.queued id t ht (by simpa using hq)).2

/-- A task that is not waiting may change its entry freely, as long as it does not enter the queue. -/
theorem Good.put_idle (h : c.Good) (ht : c.tasks[id]? = some t) (hs : t.state ≠ .blocked) (hq : t'.queued = t.queued) :
    (c.put id t' pool).Good :=
  h.put ht hq fun hq' => absurd (hq.symm.trans hq') (by simp [h.not_queued ht hs])

theorem Good.edge_known (h : c.Good) {p u : String} (he : c.graph.Edge p u) :
    (∃ pt, c.tasks[p]? = some pt) ∧ ∃ ut, c.tasks[u]? = some ut := by
  obtain ⟨h1, h2⟩ := h.graph.known p u he
  exact ⟨(h.nodes p).1 h1, (h.nodes u).1 h2⟩

end Core

/-! ## Cascades -/

namespace Exec

variable {x x' : Exec} {id p : String} {t : TaskEntry} {now : UInt64} {reason : String} {cfg : ProvisionalConfig}

/-- One step of a cascade: the task `d` falls as `F` says, and no other task changes for the protocol. -/
structure Local (F : Status → Status → Prop) (x : Exec) (d : String) (x' : Exec) : Prop where
  good : x'.core.Good
  edge : x'.core.net.Edge = x.core.net.Edge
  falls : ∃ s s', x.core.net.status d = some s ∧ x'.core.net.status d = some s' ∧ F s s'
  same : ∀ u, u ≠ d → x'.core.net.status u = x.core.net.status u
  dispatched : x'.fx.dispatched = x.fx.dispatched

def Loose (x : Exec) (d : String) : Prop := ¬ x.core.net.Committing d ∧ ¬ x.core.net.Ended d

theorem Loose.cases (h : x.Loose id) (ht : x.core.tasks[id]? = some t) :
    t.state.isActive = true ∨ t.status.Resting := by
  have h1 : t.state ≠ .committing := fun hc => h.1 (Core.committing_iff.2 ⟨t, ht, hc⟩)
  have h2 : t.state.isCommitTerminal ≠ true := fun hc => h.2 ⟨t.status, Core.net_status_of ht, hc⟩
  unfold Status.Resting
  show t.state.isActive = true ∨ t.state = .blocked ∨ t.state = .aborted
  cases hs : t.state <;> simp [hs, TaskState.isCommitTerminal, TaskState.isActive] at h1 h2 ⊢

theorem put_local {t' : TaskEntry} {pool : PermitPool} {fx : Effects} (hg : Core.Good (x.core.put id t' pool))
    (ht : x.core.tasks[id]? = some t) (hf : Net.Falls t.status t'.status) (hfx : fx.dispatched = x.fx.dispatched) :
    Local Net.Falls x id { core := x.core.put id t' pool, fx := fx } where
  good := hg
  edge := by simp
  falls := ⟨t.status, t'.status, Core.net_status_of ht, by simp, hf⟩
  same u hu := by simp [hu]
  dispatched := hfx

theorem revokeOne_local (hg : x.core.Good) (hl : x.Loose id) (h : revokeOne p now reason x id = .ok x') :
    Local Net.Falls x id x' := by
  unfold revokeOne at h
  simp only [bind_ok, Core.task_ok] at h
  obtain ⟨t, ht, h⟩ := h
  by_cases ha : t.state.isActive = true
  · rw [if_pos ha, resetToBlocked_ok] at h
    obtain ⟨t', ht', -, rfl⟩ := h
    rw [ht] at ht'
    obtain rfl := Option.some.inj ht'
    have hb : t.state ≠ .blocked := fun hb => by simp [hb, TaskState.isActive] at ha
    refine put_local (hg.put_idle ht hb ?_) ht ?_ rfl
    · simp [resetEntry, hb, Core.clearWork, Core.moved]
    · rw [status_resetEntry]
      exact .resets ha
  · rw [if_neg ha, pure_ok] at h
    subst h
    have hr : t.status.Resting := (hl.cases ht).resolve_left ha
    exact ⟨hg.dequeue, by simp, ⟨t.status, t.status, Core.net_status_of ht, by simpa using Core.net_status_of ht,
      .stays hr⟩, fun u _ => by simp, rfl⟩

def GivenUp (s s' : Status) : Prop :=
  Net.Falls s s' ∧ s'.generation = s.generation ∧ (s'.state = .blocked → s.state = .blocked)

theorem cancelOne_local (hg : x.core.Good) (hl : x.Loose id) (h : Core.cancelOne now p x id = .ok x') :
    Local GivenUp x id x' := by
  unfold Core.cancelOne at h
  simp only [bind_ok, Core.task_ok] at h
  obtain ⟨t, ht, h⟩ := h
  by_cases ha : t.state = .aborted
  · rw [if_neg (fun hne => hne ha), pure_ok] at h
    subst h
    exact ⟨hg, rfl, ⟨t.status, t.status, Core.net_status_of ht, Core.net_status_of ht, .stays (Or.inr ha), rfl,
      fun hb => hb⟩,
      fun u _ => rfl, rfl⟩
  · rw [if_pos ha, abort_ok] at h
    obtain ⟨t', ht', -, -, rfl⟩ := h
    rw [ht] at ht'
    obtain rfl := Option.some.inj ht'
    have ht' : (x.core.dequeue id).tasks[id]? = some { t with queued := false } := by
      rw [Core.dequeue_tasks, ht]
      simp
    have hfall : Net.Falls t.status (abortEntry t now s!"ancestor '{p}' cancelled").status := by
      rw [status_abortEntry]
      refine .aborts ?_
      rcases hl.cases ht with h | h | h
      · exact Or.inl h
      · exact Or.inr h
      · exact absurd h ha
    refine ⟨(hg.dequeue).put ht' rfl (fun hq => ?_), by simp,
      ⟨t.status, _, Core.net_status_of ht, by simp, hfall, rfl, fun hb => ?_⟩, fun u hu => by simp [hu], rfl⟩
    · simp [abortEntry, Core.clearWork, Core.moved] at hq
    · simp [status_abortEntry, Status.abort] at hb

/-- A cascade over a list without repeats: each listed task falls once. -/
theorem fold_local {F : Status → Status → Prop} {step : Exec → String → Except SchedError Exec} {l : List String}
    (hstep : ∀ d x x', x.core.Good → x.Loose d → step x d = .ok x' → Local F x d x') (hnd : l.Nodup)
    (hg : x.core.Good) (hl : ∀ d ∈ l, x.Loose d) (h : l.foldlM step x = .ok x') :
    x'.core.Good ∧ x'.core.net.Edge = x.core.net.Edge ∧ x'.fx.dispatched = x.fx.dispatched ∧
      (∀ d ∈ l, ∃ s s', x.core.net.status d = some s ∧ x'.core.net.status d = some s' ∧ F s s') ∧
      ∀ u, u ∉ l → x'.core.net.status u = x.core.net.status u := by
  induction l generalizing x with
  | nil =>
    rw [List.foldlM_nil, pure_ok] at h
    subst h
    exact ⟨hg, rfl, rfl, fun d hd => by simp at hd, fun _ _ => rfl⟩
  | cons d l ih =>
    rw [List.foldlM_cons, bind_ok] at h
    obtain ⟨x1, h1, h2⟩ := h
    obtain ⟨hd, hnd'⟩ := List.nodup_cons.1 hnd
    have hloc := hstep d x x1 hg (hl d (by simp)) h1
    have hkeep : ∀ e ∈ l, x1.core.net.status e = x.core.net.status e :=
      fun e he => hloc.same e (fun h => hd (h ▸ he))
    have hl' : ∀ e ∈ l, x1.Loose e := by
      intro e he
      obtain ⟨h1, h2⟩ := hl e (by simp [he])
      exact ⟨by simpa [Net.Committing, hkeep e he] using h1, by simpa [Net.Ended, hkeep e he] using h2⟩
    obtain ⟨hgood, hedge, hfx, hin, hout⟩ := ih hnd' hloc.good hl' h2
    refine ⟨hgood, hedge.trans hloc.edge, hfx.trans hloc.dispatched, fun e he => ?_, fun u hu => ?_⟩
    · rcases List.mem_cons.1 he with rfl | he
      · obtain ⟨s, s', hs, hs', hf⟩ := hloc.falls
        exact ⟨s, s', hs, (hout e hd).trans hs', hf⟩
      · obtain ⟨s, s', hs, hs', hf⟩ := hin e he
        exact ⟨s, s', (hkeep e he) ▸ hs, hs', hf⟩
    · simp only [List.mem_cons, not_or] at hu
      exact (hout u hu.2).trans (hloc.same u hu.1)

/-- A cascade over what a change of `p` reaches is a sweep. -/
theorem fold_sweep {F : Status → Status → Prop} {step : Exec → String → Except SchedError Exec}
    (hstep : ∀ d x x', x.core.Good → x.Loose d → step x d = .ok x' → Local F x d x')
    (hF : ∀ s s', F s s' → Net.Falls s s') (hg : x.core.Good)
    (hguard : ∀ d, x.core.net.Committing d → ¬ x.core.net.Below p d)
    (h : (x.core.affected p).foldlM step x = .ok x') :
    Net.Sweep x.core.net p x'.core.net ∧ x'.core.Good ∧ x'.fx.dispatched = x.fx.dispatched ∧
      ∀ d, x.core.net.Below p d → ∃ s s', x.core.net.status d = some s ∧ x'.core.net.status d = some s' ∧ F s s' := by
  have hmem : ∀ d, d ∈ x.core.affected p ↔ x.core.net.Below p d := fun d => Core.mem_affected hg.graph
  obtain ⟨hgood, hedge, hfx, hin, hout⟩ := fold_local hstep Core.affected_nodup hg
    (fun d hd => ⟨fun hc => hguard d hc ((hmem d).1 hd), ((hmem d).1 hd).not_ended⟩) h
  refine ⟨⟨hedge, fun d hd => ?_, fun d hd => hout d fun h => hd ((hmem d).1 h)⟩, hgood, hfx,
    fun d hd => hin d ((hmem d).2 hd)⟩
  obtain ⟨s, s', hs, hs', hf⟩ := hin d ((hmem d).2 hd)
  exact ⟨s, s', hs, hs', hF s s' hf⟩

theorem revokeDescendants_spec (hg : x.core.Good) (h : x.revokeDescendants p now reason = .ok x') :
    Net.Sweep x.core.net p x'.core.net ∧ x'.core.Good ∧ x'.fx.dispatched = x.fx.dispatched := by
  unfold revokeDescendants at h
  simp only [bind_ok, Core.guardDescendants_ok hg.graph] at h
  obtain ⟨-, hguard, h⟩ := h
  obtain ⟨hsweep, hgood, hfx, -⟩ := fold_sweep (fun d x x' => revokeOne_local) (fun _ _ hf => hf) hg hguard h
  exact ⟨hsweep, hgood, hfx⟩

end Exec

/-! ## Handlers -/

namespace Core

variable {c : Core} {x x₁ x₂ : Exec} {task : String} {t : TaskEntry} {generation now : UInt64} {enabled : Bool}
variable {cfg : ProvisionalConfig}

/-- A handler took the net of `c` through the actions `acts` and dispatched nothing. -/
structure Handled (enabled : Bool) (c : Core) (x : Exec) (acts : List Net.Act) : Prop where
  good : x.core.Good
  steps : Net.Steps enabled c.net acts x.core.net
  dispatched : x.fx.dispatched = []

theorem handled_put {t' : TaskEntry} {pool : PermitPool} {a : Net.Act} (hg : (c.put task t' pool).Good)
    (hstep : Net.Step enabled c.net a (c.net.set task t'.status)) :
    Handled enabled c { core := c.put task t' pool } [a] :=
  ⟨hg, .single (by simpa using hstep), rfl⟩

theorem handled_same {t' : TaskEntry} {pool : PermitPool} (hg : (c.put task t' pool).Good)
    (ht : c.tasks[task]? = some t) (hs : t'.status = t.status) : Handled enabled c { core := c.put task t' pool } [] := by
  refine ⟨hg, ?_, rfl⟩
  show Net.Steps enabled c.net [] (c.put task t' pool).net
  rw [net_put_same ht hs]
  exact .refl

theorem onRegisterTask_spec {resources : ResourceRequest} {producers : List String} (hg : c.Good)
    (h : c.onRegisterTask cfg now task resources producers = .ok x) :
    Handled enabled c x [.register task] := by
  unfold onRegisterTask at h
  simp only [bind_ok, mapError_ok, guard_ok, pure_ok] at h
  obtain ⟨-, -, -, g1, hnode, g2, hedges, rfl⟩ := h
  obtain ⟨hnew, hwf1, hcont1, hedge1⟩ := DependencyGraph.addNode_spec hg.graph hnode
  obtain ⟨hwf2, hcont2, hedge2, hprod⟩ := DependencyGraph.addEdges_spec hwf1 hedges
  have hnone : c.tasks[task]? = none := by
    cases ht : c.tasks[task]? with
    | none => rfl
    | some t => simp [(hg.nodes task).2 ⟨t, ht⟩] at hnew
  -- the new entry goes into a core that has the new graph
  set c1 : Core := { c with graph := g2 } with hc1
  have hcore : ({ c with graph := g2, tasks := c.tasks.insert task (TaskEntry.new resources now) } : Core) =
      c1.put task (TaskEntry.new resources now) c.pool := rfl
  rw [hcore]
  refine ⟨⟨hwf2, fun k => ?_, hg.nodup, fun k hk => ?_, fun k tk htk hqk => ?_⟩, .single ?_, rfl⟩
  · rw [put_graph, hc1, hcont2, hcont1, hg.nodes, put_tasks]
    by_cases he : task = k
    · subst he
      simp
    · simp [he, Ne.symm he]
  · obtain ⟨tk, htk, hqk⟩ := hg.member k hk
    have hne : task ≠ k := fun he => by rw [← he, hnone] at htk; simp at htk
    exact ⟨tk, by rw [put_tasks, if_neg hne]; exact htk, hqk⟩
  · rw [put_tasks] at htk
    by_cases he : task = k
    · simp only [he, if_true, Option.some.injEq] at htk
      subst htk
      simp [TaskEntry.new] at hqk
    · simp only [he, if_false] at htk
      exact hg.queued k tk htk hqk
  · rw [net_put]
    refine Net.Step.register (n := c.net) (E := g2.Edge) (by simp [net, hnone]) rfl rfl rfl rfl (fun p u hpu => ?_)
      (fun p u hpu => ?_) hwf2.acyclic
    · rcases (hedge2 p u).1 hpu with hold | ⟨hp, rfl⟩
      · exact Or.inl ((hedge1 p u).1 hold)
      · -- a producer is another task: the edge check refuses a task that depends on itself
        have hpk := (hcont1 p).1 (hprod p hp)
        rcases hpk with rfl | hpk
        · exact absurd (Relation.TransGen.single hpu) (hwf2.acyclic p)
        · obtain ⟨pt, hpt⟩ := (hg.nodes p).1 hpk
          exact Or.inr ⟨rfl, pt.status, net_status_of hpt⟩
    · exact (hedge2 p u).2 (Or.inl ((hedge1 p u).2 hpu))

theorem onAddDependency_spec {producer consumer : String} (hg : c.Good)
    (h : c.onAddDependency producer consumer = .ok x) : Handled enabled c x [.depend producer consumer] := by
  unfold onAddDependency at h
  simp only [bind_ok, mapError_ok, pure_ok, requireState_ok, decide_eq_true_eq] at h
  obtain ⟨-, -, -, ⟨t, ht, hs⟩, g, hedge, rfl⟩ := h
  obtain ⟨hwf, hcont, hedges, hp⟩ := DependencyGraph.addEdge_spec hg.graph hedge
  have hgood : Core.Good { c with graph := g } :=
    ⟨hwf, fun k => by rw [← hg.nodes k]; exact iff_of_eq (by rw [hcont]), hg.nodup, hg.member, hg.queued⟩
  refine ⟨hgood.dequeue, .single ?_, rfl⟩
  obtain ⟨pt, hpt⟩ := (hg.nodes producer).1 hp
  rw [net_dequeue]
  exact Net.Step.depend (n := c.net) (E := g.Edge) (net_status_of ht) hs ⟨pt.status, net_status_of hpt⟩ hedges
    hwf.acyclic

theorem status_setSlot {level : BindingLevel} {claim : ProofClaim} :
    (setSlot level claim t).status = t.status.setSlot level claim := by
  cases level with
  | interface => rfl
  | final => rfl

theorem setSlot_queued {level : BindingLevel} {claim : ProofClaim} :
    (setSlot level claim t).queued = t.queued ∧ (setSlot level claim t).state = t.state := by
  cases level with
  | interface => exact ⟨rfl, rfl⟩
  | final => exact ⟨rfl, rfl⟩

/-- Whether the claim would replace another one the task already has. -/
def replaces (c : Core) (level : BindingLevel) (task : String) (claim : ProofClaim) : Bool :=
  c.tasks[task]?.any fun t => (slot level t).isSome && slot level t ≠ some claim

theorem onProof_spec {level : BindingLevel} {claim : ProofClaim} (hg : c.Good)
    (h : c.onProof now level task generation claim = .ok x) :
    Handled enabled c x [if c.replaces level task claim then .republish task else .publish task] := by
  unfold onProof at h
  simp only [bind_ok, requireGeneration_ok, requireState_ok, task_ok, taskMut_ok] at h
  obtain ⟨-, -, -, ⟨t0, ht0, ha⟩, t, ht, _, ⟨t1, ht1, rfl⟩, h⟩ := h
  rw [ht] at ht0 ht1
  obtain rfl := Option.some.inj ht0
  obtain rfl := Option.some.inj ht1
  have hb : t.state ≠ .blocked := fun hb => by simp [hb, TaskState.isActive] at ha
  have hgood : (c.put task (setSlot level claim t) c.pool).Good := hg.put_idle ht hb setSlot_queued.1
  by_cases hch : (slot level t).isSome = true ∧ slot level t ≠ some claim
  · rw [if_pos (by simpa using hch)] at h
    rw [if_pos (by simpa [replaces, ht] using hch)]
    obtain ⟨hsweep, hgood', hfx⟩ := Exec.revokeDescendants_spec hgood h
    refine ⟨hgood', .single ?_, hfx⟩
    simp only [net_put, status_setSlot] at hsweep
    exact Net.Step.reclaim (net_status_of ht) ha hsweep
  · rw [if_neg (by simpa using hch), pure_ok] at h
    rw [if_neg (by simpa [replaces, ht] using hch)]
    subst h
    refine handled_put hgood ?_
    rw [status_setSlot]
    refine Net.Step.claim (net_status_of ht) ha ?_
    have hslot : t.status.slot level = slot level t := by cases level <;> rfl
    rw [hslot]
    cases hc : slot level t with
    | none => exact Or.inl rfl
    | some cl =>
      rw [hc] at hch
      simp only [Option.isSome_some, true_and, ne_eq, not_not] at hch
      exact Or.inr hch

/-- A task is returned to `blocked` and everything below it is swept. -/
theorem renew_sweep {g : UInt64} {r1 r2 : String} (hg : x.core.Good)
    (h1 : x.resetToBlocked task g now r1 = .ok x₁) (h2 : x₁.revokeDescendants task now r2 = .ok x₂) :
    x₂.core.Good ∧ x₂.fx.dispatched = x.fx.dispatched ∧
      ∃ t, x.core.tasks[task]? = some t ∧ Net.Sweep (x.core.net.set task (t.status.reset g)) task x₂.core.net ∧
        (t.state = .blocked ∨ t.state.isActive = true ∨ t.state = .aborted) := by
  rw [Exec.resetToBlocked_ok] at h1
  obtain ⟨t, ht, hs, rfl⟩ := h1
  have hgood : (x.core.put task (Exec.resetEntry t g now r1) (x.core.poolAfter t .blocked)).Good := by
    refine hg.put ht ?_ fun _ => ?_
    · by_cases hb : t.state = .blocked
      · simp [Exec.resetEntry, hb, clearWork]
      · simp [Exec.resetEntry, hb, clearWork, moved]
    · have hst : (Exec.resetEntry t g now r1).status = t.status.reset g := status_resetEntry
      exact congrArg Status.state hst
  obtain ⟨hsweep, hgood', hfx⟩ := Exec.revokeDescendants_spec hgood h2
  refine ⟨hgood', hfx, t, ht, ?_, hs⟩
  simpa only [net_put, status_resetEntry] using hsweep

theorem abort_sweep {r1 r2 : String} (hg : x.core.Good) (h1 : x.abort task now r1 = .ok x₁)
    (h2 : x₁.revokeDescendants task now r2 = .ok x₂) :
    x₂.core.Good ∧ x₂.fx.dispatched = x.fx.dispatched ∧
      ∃ t, x.core.tasks[task]? = some t ∧ Net.Sweep (x.core.net.set task t.status.abort) task x₂.core.net := by
  rw [Exec.abort_ok] at h1
  obtain ⟨t, ht, -, -, rfl⟩ := h1
  have ht' : (x.core.dequeue task).tasks[task]? = some { t with queued := false } := by
    rw [dequeue_tasks, ht]
    simp
  have hgood : ((x.core.dequeue task).put task (Exec.abortEntry t now r1) (x.core.poolAfter t .aborted)).Good :=
    hg.dequeue.put ht' rfl fun hq => by simp [Exec.abortEntry, clearWork, moved] at hq
  obtain ⟨hsweep, hgood', hfx⟩ := Exec.revokeDescendants_spec hgood h2
  refine ⟨hgood', hfx, t, ht, ?_⟩
  simpa only [net_put, net_dequeue, status_abortEntry] using hsweep

theorem onNewGeneration_spec (hg : c.Good) (h : c.onNewGeneration now task generation = .ok x) :
    Handled enabled c x [.renew task] := by
  unfold onNewGeneration at h
  simp only [bind_ok, task_ok, guard_ok, requireState_ok, decide_eq_true_eq] at h
  obtain ⟨t, ht, hgen, -, ⟨t0, ht0, hna⟩, -, -, x1, h1, h2⟩ := h
  rw [ht] at ht0
  obtain rfl := Option.some.inj ht0
  obtain ⟨hgood, hfx, t', ht', hsweep, hs⟩ := renew_sweep (x := { core := c }) hg h1 h2
  rw [show ({ core := c } : Exec).core = c from rfl, ht] at ht'
  obtain rfl := Option.some.inj ht'
  refine ⟨hgood, .single ?_, hfx⟩
  refine Net.Step.renew (net_status_of ht) ?_ (UInt64.not_le.1 hgen) hsweep
  rcases hs with hs | hs | hs
  · exact Or.inr hs
  · exact Or.inl hs
  · exact absurd hs hna

theorem guarded_states (hg : c.Good) (ht : c.tasks[task]? = some t) (hna : t.state ≠ .aborted)
    (hguard : c.guardCommit task = .ok ()) (hne : t.state.isCommitTerminal = false) :
    t.state.isActive = true ∨ t.state = .blocked := by
  obtain ⟨⟨t', ht', hnc⟩, -⟩ := (guardCommit_ok hg.graph).1 hguard
  rw [ht] at ht'
  obtain rfl := Option.some.inj ht'
  cases hs : t.state <;> simp [hs, TaskState.isCommitTerminal, TaskState.isActive] at hna hnc hne ⊢

theorem onProducerFailed_spec {reason : String} (hg : c.Good)
    (h : c.onProducerFailed now task generation reason = .ok x) : Handled enabled c x [.abort task] := by
  unfold onProducerFailed at h
  simp only [bind_ok, requireGeneration_ok, requireState_ok, decide_eq_true_eq] at h
  obtain ⟨-, -, -, ⟨t0, ht0, hna⟩, u, hguard, x1, h1, h2⟩ := h
  obtain ⟨hgood, hfx, t, ht, hsweep⟩ := abort_sweep (x := { core := c }) hg h1 h2
  obtain ⟨t1, ht1, -, hne, -⟩ := Exec.abort_ok.1 h1
  have e0 : t0 = t := Option.some.inj (ht0.symm.trans ht)
  have e1 : t1 = t := Option.some.inj (ht1.symm.trans ht)
  subst e0 e1
  exact ⟨hgood, .single (Net.Step.abort (net_status_of ht) (guarded_states hg ht hna hguard hne) hsweep), hfx⟩

theorem onWorkDone_spec {resultDigest : String} (hg : c.Good)
    (h : c.onWorkDone now task generation resultDigest = .ok x) : Handled enabled c x [.work task] := by
  unfold onWorkDone at h
  simp only [bind_ok, requireGeneration_ok, requireState_ok, task_ok, guard_ok, setState_ok, taskMut_ok, pure_ok,
    decide_eq_true_eq] at h
  obtain ⟨-, -, -, ⟨t, ht, hs⟩, -, -, -, -, _, ⟨t1, ht1, -, rfl⟩, _, ⟨t2, ht2, rfl⟩, rfl⟩ := h
  rw [ht] at ht1
  obtain rfl := Option.some.inj ht1
  have e2 : t2 = moved t .awaitingFinalProof now := by simpa using ht2.symm
  subst e2
  rw [put_put]
  exact handled_put (hg.put_idle ht (by simp [hs]) rfl) (Net.Step.work (net_status_of ht) hs)

theorem onFinalize_spec (hg : c.Good) (h : c.onFinalize now task generation = .ok x) :
    Handled enabled c x [.finalize task] := by
  unfold onFinalize at h
  simp only [bind_ok, requireGeneration_ok, requireState_ok, setState_ok, taskMut_ok, pure_ok,
    decide_eq_true_eq] at h
  obtain ⟨-, -, -, ⟨t, ht, hs⟩, u, hall, _, ⟨t1, ht1, -, rfl⟩, _, ⟨t2, ht2, rfl⟩, rfl⟩ := h
  rw [ht] at ht1
  obtain rfl := Option.some.inj ht1
  have e2 : t2 = moved t .committable now := by simpa using ht2.symm
  subst e2
  rw [put_put]
  refine handled_put (hg.put_idle ht (by simp [hs]) rfl) (Net.Step.finalize (net_status_of ht) hs fun p hp => ?_)
  have hcheck := forM_ok.1 hall p ((hg.graph.mirror p task).2 hp)
  unfold checkProducerFinal at hcheck
  simp only [bind_ok, task_ok, guard_ok] at hcheck
  obtain ⟨pt, hpt, t', -, hok, -⟩ := hcheck
  refine ⟨pt.status, net_status_of hpt, ?_⟩
  rw [status_finalReady]
  by_contra hf
  exact hok (Or.inr (by simpa using hf))

theorem onHeartbeat_spec {beat : UInt64} (hg : c.Good) (h : c.onHeartbeat cfg now task generation beat = .ok x) :
    Handled enabled c x [] := by
  unfold onHeartbeat at h
  simp only [bind_ok, requireGeneration_ok, requireState_ok, task_ok, guard_ok, taskMut_ok, pure_ok,
    decide_eq_true_eq] at h
  obtain ⟨-, -, -, ⟨t, ht, hs⟩, -, -, -, -, _, ⟨t1, ht1, rfl⟩, rfl⟩ := h
  rw [ht] at ht1
  obtain rfl := Option.some.inj ht1
  exact handled_same (hg.put_idle ht (by simp [hs]) rfl) ht rfl

theorem onCancel_spec (hg : c.Good) (h : c.onCancel now task generation = .ok x) :
    Handled enabled c x [.cancel task] := by
  unfold onCancel at h
  simp only [bind_ok, requireGeneration_ok, requireState_ok, decide_eq_true_eq] at h
  obtain ⟨-, -, -, ⟨t0, ht0, hna⟩, u, hguard, x1, h1, h2⟩ := h
  obtain ⟨t, ht, -, hne, rfl⟩ := Exec.abort_ok.1 h1
  have e0 : t0 = t := Option.some.inj (ht0.symm.trans ht)
  subst e0
  have ht' : (c.dequeue task).tasks[task]? = some { t0 with queued := false } := by
    rw [dequeue_tasks, ht0]
    simp
  have hgood : ((c.dequeue task).put task (Exec.abortEntry t0 now "cancelled") (c.poolAfter t0 .aborted)).Good :=
    hg.dequeue.put ht' rfl fun hq => by simp [Exec.abortEntry, clearWork, moved] at hq
  have hnet : ((c.dequeue task).put task (Exec.abortEntry t0 now "cancelled") (c.poolAfter t0 .aborted)).net =
      c.net.set task t0.status.abort := by simp only [net_put, net_dequeue, status_abortEntry]
  -- the guard passed before the abort, and the abort takes no commit into reach
  have hguard' : ∀ d, (c.net.set task t0.status.abort).Committing d → ¬ (c.net.set task t0.status.abort).Below task d := by
    rintro d ⟨s, hs, hc⟩ hb
    have hdt : d ≠ task := by
      rintro rfl
      simp only [Net.set_status, if_true, Option.some.injEq] at hs
      subst hs
      simp [Status.abort] at hc
    refine ((guardCommit_ok hg.graph).1 hguard).2 d ⟨s, by simpa [hdt] using hs, hc⟩ ?_
    refine hb.mono (fun _ _ h => h) fun v hv => ?_
    refine Net.ended_set (net_status_of ht0) (fun he => ?_) hv
    rw [show t0.status.state = t0.state from rfl, hne] at he
    simp at he
  obtain ⟨hsweep, hgood', hfx, hgiven⟩ := Exec.fold_sweep (fun d x x' => Exec.cancelOne_local) (fun _ _ hf => hf.1)
    hgood (by rw [hnet]; exact hguard') h2
  rw [hnet] at hsweep hgiven
  refine ⟨hgood', .single (Net.Step.cancel (net_status_of ht0) (guarded_states hg ht0 hna hguard hne) hsweep ?_), hfx⟩
  intro u su su' hu hu'
  have hself : ¬ (c.net.set task t0.status.abort).Below task task :=
    Net.not_below_self (n := c.net.set task t0.status.abort) hg.graph.acyclic
  by_cases hut : u = task
  · subst hut
    rw [hsweep.same u hself, Net.set_status, if_pos rfl] at hu'
    rw [net_status_of ht0] at hu
    obtain rfl := Option.some.inj hu
    obtain rfl := Option.some.inj hu'
    exact ⟨rfl, fun hb => by simp [Status.abort] at hb⟩
  · by_cases hb : (c.net.set task t0.status.abort).Below task u
    · obtain ⟨s, s', hs, hs', -, hrest⟩ := hgiven u hb
      rw [Net.set_status, if_neg hut, hu] at hs
      rw [hu'] at hs'
      obtain rfl := Option.some.inj hs
      obtain rfl := Option.some.inj hs'
      exact hrest
    · rw [hsweep.same u hb, Net.set_status, if_neg hut, hu] at hu'
      obtain rfl := Option.some.inj hu'
      exact ⟨rfl, fun hb => hb⟩

theorem onRetry_spec (hg : c.Good) (h : c.onRetry now task generation = .ok x) :
    Handled enabled c x [.retry task] := by
  unfold onRetry at h
  simp only [bind_ok, requireGeneration_ok, requireState_ok, setState_ok, taskMut_ok, pure_ok,
    decide_eq_true_eq] at h
  obtain ⟨-, -, -, ⟨t, ht, hs⟩, _, ⟨t1, ht1, -, rfl⟩, _, ⟨t2, ht2, rfl⟩, rfl⟩ := h
  rw [ht] at ht1
  obtain rfl := Option.some.inj ht1
  have e2 : t2 = moved t .blocked now := by simpa using ht2.symm
  subst e2
  rw [put_put]
  exact handled_put (hg.put_idle ht (by simp [hs]) rfl) (Net.Step.retry (net_status_of ht) hs)

theorem revokeTask_spec (enabled : Bool) {reason : String} (hg : x.core.Good) (ht : x.core.tasks[task]? = some t)
    (ha : t.state.isActive = true) (h : revokeTask now x task t.generation reason = .ok x₂) :
    x₂.core.Good ∧ x₂.fx.dispatched = x.fx.dispatched ∧
      Net.Step enabled x.core.net (.revoke task) x₂.core.net := by
  unfold revokeTask at h
  rw [bind_ok] at h
  obtain ⟨x1, h1, h2⟩ := h
  obtain ⟨hgood, hfx, t', ht', hsweep, -⟩ := renew_sweep hg h1 h2
  rw [ht] at ht'
  obtain rfl := Option.some.inj ht'
  exact ⟨hgood, hfx, Net.Step.revoke (net_status_of ht) ha hsweep⟩

theorem onRevoke_spec {reason : String} (hg : c.Good) (h : c.onRevoke now task generation reason = .ok x) :
    Handled enabled c x [.revoke task] := by
  unfold onRevoke at h
  simp only [bind_ok, requireGeneration_ok, requireState_ok, task_ok] at h
  obtain ⟨-, -, -, ⟨t0, ht0, ha⟩, t, ht, h⟩ := h
  rw [ht] at ht0
  obtain rfl := Option.some.inj ht0
  obtain ⟨hgood, hfx, hstep⟩ := revokeTask_spec (x := { core := c }) enabled hg ht ha h
  exact ⟨hgood, .single hstep, hfx⟩

theorem fold_handled {α : Type} {step : Exec → α → Except SchedError Exec} {l : List α} {ok : Net.Act → Prop}
    (hstep : ∀ a ∈ l, ∀ x x', x.core.Good → step x a = .ok x' →
      x'.core.Good ∧ x'.fx.dispatched = x.fx.dispatched ∧
        ∃ acts, Net.Steps enabled x.core.net acts x'.core.net ∧ ∀ b ∈ acts, ok b)
    (hg : c.Good) (h : l.foldlM step { core := c } = .ok x) :
    ∃ acts, Handled enabled c x acts ∧ ∀ b ∈ acts, ok b := by
  have hinv := foldlM_inv (P := fun y : Exec => ∃ acts, Handled enabled c y acts ∧ ∀ b ∈ acts, ok b)
    (fun a ha y y' hy hstep' => ?_) ⟨[], ⟨hg, .refl, rfl⟩, by simp⟩ h
  · exact hinv
  · obtain ⟨acts, hh, hok⟩ := hy
    obtain ⟨hgood, hfx, acts', hs, hok'⟩ := hstep a ha y y' hh.good hstep'
    refine ⟨acts ++ acts', ⟨hgood, hh.steps.trans hs, hfx.trans hh.dispatched⟩, fun b hb => ?_⟩
    rcases List.mem_append.1 hb with hb | hb
    · exact hok b hb
    · exact hok' b hb

theorem onAuditRevoke_spec (enabled : Bool) {revocations : List Revocation} (hg : c.Good)
    (h : c.onAuditRevoke now revocations = .ok x) :
    ∃ acts, Handled enabled c x acts ∧ ∀ a ∈ acts, ∃ r ∈ revocations, a = .revoke r.task := by
  unfold onAuditRevoke at h
  cases revocations with
  | nil => simp at h
  | cons first rest =>
    simp only [bind_ok] at h
    obtain ⟨-, -, h⟩ := h
    refine fold_handled (fun r hr y y' hy hstep => ?_) hg h
    unfold auditOne at hstep
    simp only [bind_ok, task_ok] at hstep
    obtain ⟨t, ht, hstep⟩ := hstep
    by_cases ha : t.state.isActive = true
    · rw [if_pos ha] at hstep
      obtain ⟨hgood, hfx, hs⟩ := revokeTask_spec enabled hy ht ha hstep
      exact ⟨hgood, hfx, _, .single hs, fun a ha => ⟨r, hr, by simpa using ha⟩⟩
    · rw [if_neg ha, pure_ok] at hstep
      subst hstep
      exact ⟨hy, rfl, [], .refl, by simp⟩

theorem onTick_spec (enabled : Bool) (hg : c.Good) (h : c.onTick now = .ok x) :
    ∃ acts, Handled enabled c x acts ∧ ∀ a ∈ acts, ∃ id ∈ c.expired now, a = .abort id := by
  unfold onTick at h
  refine fold_handled (fun id hid y y' hy hstep => ?_) hg h
  unfold expireOne at hstep
  simp only [bind_ok, task_ok] at hstep
  obtain ⟨t, ht, hstep⟩ := hstep
  by_cases hs : t.state = .provisional
  · rw [if_pos hs, bind_ok] at hstep
    obtain ⟨x1, h1, h2⟩ := hstep
    obtain ⟨hgood, hfx, t', ht', hsweep⟩ := abort_sweep hy h1 h2
    rw [ht] at ht'
    obtain rfl := Option.some.inj ht'
    have ha : t.state.isActive = true := by simp [hs, TaskState.isActive]
    exact ⟨hgood, hfx, _, .single (Net.Step.abort (net_status_of ht) (Or.inl ha) hsweep),
      fun a ha => ⟨id, hid, by simpa using ha⟩⟩
  · rw [if_neg hs, pure_ok] at hstep
    subst hstep
    exact ⟨hy, rfl, [], .refl, by simp⟩

theorem onBeginCommit_ok {completion : ProofClaim} {producers : ExtTreeMap String ProofClaim}
    (h : c.onBeginCommit now task generation completion producers = .ok x) :
    ∃ t, c.tasks[task]? = some t ∧ t.generation = generation ∧ t.state = .committable ∧
      c.commitInChain task = none ∧ t.completion = some completion ∧
      (c.graph.producersOf task).length = producers.size ∧
      (∀ p ∈ c.graph.producersOf task, p ∈ producers) ∧
      (∀ e ∈ producers.toList, c.checkFrozen e = .ok ()) ∧
      x = { core := c.put task { moved t .committing now with
        commit := some { completion, producers, beganAt := now } } (c.poolAfter t .committing) } := by
  unfold onBeginCommit at h
  simp only [bind_ok, requireGeneration_ok, requireState_ok, decide_eq_true_eq] at h
  obtain ⟨-, ⟨t, ht, hgen⟩, -, ⟨t0, ht0, hs⟩, h⟩ := h
  rw [ht] at ht0
  obtain rfl := Option.some.inj ht0
  cases hchain : c.commitInChain task with
  | some d => rw [hchain] at h; simp at h
  | none =>
    rw [hchain] at h
    simp only [bind_ok, task_ok, guard_ok, setState_ok, taskMut_ok, pure_ok] at h
    obtain ⟨t1, ht1, hc, hp, u, hall, _, ⟨t2, ht2, -, rfl⟩, _, ⟨t3, ht3, rfl⟩, rfl⟩ := h
    rw [ht] at ht1 ht2
    obtain rfl := Option.some.inj ht1
    obtain rfl := Option.some.inj ht2
    have e3 : t3 = moved t .committing now := by simpa using ht3.symm
    subst e3
    simp only [not_or, ne_eq, not_not, List.any_eq_true, not_exists, not_and, Bool.not_eq_true',
      Bool.not_eq_false] at hp hc
    refine ⟨t, ht, hgen, hs, rfl, hc, hp.1, fun p hm => ?_, forM_ok.1 hall, by simp⟩
    exact ExtTreeMap.mem_iff_contains.2 (hp.2 p hm)

theorem onBeginCommit_spec (enabled : Bool) {completion : ProofClaim} {producers : ExtTreeMap String ProofClaim} (hg : c.Good)
    (h : c.onBeginCommit now task generation completion producers = .ok x) :
    Handled enabled c x [.beginCommit task] := by
  obtain ⟨t, ht, -, hs, hchain, -, -, -, -, rfl⟩ := onBeginCommit_ok h
  obtain ⟨hbelow, habove⟩ := (commitInChain_none hg.graph).1 hchain
  refine handled_put (hg.put_idle ht (by simp [hs]) rfl)
    (Net.Step.beginCommit (net_status_of ht) hs hbelow fun u hu => habove u ?_ hu)
  rintro rfl
  obtain ⟨t', ht', hc⟩ := committing_iff.1 hu
  rw [ht] at ht'
  obtain rfl := Option.some.inj ht'
  simp [hs] at hc

def succeeded : CommitResult → Bool
  | .committed _ => true
  | .failed _ | .uncertain _ => false

theorem onCommitOutcome_spec {outcome : CommitResult} (hg : c.Good)
    (h : c.onCommitOutcome now task generation outcome = .ok x) :
    Handled enabled c x [.endCommit task (succeeded outcome)] := by
  unfold onCommitOutcome at h
  simp only [bind_ok, requireGeneration_ok, requireState_ok, decide_eq_true_eq] at h
  obtain ⟨-, -, -, ⟨t, ht, hs⟩, h⟩ := h
  cases outcome with
  | committed detail =>
    simp only [bind_ok, setState_ok, taskMut_ok, pure_ok] at h
    obtain ⟨_, ⟨t1, ht1, -, rfl⟩, _, ⟨t2, ht2, rfl⟩, rfl⟩ := h
    rw [ht] at ht1
    obtain rfl := Option.some.inj ht1
    have e2 : t2 = moved t .committed now := by simpa using ht2.symm
    subst e2
    rw [put_put]
    exact handled_put (hg.put_idle ht (by simp [hs]) rfl) (Net.Step.committed (net_status_of ht) hs)
  | failed reason =>
    simp only [bind_ok] at h
    obtain ⟨x1, h1, h2⟩ := h
    obtain ⟨hgood, hfx, t', ht', hsweep⟩ := abort_sweep (x := { core := c }) hg h1 h2
    have e : t' = t := Option.some.inj (ht'.symm.trans ht)
    subst e
    exact ⟨hgood, .single (Net.Step.failed (net_status_of ht) hs hsweep), hfx⟩
  | uncertain reason =>
    simp only [bind_ok, setState_ok, taskMut_ok, pure_ok] at h
    obtain ⟨x1, h1, _, ⟨t1, ht1, -, rfl⟩, _, ⟨t2, ht2, rfl⟩, rfl⟩ := h
    obtain ⟨hsweep, hgood, hfx⟩ := Exec.revokeDescendants_spec (x := { core := c }) hg h1
    -- the sweep below the task leaves the task itself alone
    have hsame : x1.core.net.status task = c.net.status task :=
      hsweep.same task (Net.not_below_self hg.graph.acyclic)
    have hst1 : t1.status = t.status := by
      rw [net_status_of ht1, net_status_of ht] at hsame
      exact Option.some.inj hsame
    have hs1 : t1.state = .committing := (congrArg Status.state hst1).trans hs
    have e2 : t2 = moved t1 .commitUncertain now := by simpa using ht2.symm
    subst e2
    rw [put_put]
    refine ⟨hgood.put_idle ht1 (by simp [hs1]) rfl, .single ?_, hfx⟩
    have : Net.Step enabled _ _ _ := .uncertain (net_status_of ht) hs hsweep
    rw [net_put]
    rw [← hst1] at this
    exact this

theorem onBindApproval_spec {key : String} (hg : c.Good) (h : c.onBindApproval key task generation = .ok x) :
    Handled enabled c x [] := by
  unfold onBindApproval at h
  simp only [bind_ok, guard_ok, requireGeneration_ok, requireState_ok, pure_ok] at h
  obtain ⟨-, -, -, -, -, -, rfl⟩ := h
  exact ⟨hg.congr rfl rfl rfl, .refl, rfl⟩

end Core

end SovereignCore.Harness
