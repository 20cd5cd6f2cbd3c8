import SovereignCore.Harness.Core
import SovereignCore.Harness.Net
import SovereignCore.Lib.Result

/-!
# What the calls of the scheduler core do

One lemma for each call of `Core`, telling when it accepts and what the state is then. Callers cite these and never
unfold the call.

* `setState_ok`, `resetToBlocked_ok`, `abort_ok`, `dispatch_ok` : the entry a call writes;
* `mem_affected` : the walk computes reachability over tasks whose commit has not ended;
* `guardCommit_ok`, `commitInChain_none` : what a passed guard says.
-/

namespace SovereignCore.Harness

open Std Result

variable {c c' : Core} {x x' : Exec} {id : String} {t : TaskEntry} {now : UInt64}

/-! ## Entries -/

namespace Core

theorem task_ok : c.task id = .ok t ↔ c.tasks[id]? = some t := by
  unfold task
  cases c.tasks[id]? with
  | none => simp
  | some t' => simp

/-- `c` with the entry of `id` replaced and the permits at `pool`. -/
def put (c : Core) (id : String) (t : TaskEntry) (pool : PermitPool) : Core :=
  { c with tasks := c.tasks.insert id t, pool }

variable {pool pool' : PermitPool}

@[simp] theorem put_tasks {id' : String} :
    (c.put id t pool).tasks[id']? = if id = id' then some t else c.tasks[id']? :=
  Table.get_insert

@[simp] theorem put_graph : (c.put id t pool).graph = c.graph := rfl

@[simp] theorem put_queue : (c.put id t pool).queue = c.queue := rfl

@[simp] theorem put_pool : (c.put id t pool).pool = pool := rfl

@[simp] theorem put_put {t' : TaskEntry} : (c.put id t pool).put id t' pool' = c.put id t' pool' := by
  have : (c.tasks.insert id t).insert id t' = c.tasks.insert id t' := by
    refine ExtTreeMap.ext_getElem? fun k => ?_
    rw [Table.get_insert, Table.get_insert, Table.get_insert]
    by_cases h : id = k
    · simp [h]
    · simp [h]
  simp only [put, this]

theorem taskMut_ok {f : TaskEntry → TaskEntry} :
    c.taskMut id f = .ok c' ↔ ∃ t, c.tasks[id]? = some t ∧ c' = c.put id (f t) c.pool := by
  unfold taskMut
  simp only [bind_ok, pure_ok, task_ok]
  exact exists_congr fun t => and_congr_right fun _ => eq_comm

theorem requireGeneration_ok {g : UInt64} {u : Unit} :
    c.requireGeneration id g = .ok u ↔ ∃ t, c.tasks[id]? = some t ∧ t.generation = g := by
  unfold requireGeneration
  simp only [bind_ok, task_ok, guard_ok]
  refine exists_congr fun t => and_congr_right fun _ => ?_
  constructor
  · rintro ⟨h1, h2, -⟩
    exact UInt64.le_antisymm (UInt64.not_lt.1 h1) (UInt64.not_lt.1 h2)
  · rintro rfl
    exact ⟨UInt64.lt_irrefl _, UInt64.lt_irrefl _, trivial⟩

theorem requireState_ok {ok : TaskState → Bool} {action : String} {u : Unit} :
    c.requireState id ok action = .ok u ↔ ∃ t, c.tasks[id]? = some t ∧ ok t.state = true := by
  unfold requireState
  simp only [bind_ok, task_ok, allow_ok, and_true]

/-- The permits after a task at `t` moved to `target`. -/
def poolAfter (c : Core) (t : TaskEntry) (target : TaskState) : PermitPool :=
  if t.state.holdsPermits && !target.holdsPermits then c.pool.release t.resources else c.pool

theorem setState_ok {target : TaskState} :
    c.setState id target now = .ok c' ↔ ∃ t, c.tasks[id]? = some t ∧ checkTransition t.state target = .ok () ∧
      c' = c.put id (moved t target now) (c.poolAfter t target) := by
  unfold setState
  simp only [bind_ok, task_ok]
  refine exists_congr fun t => and_congr_right fun _ => ?_
  cases checkTransition t.state target with
  | error e => simp
  | ok u =>
    simp only [pure_ok, true_and]
    exact eq_comm

theorem dequeue_tasks {id' : String} :
    (c.dequeue id).tasks[id']? =
      c.tasks[id']?.map fun t => if id = id' then { t with queued := false } else t := by
  unfold dequeue
  cases h : c.tasks[id]? with
  | none =>
    by_cases he : id = id'
    · subst he
      simp [h]
    · simp [he]
  | some t =>
    by_cases hq : t.queued = true
    · simp only [hq, if_true, Table.get_insert]
      by_cases he : id = id'
      · subst he
        simp [h]
      · simp [he]
    · simp only [hq]
      by_cases he : id = id'
      · subst he
        have : { t with queued := false } = t := by
          have hf : t.queued = false := by simpa using hq
          rw [← hf]
        simp [h, this]
      · simp [he]

theorem dequeue_graph : (c.dequeue id).graph = c.graph := by
  unfold dequeue
  split
  · split <;> rfl
  · rfl

theorem dequeue_pool : (c.dequeue id).pool = c.pool := by
  unfold dequeue
  split
  · split <;> rfl
  · rfl

end Core

/-! ## Transitions -/

theorem checkTransition_blocked {s : TaskState} :
    checkTransition s .blocked = .ok () ↔ s.isActive = true ∨ s = .aborted := by
  cases s <;> simp [checkTransition, TaskState.isActive]

theorem checkTransition_provisional {s : TaskState} : checkTransition s .provisional = .ok () ↔ s = .blocked := by
  cases s <;> simp [checkTransition]

theorem checkTransition_aborted {s : TaskState} :
    checkTransition s .aborted = .ok () ↔ s ≠ .aborted ∧ s.isCommitTerminal = false := by
  cases s <;> simp [checkTransition, TaskState.isCommitTerminal]

/-! ## Revocation and abort -/

namespace Exec

/-- The entry of a task returned to `blocked` at `generation`. -/
def resetEntry (t : TaskEntry) (generation now : UInt64) (reason : String) : TaskEntry :=
  let t := if t.state ≠ .blocked then Core.moved t .blocked now else t
  Core.clearWork { t with generation, timing := { t.timing with revocations := t.timing.revocations + 1 } } reason

def abortEntry (t : TaskEntry) (now : UInt64) (reason : String) : TaskEntry :=
  Core.clearWork (Core.moved { t with queued := false } .aborted now) reason

theorem resetToBlocked_ok {g : UInt64} {reason : String} :
    x.resetToBlocked id g now reason = .ok x' ↔ ∃ t, x.core.tasks[id]? = some t ∧
      (t.state = .blocked ∨ t.state.isActive = true ∨ t.state = .aborted) ∧
      x' = { core := x.core.put id (resetEntry t g now reason) (x.core.poolAfter t .blocked),
             fx := { x.fx with revoked := x.fx.revoked ++ [id] } } := by
  unfold resetToBlocked
  simp only [bind_ok, Core.task_ok, pure_ok, Core.taskMut_ok]
  refine exists_congr fun t => and_congr_right fun ht => ?_
  by_cases hb : t.state = .blocked
  · have hpool : x.core.poolAfter t .blocked = x.core.pool := by
      simp [Core.poolAfter, hb, TaskState.holdsPermits]
    have hne : ¬ t.state ≠ .blocked := fun h => h hb
    simp only [hpool, resetEntry, if_neg hne, Except.ok.injEq]
    constructor
    · rintro ⟨_, rfl, _, ⟨t', ht', rfl⟩, rfl⟩
      rw [ht] at ht'
      obtain rfl := Option.some.inj ht'
      exact ⟨Or.inl hb, rfl⟩
    · rintro ⟨-, rfl⟩
      exact ⟨x.core, rfl, _, ⟨t, ht, rfl⟩, rfl⟩
  · simp only [hb, resetEntry, ne_eq, not_false_eq_true, if_true, Core.setState_ok, checkTransition_blocked, false_or]
    constructor
    · rintro ⟨_, ⟨t1, ht1, hs, rfl⟩, _, ⟨t', ht', rfl⟩, rfl⟩
      rw [ht] at ht1
      obtain rfl := Option.some.inj ht1
      have : t' = Core.moved t .blocked now := by simpa using ht'.symm
      subst this
      exact ⟨hs, by simp⟩
    · rintro ⟨hs, rfl⟩
      exact ⟨_, ⟨t, ht, hs, rfl⟩, _, ⟨Core.moved t .blocked now, by simp, rfl⟩, by simp⟩

theorem abort_ok {reason : String} :
    x.abort id now reason = .ok x' ↔ ∃ t, x.core.tasks[id]? = some t ∧
      t.state ≠ .aborted ∧ t.state.isCommitTerminal = false ∧
      x' = { core := (x.core.dequeue id).put id (abortEntry t now reason) (x.core.poolAfter t .aborted),
             fx := { x.fx with aborted := x.fx.aborted ++ [id] } } := by
  have hpool : ∀ t : TaskEntry, (x.core.dequeue id).poolAfter { t with queued := false } .aborted =
      x.core.poolAfter t .aborted := fun t => by simp only [Core.poolAfter, Core.dequeue_pool]
  unfold abort
  simp only [bind_ok, pure_ok, Core.taskMut_ok, Core.setState_ok, checkTransition_aborted, Core.dequeue_tasks,
    Option.map_eq_some_iff, if_true, abortEntry]
  constructor
  · rintro ⟨_, ⟨_, ⟨t, ht, rfl⟩, ⟨hs1, hs2⟩, rfl⟩, _, ⟨t', ht', rfl⟩, rfl⟩
    have : t' = Core.moved { t with queued := false } .aborted now := by simpa using ht'.symm
    subst this
    exact ⟨t, ht, hs1, hs2, by simp [hpool]⟩
  · rintro ⟨t, ht, hs1, hs2, rfl⟩
    exact ⟨_, ⟨_, ⟨t, ht, rfl⟩, ⟨hs1, hs2⟩, rfl⟩, _,
      ⟨Core.moved { t with queued := false } .aborted now, by simp, rfl⟩, by simp [hpool]⟩

theorem dispatch_ok {cfg : ProvisionalConfig} :
    dispatch cfg now x id = .ok x' ↔ ∃ t, x.core.tasks[id]? = some t ∧ t.state = .blocked ∧
      x' = { core := x.core.put id (started cfg now (x.core.bindingsFor id) (Core.moved t .provisional now)) x.core.pool,
             fx := { x.fx with dispatched := x.fx.dispatched ++ [id] } } := by
  have hpool : ∀ t : TaskEntry, x.core.poolAfter t .provisional = x.core.pool :=
    fun t => by simp [Core.poolAfter, TaskState.holdsPermits]
  unfold dispatch
  simp only [bind_ok, pure_ok, Core.taskMut_ok, Core.setState_ok, checkTransition_provisional, hpool]
  constructor
  · rintro ⟨_, ⟨t, ht, hs, rfl⟩, _, ⟨t', ht', rfl⟩, rfl⟩
    have : t' = Core.moved t .provisional now := by simpa using ht'.symm
    subst this
    exact ⟨t, ht, hs, by simp⟩
  · rintro ⟨t, ht, hs, rfl⟩
    exact ⟨_, ⟨t, ht, hs, rfl⟩, _, ⟨Core.moved t .provisional now, by simp, rfl⟩, by simp⟩

end Exec

/-! ## The net of a core -/

def TaskEntry.status (t : TaskEntry) : Status where
  state := t.state
  generation := t.generation
  interface := t.interface
  completion := t.completion
  bindings := t.bindings
  commit := t.commit

theorem status_moved {target : TaskState} :
    (Core.moved t target now).status = { t.status with state := target } := rfl

theorem status_resetEntry {g : UInt64} {reason : String} :
    (Exec.resetEntry t g now reason).status = t.status.reset g := by
  unfold Exec.resetEntry
  by_cases h : t.state = .blocked
  · simp [h, TaskEntry.status, Core.clearWork, Status.reset]
  · simp [h, TaskEntry.status, Core.clearWork, Status.reset, Core.moved]

theorem status_abortEntry {reason : String} : (Exec.abortEntry t now reason).status = t.status.abort := rfl

theorem status_started {cfg : ProvisionalConfig} {bindings : ExtTreeMap String Binding} :
    (Exec.started cfg now bindings t).status = { t.status with bindings } := rfl

theorem status_finalReady : t.status.finalReady = t.finalReady := rfl

theorem status_bindingOf : t.status.bindingOf = Core.bindingOf t := rfl

namespace Core

def net (c : Core) : Net where
  Edge := c.graph.Edge
  status id := c.tasks[id]?.map TaskEntry.status

theorem net_status {s : Status} : c.net.status id = some s ↔ ∃ t, c.tasks[id]? = some t ∧ t.status = s :=
  Option.map_eq_some_iff

theorem net_status_of (h : c.tasks[id]? = some t) : c.net.status id = some t.status := net_status.2 ⟨t, h, rfl⟩

@[simp] theorem net_put {pool : PermitPool} : (c.put id t pool).net = c.net.set id t.status := by
  unfold net Net.set
  congr 1
  funext k
  rw [Function.update_apply, put_tasks]
  by_cases h : id = k
  · simp [h]
  · simp [h, Ne.symm h]

/-- A new entry with the same status changes nothing for the protocol. -/
theorem net_put_same {t' : TaskEntry} {pool : PermitPool} (ht : c.tasks[id]? = some t) (hs : t'.status = t.status) :
    (c.put id t' pool).net = c.net := by
  rw [net_put, hs]
  unfold Net.set
  congr 1
  funext k
  rw [Function.update_apply]
  split
  · rename_i hk
    rw [hk]
    exact (net_status_of ht).symm
  · rfl

@[simp] theorem net_dequeue : (c.dequeue id).net = c.net := by
  unfold net
  rw [dequeue_graph]
  congr 1
  funext k
  rw [dequeue_tasks, Option.map_map]
  congr 1
  funext t
  by_cases h : id = k
  · simp [h, TaskEntry.status]
  · simp [h]

theorem commitTerminal_iff : c.commitTerminal id = true ↔ c.net.Ended id := by
  unfold commitTerminal Net.Ended net
  cases h : c.tasks[id]? with
  | none => simp [h]
  | some t => simp [h, TaskEntry.status]

/-! ## What the walk computes -/

theorem mem_affected (hwf : c.graph.WF) {d : String} : d ∈ c.affected id ↔ c.net.Below id d := by
  have hkeys : ∀ x y, y ∈ c.graph.consumersOf x → y ∈ c.graph.consumers.keys := by
    intro x y hy
    rw [ExtTreeMap.mem_keys]
    exact (hwf.nodes y).2 (hwf.known x y hy).2
  have honward : Search.Onward c.graph.consumersOf c.commitTerminal = c.net.Onward := by
    funext x y
    have : c.commitTerminal y = false ↔ ¬ c.net.Ended y := by
      rw [← commitTerminal_iff]
      simp
    simp only [Search.Onward, Net.Onward, this]
    rfl
  unfold affected
  rw [Search.mem_visit (U := c.graph.consumers.keys) (fun u _ v hv => hkeys u v hv) (fun v hv => hkeys id v hv),
    honward]
  · rfl
  · simp [Search.load, walkFuel]

theorem affected_nodup : (c.affected id).Nodup := Search.visit_nodup

theorem committing_iff : c.net.Committing id ↔ ∃ t, c.tasks[id]? = some t ∧ t.state = .committing := by
  unfold Net.Committing
  constructor
  · rintro ⟨s, hs, hc⟩
    obtain ⟨t, ht, rfl⟩ := net_status.1 hs
    exact ⟨t, ht, hc⟩
  · rintro ⟨t, ht, hc⟩
    exact ⟨t.status, net_status_of ht, hc⟩

theorem guardDescendants_ok (hwf : c.graph.WF) :
    c.guardDescendants id = .ok () ↔ ∀ d, c.net.Committing d → ¬ c.net.Below id d := by
  have hfind : c.committingBelow id = none ↔ ∀ d, c.net.Committing d → ¬ c.net.Below id d := by
    unfold committingBelow
    rw [List.find?_eq_none]
    constructor
    · intro h d hd hb
      obtain ⟨t, ht, hs⟩ := committing_iff.1 hd
      exact h d ((mem_affected hwf).2 hb) (by simp [ht, hs])
    · intro h d hd hc
      refine h d (committing_iff.2 ?_) ((mem_affected hwf).1 hd)
      simpa [Option.any_eq_true] using hc
  unfold guardDescendants
  rw [← hfind]
  cases c.committingBelow id with
  | none => simp
  | some d => simp

theorem guardCommit_ok (hwf : c.graph.WF) :
    c.guardCommit id = .ok () ↔ (∃ t, c.tasks[id]? = some t ∧ t.state ≠ .committing) ∧
      ∀ d, c.net.Committing d → ¬ c.net.Below id d := by
  unfold guardCommit
  simp only [bind_ok, task_ok, guard_ok, guardDescendants_ok hwf]
  constructor
  · rintro ⟨t, ht, hs, hd⟩
    exact ⟨⟨t, ht, hs⟩, hd⟩
  · rintro ⟨⟨t, ht, hs⟩, hd⟩
    exact ⟨t, ht, hs, hd⟩

theorem commitInChain_none (hwf : c.graph.WF) :
    c.commitInChain id = none ↔ (∀ u, c.net.Committing u → ¬ c.net.Below id u) ∧
      ∀ u, u ≠ id → c.net.Committing u → ¬ c.net.Below u id := by
  have hbelow : c.committingBelow id = none ↔ ∀ d, c.net.Committing d → ¬ c.net.Below id d := by
    rw [← guardDescendants_ok hwf]
    unfold guardDescendants
    cases c.committingBelow id with
    | none => simp
    | some d => simp
  unfold commitInChain
  cases hc : c.committingBelow id with
  | some d =>
    simp only [reduceCtorEq, false_iff]
    rintro ⟨h, -⟩
    rw [← hbelow, hc] at h
    simp at h
  | none =>
    simp only [← hbelow, hc, true_and, List.find?_eq_none, List.mem_map, List.mem_filter, decide_eq_true_eq]
    constructor
    · intro h u hu hcu hb
      obtain ⟨t, ht, hs⟩ := committing_iff.1 hcu
      refine h u ⟨(u, t), ⟨ExtTreeMap.mem_toList_iff_getElem?_eq_some.2 ht, ?_⟩, rfl⟩ ((mem_affected hwf).2 hb)
      simp [hs, hu]
    · rintro h u ⟨⟨u', t⟩, ⟨hmem, hp⟩, rfl⟩ hb
      have ht := ExtTreeMap.mem_toList_iff_getElem?_eq_some.1 hmem
      simp only [Bool.and_eq_true, decide_eq_true_eq] at hp
      exact h u' hp.2 (committing_iff.2 ⟨t, ht, hp.1⟩) ((mem_affected hwf).1 hb)

/-! ## Eligibility and bindings -/

theorem eligible_iff {cfg : ProvisionalConfig} (hwf : c.graph.WF) :
    c.eligible cfg id = true ↔ (∃ t, c.tasks[id]? = some t ∧ t.state = .blocked) ∧
      ∀ p, c.graph.Edge p id → ∃ pt, c.tasks[p]? = some pt ∧ ready cfg pt = true := by
  unfold eligible
  cases c.tasks[id]? with
  | none => simp
  | some t =>
    simp only [Bool.and_eq_true, decide_eq_true_eq, List.all_eq_true, Option.some.injEq, exists_eq_left',
      Option.any_eq_true]
    exact and_congr_right fun _ => forall_congr' fun p => by rw [hwf.mirror]

theorem foldl_bindTo (l : List String) (out : ExtTreeMap String Binding) (p : String) :
    (l.foldl c.bindTo out)[p]? = if p ∈ l then (c.tasks[p]?.bind bindingOf).or out[p]? else out[p]? := by
  induction l generalizing out with
  | nil => simp
  | cons q l ih =>
    rw [List.foldl_cons, ih]
    unfold bindTo
    cases hb : c.tasks[q]?.bind bindingOf with
    | none =>
      by_cases hq : p = q
      · subst hq
        simp [hb]
      · simp [hq]
    | some b =>
      rw [Table.get_insert]
      by_cases hq : p = q
      · subst hq
        simp [hb]
      · simp [hq, Ne.symm hq]

theorem bindingsFor_get (hwf : c.graph.WF) {p : String} (hp : c.graph.Edge p id) :
    (c.bindingsFor id)[p]? = c.tasks[p]?.bind bindingOf := by
  unfold bindingsFor
  rw [foldl_bindTo, if_pos ((hwf.mirror p id).2 hp)]
  simp

end Core

end SovereignCore.Harness
