import SovereignCore.Harness.Runs

/-!
# What the handlers carry

The handlers change the core through three calls: a task changes state, its entry is amended, it leaves the ready queue.
A relation between cores that these calls carry is carried by every handler made of them. Four events do something else:
a registration, a new dependency, a heartbeat and the binding of an approval.

* `Mild` : an update of an entry that keeps its state, its resources, its lease and its beat;
* `Carried` : a relation that holds across the three calls; `Carried.applyKind` : across every event but those four;
* `Driven` : one that holds across the calls of the pump; `Driven.pumpLoop` : across the pump;
* `Frame` : what no event touches but a bound approval; `Untouched` : what the pump does not touch.
-/

namespace SovereignCore.Harness

open Std Result

namespace Core

/-- An update that the accounts do not see. -/
structure Plain (f : TaskEntry → TaskEntry) : Prop where
  state : ∀ t, (f t).state = t.state
  resources : ∀ t, (f t).resources = t.resources
  lease : ∀ t, (f t).leaseExpiresAt = t.leaseExpiresAt

/-- An update that keeps the beat as well. -/
structure Mild (f : TaskEntry → TaskEntry) : Prop extends Plain f where
  beat : ∀ t, (f t).lastBeat = t.lastBeat

/-- A relation that an amended entry and a task that leaves the queue carry. -/
structure Steady (R : Core → Core → Prop) : Prop where
  refl : ∀ c, R c c
  trans : ∀ {c c' c'' : Core}, R c c' → R c' c'' → R c c''
  amend : ∀ {c c' : Core} {id : String} {f : TaskEntry → TaskEntry}, c.taskMut id f = .ok c' → Mild f → R c c'
  dequeue : ∀ c id, R c (c.dequeue id)

/-- A relation that the calls the handlers are made of carry. -/
structure Carried (R : Core → Core → Prop) : Prop extends Steady R where
  move : ∀ {c c' : Core} {id : String} {target : TaskState} {now : UInt64}, target ≠ .provisional →
    c.setState id target now = .ok c' → R c c'

/-- A relation that the calls the pump is made of carry. -/
structure Driven (cfg : ProvisionalConfig) (R : Core → Core → Prop) : Prop extends Steady R where
  enqueue : ∀ (c : Core) (id : String), c.queue.length < cfg.queueCapacity → R c { c with queue := c.queue ++ [id] }
  start : ∀ (c : Core) (head : String) (rest : List String) (t : TaskEntry) (pool : PermitPool) (now : UInt64)
    (bindings : ExtTreeMap String Binding), c.queue = head :: rest → c.tasks[head]? = some t → t.state = .blocked →
    c.pool.tryAcquire cfg.limits t.resources = some pool →
    R c (Core.put { c with queue := rest } head (Exec.started cfg now bindings (moved t .provisional now)) pool)

variable {R : Core → Core → Prop} {c c' : Core} {x x' : Exec} {id task : String} {now generation : UInt64}

/-! ## Calls -/

theorem Carried.fold {α : Type} {step : Exec → α → Except SchedError Exec} {l : List α} (hR : Carried R)
    (hstep : ∀ a x x', step x a = .ok x' → R x.core x'.core) (h : l.foldlM step x = .ok x') :
    R x.core x'.core := by
  refine foldlM_inv (P := fun y => R x.core y.core) (fun a _ y y' hy hs => ?_) (hR.refl _) h
  exact hR.trans hy (hstep a y y' hs)

theorem Carried.moveNote {target : TaskState} {f : TaskEntry → TaskEntry} {c1 c2 : Core} (hR : Carried R)
    (h1 : c.setState task target now = .ok c1) (h2 : c1.taskMut task f = .ok c2) (ht : target ≠ .provisional)
    (hf : Mild f) : R c c2 :=
  hR.trans (hR.move ht h1) (hR.amend h2 hf)

theorem mild_clearWork {reason : String} : Mild fun t => clearWork t reason :=
  ⟨⟨fun _ => rfl, fun _ => rfl, fun _ => rfl⟩, fun _ => rfl⟩

theorem mild_setSlot {level : BindingLevel} {claim : ProofClaim} : Mild (setSlot level claim) := by
  cases level with
  | interface => exact ⟨⟨fun _ => rfl, fun _ => rfl, fun _ => rfl⟩, fun _ => rfl⟩
  | final => exact ⟨⟨fun _ => rfl, fun _ => rfl, fun _ => rfl⟩, fun _ => rfl⟩

theorem Carried.resetToBlocked {g : UInt64} {reason : String} (hR : Carried R)
    (h : x.resetToBlocked id g now reason = .ok x') : R x.core x'.core := by
  unfold Exec.resetToBlocked at h
  simp only [bind_ok, pure_ok] at h
  obtain ⟨t, -, c1, h1, c2, h2, rfl⟩ := h
  have hmove : R x.core c1 := by
    split_ifs at h1
    · exact hR.move (by decide) h1
    · exact Except.ok.inj h1 ▸ hR.refl _
  exact hR.trans hmove (hR.amend h2 ⟨⟨fun _ => rfl, fun _ => rfl, fun _ => rfl⟩, fun _ => rfl⟩)

theorem Carried.abort {reason : String} (hR : Carried R) (h : x.abort id now reason = .ok x') : R x.core x'.core := by
  unfold Exec.abort at h
  simp only [bind_ok, pure_ok] at h
  obtain ⟨c1, h1, c2, h2, rfl⟩ := h
  exact hR.trans (hR.dequeue x.core id) (hR.moveNote h1 h2 (by decide) mild_clearWork)

theorem Carried.revokeDescendants {p reason : String} (hR : Carried R)
    (h : x.revokeDescendants p now reason = .ok x') : R x.core x'.core := by
  unfold Exec.revokeDescendants at h
  simp only [bind_ok] at h
  obtain ⟨-, -, h⟩ := h
  refine hR.fold (fun d y y' hs => ?_) h
  unfold Exec.revokeOne at hs
  simp only [bind_ok] at hs
  obtain ⟨t, -, hs⟩ := hs
  split_ifs at hs
  · exact hR.resetToBlocked hs
  · rw [pure_ok] at hs
    subst hs
    exact hR.dequeue y.core d

theorem Carried.revokeTask {reason : String} (hR : Carried R)
    (h : Core.revokeTask now x task generation reason = .ok x') : R x.core x'.core := by
  unfold Core.revokeTask at h
  simp only [bind_ok] at h
  obtain ⟨x1, h1, h2⟩ := h
  exact hR.trans (hR.resetToBlocked h1) (hR.revokeDescendants h2)

/-! ## Handlers -/

theorem Carried.onProof {level : BindingLevel} {claim : ProofClaim} (hR : Carried R)
    (h : c.onProof now level task generation claim = .ok x) : R c x.core := by
  unfold Core.onProof at h
  simp only [bind_ok] at h
  obtain ⟨-, -, -, -, t, -, c1, h1, h⟩ := h
  have hclaim : R c c1 := hR.amend h1 mild_setSlot
  split_ifs at h
  · exact hR.trans hclaim (hR.revokeDescendants h)
  · rw [pure_ok] at h
    subst h
    exact hclaim

theorem Carried.onNewGeneration (hR : Carried R) (h : c.onNewGeneration now task generation = .ok x) : R c x.core := by
  unfold Core.onNewGeneration at h
  simp only [bind_ok, guard_ok] at h
  obtain ⟨t, -, -, -, -, -, -, x1, h1, h2⟩ := h
  have hreset : R c x1.core := hR.resetToBlocked h1
  exact hR.trans hreset (hR.revokeDescendants h2)

theorem Carried.onProducerFailed {reason : String} (hR : Carried R)
    (h : c.onProducerFailed now task generation reason = .ok x) : R c x.core := by
  unfold Core.onProducerFailed at h
  simp only [bind_ok] at h
  obtain ⟨-, -, -, -, -, -, x1, h1, h2⟩ := h
  have habort : R c x1.core := hR.abort h1
  exact hR.trans habort (hR.revokeDescendants h2)

theorem Carried.onWorkDone {resultDigest : String} (hR : Carried R)
    (h : c.onWorkDone now task generation resultDigest = .ok x) : R c x.core := by
  unfold Core.onWorkDone at h
  simp only [bind_ok, guard_ok, pure_ok] at h
  obtain ⟨-, -, -, -, t, -, -, -, c1, h1, c2, h2, rfl⟩ := h
  exact hR.moveNote h1 h2 (by decide) ⟨⟨fun _ => rfl, fun _ => rfl, fun _ => rfl⟩, fun _ => rfl⟩

theorem Carried.onFinalize (hR : Carried R) (h : c.onFinalize now task generation = .ok x) : R c x.core := by
  unfold Core.onFinalize at h
  simp only [bind_ok, pure_ok] at h
  obtain ⟨-, -, -, -, -, -, c1, h1, c2, h2, rfl⟩ := h
  exact hR.moveNote h1 h2 (by decide) ⟨⟨fun _ => rfl, fun _ => rfl, fun _ => rfl⟩, fun _ => rfl⟩

theorem Carried.onCancel (hR : Carried R) (h : c.onCancel now task generation = .ok x) : R c x.core := by
  unfold Core.onCancel at h
  simp only [bind_ok] at h
  obtain ⟨-, -, -, -, -, -, x1, h1, h2⟩ := h
  have habort : R c x1.core := hR.abort h1
  refine hR.trans habort (hR.fold (fun d y y' hs => ?_) h2)
  unfold cancelOne at hs
  simp only [bind_ok] at hs
  obtain ⟨t, -, hs⟩ := hs
  split_ifs at hs
  · exact hR.abort hs
  · exact pure_ok.1 hs ▸ hR.refl _

theorem Carried.onRetry (hR : Carried R) (h : c.onRetry now task generation = .ok x) : R c x.core := by
  unfold Core.onRetry at h
  simp only [bind_ok, pure_ok] at h
  obtain ⟨-, -, -, -, c1, h1, c2, h2, rfl⟩ := h
  exact hR.moveNote h1 h2 (by decide) ⟨⟨fun _ => rfl, fun _ => rfl, fun _ => rfl⟩, fun _ => rfl⟩

theorem Carried.onRevoke {reason : String} (hR : Carried R) (h : c.onRevoke now task generation reason = .ok x) :
    R c x.core := by
  unfold Core.onRevoke at h
  simp only [bind_ok] at h
  obtain ⟨-, -, -, -, t, -, h⟩ := h
  exact hR.revokeTask h

theorem Carried.onAuditRevoke {revocations : List Revocation} (hR : Carried R)
    (h : c.onAuditRevoke now revocations = .ok x) : R c x.core := by
  unfold Core.onAuditRevoke at h
  cases revocations with
  | nil => simp at h
  | cons first rest =>
    simp only [bind_ok] at h
    obtain ⟨-, -, h⟩ := h
    refine hR.fold (x := { core := c }) (fun r y y' hs => ?_) h
    unfold auditOne at hs
    simp only [bind_ok] at hs
    obtain ⟨t, -, hs⟩ := hs
    split_ifs at hs
    · exact hR.revokeTask hs
    · exact pure_ok.1 hs ▸ hR.refl _

theorem Carried.onTick (hR : Carried R) (h : c.onTick now = .ok x) : R c x.core := by
  unfold Core.onTick at h
  refine hR.fold (x := { core := c }) (fun d y y' hs => ?_) h
  unfold expireOne at hs
  simp only [bind_ok] at hs
  obtain ⟨t, -, hs⟩ := hs
  split_ifs at hs
  · simp only [bind_ok] at hs
    obtain ⟨y1, h1, h2⟩ := hs
    exact hR.trans (hR.abort h1) (hR.revokeDescendants h2)
  · exact pure_ok.1 hs ▸ hR.refl _

theorem Carried.onBeginCommit {completion : ProofClaim} {producers : ExtTreeMap String ProofClaim} (hR : Carried R)
    (h : c.onBeginCommit now task generation completion producers = .ok x) : R c x.core := by
  unfold Core.onBeginCommit at h
  simp only [bind_ok] at h
  obtain ⟨-, -, -, -, h⟩ := h
  cases hchain : c.commitInChain task with
  | some d => simp [hchain] at h
  | none =>
    simp only [hchain, bind_ok, guard_ok, pure_ok] at h
    obtain ⟨t, -, -, -, -, -, c1, h1, c2, h2, rfl⟩ := h
    exact hR.moveNote h1 h2 (by decide) ⟨⟨fun _ => rfl, fun _ => rfl, fun _ => rfl⟩, fun _ => rfl⟩

theorem Carried.onCommitOutcome {outcome : CommitResult} (hR : Carried R)
    (h : c.onCommitOutcome now task generation outcome = .ok x) : R c x.core := by
  unfold Core.onCommitOutcome at h
  simp only [bind_ok] at h
  obtain ⟨-, -, -, -, h⟩ := h
  cases outcome with
  | committed detail =>
    simp only [bind_ok, pure_ok] at h
    obtain ⟨c1, h1, c2, h2, rfl⟩ := h
    exact hR.moveNote h1 h2 (by decide) ⟨⟨fun _ => rfl, fun _ => rfl, fun _ => rfl⟩, fun _ => rfl⟩
  | failed reason =>
    simp only [bind_ok] at h
    obtain ⟨x1, h1, h2⟩ := h
    have habort : R c x1.core := hR.abort h1
    exact hR.trans habort (hR.revokeDescendants h2)
  | uncertain reason =>
    simp only [bind_ok, pure_ok] at h
    obtain ⟨x1, h1, c1, h2, c2, h3, rfl⟩ := h
    have hrevoke : R c x1.core := hR.revokeDescendants h1
    exact hR.trans hrevoke (hR.moveNote h2 h3 (by decide) ⟨⟨fun _ => rfl, fun _ => rfl, fun _ => rfl⟩, fun _ => rfl⟩)

/-- **Events carry what the calls carry**, but for the four that do something else. -/
theorem Carried.applyKind {cfg : ProvisionalConfig} {kind : EventKind} (hR : Carried R)
    (hregister : ∀ task resources producers, c.onRegisterTask cfg now task resources producers = .ok x → R c x.core)
    (hdepend : ∀ producer consumer, c.onAddDependency producer consumer = .ok x → R c x.core)
    (hbeat : ∀ task generation beat, c.onHeartbeat cfg now task generation beat = .ok x → R c x.core)
    (hbind : ∀ key task generation, kind = .bindApproval key task generation →
      c.onBindApproval key task generation = .ok x → R c x.core)
    (h : applyKind cfg c now kind = .ok x) : R c x.core := by
  cases kind with
  | registerTask task resources producers => exact hregister _ _ _ h
  | addDependency producer consumer => exact hdepend _ _ h
  | interfacePublished task generation claim => exact hR.onProof h
  | completionVerified task generation claim => exact hR.onProof h
  | newGeneration task generation => exact hR.onNewGeneration h
  | producerFailed task generation reason => exact hR.onProducerFailed h
  | workDone task generation resultDigest => exact hR.onWorkDone h
  | finalize task generation => exact hR.onFinalize h
  | heartbeat task generation beat => exact hbeat _ _ _ h
  | cancel task generation => exact hR.onCancel h
  | retry task generation => exact hR.onRetry h
  | revoke task generation reason => exact hR.onRevoke h
  | auditRevoke revocations => exact hR.onAuditRevoke h
  | tick => exact hR.onTick h
  | beginCommit task generation completion producers => exact hR.onBeginCommit h
  | commitOutcome task generation outcome => exact hR.onCommitOutcome h
  | bindApproval key task generation => exact hbind _ _ _ rfl h

/-! ## The pump -/

section

variable {cfg : ProvisionalConfig}

theorem Driven.dropStale (hR : Driven cfg R) (c : Core) : R c (Exec.dropStale cfg c) := by
  unfold Exec.dropStale
  suffices h : ∀ (l : List String) (c : Core), R c (l.foldl Core.dequeue c) from h _ c
  intro l
  induction l with
  | nil => exact hR.refl
  | cons id l ih => exact fun c => hR.trans (hR.dequeue c id) (ih _)

theorem Driven.fillQueue {l : List String} (hR : Driven cfg R) (h : Exec.fillQueue cfg l c = .ok c') : R c c' := by
  induction l generalizing c with
  | nil => exact Except.ok.inj h ▸ hR.refl _
  | cons id l ih =>
    unfold Exec.fillQueue at h
    split_ifs at h with hfull
    · exact Except.ok.inj h ▸ hR.refl _
    · simp only [bind_ok] at h
      obtain ⟨c1, h1, h2⟩ := h
      have hpush : R c { c with queue := c.queue ++ [id] } := hR.enqueue c id (Nat.not_le.1 hfull)
      have hflag : R { c with queue := c.queue ++ [id] } c1 :=
        hR.amend h1 ⟨⟨fun _ => rfl, fun _ => rfl, fun _ => rfl⟩, fun _ => rfl⟩
      exact hR.trans hpush (hR.trans hflag (ih h2))

theorem Driven.drain {fuel : Nat} {progressed : Bool} {r : Exec × Bool} (hR : Driven cfg R)
    (h : Exec.drain cfg now fuel x progressed = .ok r) : R x.core r.1.core := by
  induction fuel generalizing x progressed with
  | zero => exact Except.ok.inj h ▸ hR.refl _
  | succ fuel ih =>
    unfold Exec.drain at h
    cases hq : x.core.queue with
    | nil =>
      simp only [hq] at h
      exact Except.ok.inj h ▸ hR.refl _
    | cons head rest =>
      simp only [hq, bind_ok, task_ok] at h
      obtain ⟨t, ht, h⟩ := h
      cases hpool : x.core.pool.tryAcquire cfg.limits t.resources with
      | none =>
        simp only [hpool] at h
        exact Except.ok.inj h ▸ hR.refl _
      | some pool =>
        simp only [hpool, bind_ok, Exec.dispatch_ok] at h
        obtain ⟨x1, ⟨t', ht', hb, rfl⟩, h⟩ := h
        obtain rfl := Option.some.inj (ht.symm.trans ht')
        exact hR.trans (hR.start x.core head rest t pool now _ hq ht hb hpool) (ih h)

theorem Driven.pumpLoop {fuel : Nat} (hR : Driven cfg R) (h : Exec.pumpLoop cfg now fuel x = .ok x') :
    R x.core x'.core := by
  induction fuel generalizing x with
  | zero => exact Except.ok.inj h ▸ hR.refl _
  | succ fuel ih =>
    unfold Exec.pumpLoop at h
    simp only [bind_ok] at h
    obtain ⟨r, hr, h⟩ := h
    have hround : R x.core r.1.core := by
      unfold Exec.pumpRound at hr
      simp only [bind_ok] at hr
      obtain ⟨c1, h1, h2⟩ := hr
      exact hR.trans (hR.dropStale x.core) (hR.trans (hR.fillQueue h1) (hR.drain h2))
    split_ifs at h
    · exact hR.trans hround (ih h)
    · exact Except.ok.inj h ▸ hround

end

/-! ## What no handler touches -/

theorem onRegisterTask_new {cfg : ProvisionalConfig} {resources : ResourceRequest} {producers : List String} (hg : c.Good)
    (h : c.onRegisterTask cfg now task resources producers = .ok x) :
    cfg.limits.admits resources = true ∧ c.tasks[task]? = none ∧
      ∃ g, x = { core := { c with graph := g, tasks := c.tasks.insert task (TaskEntry.new resources now) } } := by
  unfold onRegisterTask at h
  simp only [bind_ok, mapError_ok, guard_ok, pure_ok] at h
  obtain ⟨-, -, hadm, g1, h1, g2, -, rfl⟩ := h
  refine ⟨by simpa using hadm, ?_, g2, rfl⟩
  have hno : c.graph.contains task = false := (DependencyGraph.addNode_ok h1).1
  cases ht : c.tasks[task]? with
  | none => rfl
  | some t =>
    rw [(hg.nodes task).2 ⟨t, ht⟩] at hno
    cases hno

/-- The memory and the approvals are as before, every task is still there, and no beat went back. -/
structure Frame (c c' : Core) : Prop where
  seen : c'.seen = c.seen
  approvals : c'.approvals = c.approvals
  beats : ∀ (id : String) (t : TaskEntry), c.tasks[id]? = some t →
    ∃ t', c'.tasks[id]? = some t' ∧ t.lastBeat ≤ t'.lastBeat

theorem frame_same (hs : c'.seen = c.seen) (ha : c'.approvals = c.approvals) (ht : c'.tasks = c.tasks) : Frame c c' :=
  ⟨hs, ha, fun id t h => ⟨t, by rw [ht]; exact h, UInt64.le_refl _⟩⟩

theorem Frame.trans {c'' : Core} (h : Frame c c') (h' : Frame c' c'') : Frame c c'' where
  seen := h'.seen.trans h.seen
  approvals := h'.approvals.trans h.approvals
  beats id t ht := by
    obtain ⟨t', ht', hle⟩ := h.beats id t ht
    obtain ⟨t'', ht'', hle'⟩ := h'.beats id t' ht'
    exact ⟨t'', ht'', UInt64.le_trans hle hle'⟩

theorem frame_put {t t' : TaskEntry} {pool : PermitPool} (ht : c.tasks[id]? = some t) (hb : t.lastBeat ≤ t'.lastBeat) :
    Frame c (c.put id t' pool) := by
  refine ⟨rfl, rfl, fun k tk htk => ?_⟩
  rw [put_tasks]
  by_cases hk : id = k
  · subst hk
    obtain rfl := Option.some.inj (ht.symm.trans htk)
    exact ⟨t', by simp, hb⟩
  · exact ⟨tk, by simp [hk, htk], UInt64.le_refl _⟩

theorem frame_dequeue (c : Core) (id : String) : Frame c (c.dequeue id) := by
  unfold Core.dequeue
  cases ht : c.tasks[id]? with
  | none => exact frame_same rfl rfl rfl
  | some t =>
    simp only
    split_ifs
    · have hput : Frame c (c.put id { t with queued := false } c.pool) := frame_put ht (UInt64.le_refl _)
      exact hput.trans (frame_same rfl rfl rfl)
    · exact frame_same rfl rfl rfl

theorem frame_carried : Carried Frame where
  refl _ := frame_same rfl rfl rfl
  trans := Frame.trans
  move {c c' id target now} _ h := by
    obtain ⟨t, ht, -, rfl⟩ := setState_ok.1 h
    exact frame_put ht (UInt64.le_refl _)
  amend {c c' id f} h hf := by
    obtain ⟨t, ht, rfl⟩ := taskMut_ok.1 h
    exact frame_put ht (UInt64.le_of_eq (hf.beat t).symm)
  dequeue := frame_dequeue

theorem onHeartbeat_beat {cfg : ProvisionalConfig} {beat : UInt64}
    (h : c.onHeartbeat cfg now task generation beat = .ok x) :
    ∃ t, c.tasks[task]? = some t ∧ t.generation = generation ∧ t.state = .provisional ∧ t.lastBeat < beat ∧
      x = { core := c.put task { t with
        lastBeat := beat, leaseExpiresAt := some (satAdd64 now cfg.leaseTtl) } c.pool } := by
  unfold onHeartbeat at h
  simp only [bind_ok, guard_ok, pure_ok, requireGeneration_ok, requireState_ok, task_ok, taskMut_ok] at h
  obtain ⟨-, ⟨t, ht, hgen⟩, -, ⟨t1, ht1, hs⟩, t2, ht2, -, hbeat, c1, ⟨t3, ht3, rfl⟩, rfl⟩ := h
  obtain rfl := Option.some.inj (ht.symm.trans ht1)
  obtain rfl := Option.some.inj (ht.symm.trans ht2)
  obtain rfl := Option.some.inj (ht.symm.trans ht3)
  exact ⟨t, ht, hgen, of_decide_eq_true hs, UInt64.not_le.1 hbeat, rfl⟩

/-- **No event touches the memory; only a bound approval touches the approvals; no beat goes back.** -/
theorem applyKind_frame {cfg : ProvisionalConfig} {kind : EventKind} (hg : c.Good)
    (hbind : ∀ key task generation, kind ≠ .bindApproval key task generation)
    (h : applyKind cfg c now kind = .ok x) : Frame c x.core := by
  refine frame_carried.applyKind (fun task resources producers h => ?_) (fun producer consumer h => ?_)
    (fun task generation beat h => ?_) (fun key task generation hk _ => absurd hk (hbind key task generation)) h
  · obtain ⟨-, hnew, g, rfl⟩ := onRegisterTask_new hg h
    refine ⟨rfl, rfl, fun k tk htk => ⟨tk, ?_, UInt64.le_refl _⟩⟩
    rw [Table.get_insert, if_neg]
    · exact htk
    · rintro rfl
      rw [hnew] at htk
      exact nomatch htk
  · unfold onAddDependency at h
    simp only [bind_ok, pure_ok] at h
    obtain ⟨-, -, -, -, g, -, rfl⟩ := h
    have hgraph : Frame c { c with graph := g } := frame_same rfl rfl rfl
    exact hgraph.trans (frame_dequeue _ consumer)
  · obtain ⟨t, ht, -, -, hlt, rfl⟩ := onHeartbeat_beat h
    exact frame_put ht (UInt64.le_of_lt hlt)

/-- What an accepted binding does: it notes the key, for a task that has not ended. -/
theorem onBindApproval_ok {key : String} (h : c.onBindApproval key task generation = .ok x) :
    ∃ t, c.tasks[task]? = some t ∧ t.generation = generation ∧ bindingEnded t.state = false ∧
      ((c.approvals[key]?.any fun b => b.task = task) = true ∨
        (c.approvals.values.filter fun b => b.task = task).length < maxApprovalBindingsPerTask) ∧
      x = { core := { c with approvals := c.approvals.insert key ⟨task, generation⟩ } } := by
  unfold onBindApproval at h
  simp only [bind_ok, guard_ok, pure_ok, requireGeneration_ok, requireState_ok] at h
  obtain ⟨-, -, ⟨t, ht, hgen⟩, -, ⟨t1, ht1, hs⟩, hroom, rfl⟩ := h
  obtain rfl := Option.some.inj (ht.symm.trans ht1)
  refine ⟨t, ht, hgen, by simpa using hs, ?_, rfl⟩
  by_cases hre : (c.approvals[key]?.any fun b => b.task = task) = true
  · exact .inl hre
  · refine .inr (Nat.not_le.1 fun hle => hroom ⟨?_, hle⟩)
    simpa using hre

def Untouched (c c' : Core) : Prop :=
  ∀ (id : String) (t : TaskEntry), c.tasks[id]? = some t → t.state ≠ .blocked →
    ∃ t', c'.tasks[id]? = some t' ∧ t'.state = t.state ∧ t'.lastBeat = t.lastBeat

theorem untouched_put {t t' : TaskEntry} {pool : PermitPool} (ht : c.tasks[id]? = some t)
    (h : t.state ≠ .blocked → t'.state = t.state ∧ t'.lastBeat = t.lastBeat) : Untouched c (c.put id t' pool) := by
  intro k tk htk hs
  rw [put_tasks]
  by_cases hk : id = k
  · subst hk
    obtain rfl := Option.some.inj (ht.symm.trans htk)
    exact ⟨t', by simp, h hs⟩
  · exact ⟨tk, by simp [hk, htk], rfl, rfl⟩

theorem untouched_same (ht : c'.tasks = c.tasks) : Untouched c c' :=
  fun id t h _ => ⟨t, by rw [ht]; exact h, rfl, rfl⟩

theorem Untouched.trans {c'' : Core} (h : Untouched c c') (h' : Untouched c' c'') : Untouched c c'' := by
  intro id t ht hs
  obtain ⟨t', ht', hs', hb'⟩ := h id t ht hs
  obtain ⟨t'', ht'', hs'', hb''⟩ := h' id t' ht' (by rw [hs']; exact hs)
  exact ⟨t'', ht'', hs''.trans hs', hb''.trans hb'⟩

theorem untouched_driven (cfg : ProvisionalConfig) : Driven cfg Untouched where
  refl _ := untouched_same rfl
  trans := Untouched.trans
  amend {c c' id f} h hf := by
    obtain ⟨t, ht, rfl⟩ := taskMut_ok.1 h
    exact untouched_put ht fun _ => ⟨hf.state t, hf.beat t⟩
  dequeue c id := by
    unfold Core.dequeue
    cases ht : c.tasks[id]? with
    | none => exact untouched_same rfl
    | some t =>
      simp only
      split_ifs
      · have hput : Untouched c (c.put id { t with queued := false } c.pool) := untouched_put ht fun _ => ⟨rfl, rfl⟩
        exact hput.trans (untouched_same rfl)
      · exact untouched_same rfl
  enqueue _ _ _ := untouched_same rfl
  start c head rest t pool now bindings _ ht hb _ :=
    untouched_put (c := { c with queue := rest }) ht fun hs => absurd hb hs

end Core

end SovereignCore.Harness
