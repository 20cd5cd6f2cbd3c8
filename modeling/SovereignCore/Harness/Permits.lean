import SovereignCore.Harness.Handlers

/-!
# Permits, leases, queue and approvals

The handlers change the core through a few edits; what every edit keeps, every accepted event keeps.

* `Edit` : the edits; `applyKind_edits`, `pump_edits` : the handlers and the pump are made of them;
* `inUse` : what the running tasks hold; `Accounts` : the pool agrees with it, leases belong to running tasks, the queue
  and the approvals stay within their bounds;
* `Structural` : the invariant of a reachable core; `structure_holds` : it holds under every policy whose limits a sum
  can not wrap past;
* `permits_wrap` : a limit at the top of its type does not hold.
-/

namespace SovereignCore.Harness

open Std Result Relation

/-! ## Permits -/

/-- No sum of permits reaches the top of its type: a limit is below it, or only one task runs at a time. -/
def ResourceLimits.NeverWraps (l : ResourceLimits) : Prop :=
  l.cpuSlots < 0xFFFFFFFF ∧ l.memoryBytes < 0xFFFFFFFFFFFFFFFF ∨ l.maxConcurrency ≤ 1

theorem toNat_satAdd32 {a b : UInt32} : (satAdd32 a b).toNat = min (a.toNat + b.toNat) (2 ^ 32 - 1) := by
  unfold satAdd32
  rw [UInt32.toNat_ofNat']
  omega

theorem toNat_satAdd64 {a b : UInt64} : (satAdd64 a b).toNat = min (a.toNat + b.toNat) (2 ^ 64 - 1) := by
  unfold satAdd64
  rw [UInt64.toNat_ofNat']
  omega

theorem toNat_satSub32 {a b : UInt32} : (satSub32 a b).toNat = a.toNat - b.toNat := by
  unfold satSub32
  split_ifs with h
  · exact UInt32.toNat_sub_of_le a b h
  · have hlt : a.toNat < b.toNat := by simpa [UInt32.le_iff_toNat_le] using h
    show 0 = _
    omega

theorem toNat_satSub64 {a b : UInt64} : (satSub64 a b).toNat = a.toNat - b.toNat := by
  unfold satSub64
  split_ifs with h
  · exact UInt64.toNat_sub_of_le a b h
  · have hlt : a.toNat < b.toNat := by simpa [UInt64.le_iff_toNat_le] using h
    show 0 = _
    omega

namespace PermitPool

variable {p pool : PermitPool} {limits : ResourceLimits} {req : ResourceRequest}

/-- Permits that were taken are added up, and stay within the limits. -/
theorem tryAcquire_spec (hno : limits.NeverWraps)
    (hidle : p.running = 0 → p.cpuInUse = 0 ∧ p.memoryInUse = 0) (h : p.tryAcquire limits req = some pool) :
    pool.running.toNat = p.running.toNat + 1 ∧ pool.cpuInUse.toNat = p.cpuInUse.toNat + req.cpuSlots.toNat ∧
      pool.memoryInUse.toNat = p.memoryInUse.toNat + req.memoryBytes.toNat ∧
      pool.running ≤ limits.maxConcurrency ∧ pool.cpuInUse ≤ limits.cpuSlots ∧
      pool.memoryInUse ≤ limits.memoryBytes := by
  unfold tryAcquire at h
  split_ifs at h with hfits
  obtain rfl := Option.some.inj h
  simp only [fits, Bool.and_eq_true, decide_eq_true_eq] at hfits
  obtain ⟨⟨hrun, hcpu⟩, hmem⟩ := hfits
  rw [UInt32.lt_iff_toNat_lt] at hrun
  rw [UInt32.le_iff_toNat_le, toNat_satAdd32] at hcpu
  rw [UInt64.le_iff_toNat_le, toNat_satAdd64] at hmem
  have hc := limits.cpuSlots.toNat_lt
  have hm := limits.memoryBytes.toNat_lt
  have hx := limits.maxConcurrency.toNat_lt
  have hsum : p.cpuInUse.toNat + req.cpuSlots.toNat ≤ limits.cpuSlots.toNat ∧
      p.memoryInUse.toNat + req.memoryBytes.toNat ≤ limits.memoryBytes.toNat := by
    rcases hno with ⟨hc', hm'⟩ | hone
    · rw [UInt32.lt_iff_toNat_lt] at hc'
      rw [UInt64.lt_iff_toNat_lt] at hm'
      have hctop : (0xFFFFFFFF : UInt32).toNat = 2 ^ 32 - 1 := rfl
      have hmtop : (0xFFFFFFFFFFFFFFFF : UInt64).toNat = 2 ^ 64 - 1 := rfl
      omega
    · -- the first task of all asks for no more than its type holds
      rw [UInt32.le_iff_toNat_le] at hone
      have hzero : p.running = 0 := UInt32.toNat_inj.1 (by
        have h1 : (1 : UInt32).toNat = 1 := rfl
        show p.running.toNat = 0
        omega)
      obtain ⟨h1, h2⟩ := hidle hzero
      have hreqc := req.cpuSlots.toNat_lt
      have hreqm := req.memoryBytes.toNat_lt
      have h1' : p.cpuInUse.toNat = 0 := by rw [h1]; rfl
      have h2' : p.memoryInUse.toNat = 0 := by rw [h2]; rfl
      omega
  have hr : (p.running + 1).toNat = p.running.toNat + 1 := by
    rw [UInt32.toNat_add]
    exact Nat.mod_eq_of_lt (by show p.running.toNat + 1 < 2 ^ 32; omega)
  have hcs : (p.cpuInUse + req.cpuSlots).toNat = p.cpuInUse.toNat + req.cpuSlots.toNat := by
    rw [UInt32.toNat_add]
    exact Nat.mod_eq_of_lt (by omega)
  have hms : (p.memoryInUse + req.memoryBytes).toNat = p.memoryInUse.toNat + req.memoryBytes.toNat := by
    rw [UInt64.toNat_add]
    exact Nat.mod_eq_of_lt (by omega)
  refine ⟨hr, hcs, hms, ?_, ?_, ?_⟩
  · rw [UInt32.le_iff_toNat_le, hr]
    omega
  · rw [UInt32.le_iff_toNat_le, hcs]
    exact hsum.1
  · rw [UInt64.le_iff_toNat_le, hms]
    exact hsum.2

theorem release_le : (p.release req).running ≤ p.running ∧ (p.release req).cpuInUse ≤ p.cpuInUse ∧
    (p.release req).memoryInUse ≤ p.memoryInUse := by
  refine ⟨?_, ?_, ?_⟩
  · rw [UInt32.le_iff_toNat_le]
    exact toNat_satSub32.trans_le (Nat.sub_le _ _)
  · rw [UInt32.le_iff_toNat_le]
    exact toNat_satSub32.trans_le (Nat.sub_le _ _)
  · rw [UInt64.le_iff_toNat_le]
    exact toNat_satSub64.trans_le (Nat.sub_le _ _)

end PermitPool

namespace Core

/-! ## Edits -/

/-- How many keys are bound to `task`. -/
def keysOf (c : Core) (task : String) : Nat := (c.approvals.values.filter fun b => b.task = task).length

/-- One change of a core. -/
inductive Edit (cfg : ProvisionalConfig) : Core → Core → Prop
  /-- A change beside the tasks, the pool and the approvals; the queue may lose tasks. -/
  | aside (c c' : Core) (ht : c'.tasks = c.tasks) (hp : c'.pool = c.pool) (ha : c'.approvals = c.approvals)
      (hq : c'.queue.length ≤ c.queue.length) : Edit cfg c c'
  | register (c : Core) (id : String) (resources : ResourceRequest) (now : UInt64) (hnew : c.tasks[id]? = none)
      (hadm : cfg.limits.admits resources = true) :
      Edit cfg c { c with tasks := c.tasks.insert id (TaskEntry.new resources now) }
  | move (c : Core) (id : String) (t : TaskEntry) (target : TaskState) (now : UInt64) (ht : c.tasks[id]? = some t)
      (htarget : target ≠ .provisional) : Edit cfg c (c.put id (moved t target now) (c.poolAfter t target))
  /-- An entry changes, but neither the state nor the resources of the task. -/
  | amend (c : Core) (id : String) (t t' : TaskEntry) (ht : c.tasks[id]? = some t) (hs : t'.state = t.state)
      (hr : t'.resources = t.resources)
      (hl : t'.leaseExpiresAt = t.leaseExpiresAt ∨ t.state = .provisional ∧ t'.leaseExpiresAt.isSome) :
      Edit cfg c (c.put id t' c.pool)
  | enqueue (c : Core) (id : String) (h : c.queue.length < cfg.queueCapacity) :
      Edit cfg c { c with queue := c.queue ++ [id] }
  | start (c : Core) (head : String) (rest : List String) (t : TaskEntry) (pool : PermitPool) (now : UInt64)
      (bindings : ExtTreeMap String Binding) (hq : c.queue = head :: rest) (ht : c.tasks[head]? = some t)
      (hb : t.state = .blocked) (hpool : c.pool.tryAcquire cfg.limits t.resources = some pool) :
      Edit cfg c (Core.put { c with queue := rest } head (Exec.started cfg now bindings (moved t .provisional now)) pool)
  | approve (c : Core) (key task : String) (generation : UInt64)
      (h : (c.approvals[key]?.any fun b => b.task = task) = true ∨ c.keysOf task < maxApprovalBindingsPerTask) :
      Edit cfg c { c with approvals := c.approvals.insert key { task, generation } }
  | settle (c : Core) (payloadDigest : EventKind → String) (e : JournalEntry) :
      Edit cfg c (Core.settle cfg c payloadDigest e)

abbrev Edits (cfg : ProvisionalConfig) : Core → Core → Prop := ReflTransGen (Edit cfg)

variable {cfg : ProvisionalConfig} {c c' : Core} {x x' : Exec} {id : String} {t : TaskEntry} {now : UInt64}

theorem dequeue_edits (c : Core) (id : String) : Edits cfg c (c.dequeue id) := by
  unfold dequeue
  cases ht : c.tasks[id]? with
  | none => exact .refl
  | some t =>
    simp only
    split_ifs
    · have hput : Edits cfg c (c.put id { t with queued := false } c.pool) :=
        .single (.amend c id t _ ht rfl rfl (.inl rfl))
      exact hput.tail (.aside _ _ rfl rfl rfl (List.length_filter_le _ _))
    · exact .refl

theorem edits_carried (cfg : ProvisionalConfig) : Carried (Edits cfg) where
  refl _ := .refl
  trans h h' := ReflTransGen.trans h h'
  move {c c' id target now} htarget h := by
    obtain ⟨t, ht, -, rfl⟩ := setState_ok.1 h
    exact .single (.move c id t target now ht htarget)
  amend {c c' id f} h hf := by
    obtain ⟨t, ht, rfl⟩ := taskMut_ok.1 h
    exact .single (.amend c id t (f t) ht (hf.state t) (hf.resources t) (.inl (hf.lease t)))
  dequeue := dequeue_edits

theorem onRegisterTask_edits {task : String} {resources : ResourceRequest} {producers : List String} (hg : c.Good)
    (h : c.onRegisterTask cfg now task resources producers = .ok x) : Edits cfg c x.core := by
  obtain ⟨hadm, hnew, g, rfl⟩ := onRegisterTask_new hg h
  have hreg : Edits cfg c { c with tasks := c.tasks.insert task (TaskEntry.new resources now) } :=
    .single (.register c task resources now hnew hadm)
  exact hreg.tail (.aside _ _ rfl rfl rfl (Nat.le_refl _))

theorem onAddDependency_edits {producer consumer : String} (h : c.onAddDependency producer consumer = .ok x) :
    Edits cfg c x.core := by
  unfold onAddDependency at h
  simp only [bind_ok, pure_ok] at h
  obtain ⟨-, -, -, -, g, -, rfl⟩ := h
  have hgraph : Edits cfg c { c with graph := g } := .single (.aside _ _ rfl rfl rfl (Nat.le_refl _))
  exact hgraph.trans (dequeue_edits _ consumer)

theorem onHeartbeat_edits {task : String} {generation beat : UInt64}
    (h : c.onHeartbeat cfg now task generation beat = .ok x) : Edits cfg c x.core := by
  obtain ⟨t, ht, -, hs, -, rfl⟩ := onHeartbeat_beat h
  exact .single (.amend c task t _ ht rfl rfl (.inr ⟨hs, rfl⟩))

theorem onBindApproval_edits {key task : String} {generation : UInt64}
    (h : c.onBindApproval key task generation = .ok x) : Edits cfg c x.core := by
  obtain ⟨t, -, -, -, hroom, rfl⟩ := onBindApproval_ok h
  exact .single (.approve c key task generation hroom)

theorem applyKind_edits {kind : EventKind} (hg : c.Good) (h : applyKind cfg c now kind = .ok x) :
    Edits cfg c x.core :=
  (edits_carried cfg).applyKind (fun _ _ _ => onRegisterTask_edits hg) (fun _ _ => onAddDependency_edits)
    (fun _ _ _ => onHeartbeat_edits) (fun _ _ _ _ => onBindApproval_edits) h

/-! ## The pump -/

theorem edits_driven (cfg : ProvisionalConfig) : Driven cfg (Edits cfg) where
  toSteady := (edits_carried cfg).toSteady
  enqueue c id h := .single (.enqueue c id h)
  start c head rest t pool now bindings hq ht hb hpool := .single (.start c head rest t pool now bindings hq ht hb hpool)

theorem pumpLoop_edits {fuel : Nat} (h : Exec.pumpLoop cfg now fuel x = .ok x') : Edits cfg x.core x'.core :=
  (edits_driven cfg).pumpLoop h

theorem apply_edits {dg : EventKind → String} {e : JournalEntry} {fx : Effects} (hg : c.Good)
    (h : apply cfg c dg e = .ok (c', fx)) : Edits cfg c c' := by
  obtain ⟨-, -, -, x, x1, hx, hx1, rfl, rfl⟩ := apply_ok h
  have htime : Edits cfg c { c with lastAt := e.now } := .single (.aside _ _ rfl rfl rfl (Nat.le_refl _))
  have hkind : Edits cfg { c with lastAt := e.now } x.core := applyKind_edits (hg.congr rfl rfl rfl) hx
  exact htime.trans (hkind.trans ((pumpLoop_edits hx1).tail (.settle x1.core dg e)))

/-! ## Accounts -/

/-- What a task holds, as `w` weighs it. -/
def held (w : ResourceRequest → Nat) (t : TaskEntry) : Nat := if t.state = .provisional then w t.resources else 0

def inUse (c : Core) (w : ResourceRequest → Nat) : Nat := Table.total c.tasks (held w)

/-- The pool is what the running tasks hold, within the limits; a task has a lease exactly while it runs; queue and
approvals are within their bounds. -/
structure Accounts (cfg : ProvisionalConfig) (c : Core) : Prop where
  running : c.pool.running.toNat = c.inUse fun _ => 1
  cpu : c.pool.cpuInUse.toNat = c.inUse fun r => r.cpuSlots.toNat
  memory : c.pool.memoryInUse.toNat = c.inUse fun r => r.memoryBytes.toNat
  within : c.pool.running ≤ cfg.limits.maxConcurrency ∧ c.pool.cpuInUse ≤ cfg.limits.cpuSlots ∧
    c.pool.memoryInUse ≤ cfg.limits.memoryBytes
  lease : ∀ (id : String) (t : TaskEntry), c.tasks[id]? = some t →
    (t.leaseExpiresAt.isSome = true ↔ t.state = .provisional)
  queue : c.queue.length ≤ cfg.queueCapacity
  keys : ∀ task, c.keysOf task ≤ maxApprovalBindingsPerTask

variable {w : ResourceRequest → Nat} {pool : PermitPool}

theorem held_running (h : t.state = .provisional) : held w t = w t.resources := if_pos h

theorem held_idle (h : t.state ≠ .provisional) : held w t = 0 := if_neg h

theorem inUse_put {t' : TaskEntry} (ht : c.tasks[id]? = some t) :
    (c.put id t' pool).inUse w + held w t = c.inUse w + held w t' :=
  Table.total_insert ht

theorem held_le (ht : c.tasks[id]? = some t) : held w t ≤ c.inUse w := Table.le_total ht

theorem inUse_zero (h : (c.inUse fun _ => 1) = 0) : c.inUse w = 0 := by
  unfold inUse Table.total
  refine List.sum_eq_zero fun n hn => ?_
  obtain ⟨t, ht, rfl⟩ := List.mem_map.1 hn
  obtain ⟨id, hid⟩ := Table.mem_values.1 ht
  refine held_idle fun hs => ?_
  have hle : held (fun _ => 1) t ≤ c.inUse fun _ => 1 := held_le hid
  rw [h, held_running hs] at hle
  exact absurd hle (by decide)

theorem keysOf_eq {task : String} :
    c.keysOf task = Table.total c.approvals fun b => if b.task = task then 1 else 0 := by
  unfold keysOf Table.total
  rw [Table.values_eq, ← List.countP_eq_length_filter]
  induction Table.values c.approvals with
  | nil => rfl
  | cons b l ih =>
    rw [List.countP_cons, List.map_cons, List.sum_cons, ih, Nat.add_comm]
    simp only [decide_eq_true_eq]

/-- The accounts read the tasks, the pool, the approvals and the length of the queue. -/
theorem Accounts.aside (h : Accounts cfg c) (ht : c'.tasks = c.tasks) (hp : c'.pool = c.pool)
    (ha : c'.approvals = c.approvals) (hq : c'.queue.length ≤ cfg.queueCapacity) : Accounts cfg c' := by
  have huse : ∀ w, c'.inUse w = c.inUse w := fun w => by unfold inUse; rw [ht]
  constructor
  · rw [hp, huse, h.running]
  · rw [hp, huse, h.cpu]
  · rw [hp, huse, h.memory]
  · rw [hp]
    exact h.within
  · rw [ht]
    exact h.lease
  · exact hq
  · intro task
    show (c'.approvals.values.filter _).length ≤ _
    rw [ha]
    exact h.keys task

theorem Accounts.put {t' : TaskEntry} (h : Accounts cfg c) (ht : c.tasks[id]? = some t)
    (hrun : pool.running.toNat + held (fun _ => 1) t = c.pool.running.toNat + held (fun _ => 1) t')
    (hcpu : pool.cpuInUse.toNat + held (fun r => r.cpuSlots.toNat) t =
      c.pool.cpuInUse.toNat + held (fun r => r.cpuSlots.toNat) t')
    (hmem : pool.memoryInUse.toNat + held (fun r => r.memoryBytes.toNat) t =
      c.pool.memoryInUse.toNat + held (fun r => r.memoryBytes.toNat) t')
    (hwithin : pool.running ≤ cfg.limits.maxConcurrency ∧ pool.cpuInUse ≤ cfg.limits.cpuSlots ∧
      pool.memoryInUse ≤ cfg.limits.memoryBytes)
    (hlease : t'.leaseExpiresAt.isSome = true ↔ t'.state = .provisional) : Accounts cfg (c.put id t' pool) where
  running := by
    have hput : (c.put id t' pool).inUse (fun _ => 1) + held _ t = _ := inUse_put ht
    rw [← h.running] at hput
    show pool.running.toNat = _
    omega
  cpu := by
    have hput : (c.put id t' pool).inUse (fun r => r.cpuSlots.toNat) + held _ t = _ := inUse_put ht
    rw [← h.cpu] at hput
    show pool.cpuInUse.toNat = _
    omega
  memory := by
    have hput : (c.put id t' pool).inUse (fun r => r.memoryBytes.toNat) + held _ t = _ := inUse_put ht
    rw [← h.memory] at hput
    show pool.memoryInUse.toNat = _
    omega
  within := hwithin
  lease k tk htk := by
    rw [put_tasks] at htk
    split_ifs at htk
    · obtain rfl := Option.some.inj htk
      exact hlease
    · exact h.lease k tk htk
  queue := h.queue
  keys := h.keys

theorem Accounts.register {resources : ResourceRequest} (h : Accounts cfg c) (hnew : c.tasks[id]? = none) :
    Accounts cfg { c with tasks := c.tasks.insert id (TaskEntry.new resources now) } := by
  have huse : ∀ w, inUse { c with tasks := c.tasks.insert id (TaskEntry.new resources now) } w = c.inUse w := by
    intro w
    show Table.total _ _ = _
    rw [Table.total_insert_new hnew]
    rfl
  constructor
  · exact h.running.trans (huse _).symm
  · exact h.cpu.trans (huse _).symm
  · exact h.memory.trans (huse _).symm
  · exact h.within
  · intro k tk htk
    rw [Table.get_insert] at htk
    split_ifs at htk
    · obtain rfl := Option.some.inj htk
      simp [TaskEntry.new]
    · exact h.lease k tk htk
  · exact h.queue
  · exact h.keys

theorem Accounts.move {target : TaskState} (h : Accounts cfg c) (ht : c.tasks[id]? = some t)
    (htarget : target ≠ .provisional) : Accounts cfg (c.put id (moved t target now) (c.poolAfter t target)) := by
  have hidle : ∀ w, held w (moved t target now) = 0 := fun w => held_idle htarget
  have hleave : target.holdsPermits = false := decide_eq_false htarget
  by_cases hs : t.state = .provisional
  · have hpool : c.poolAfter t target = c.pool.release t.resources := by
      simp [poolAfter, hs, TaskState.holdsPermits, htarget]
    have hrun : held (fun _ => 1) t ≤ c.inUse fun _ => 1 := held_le ht
    have hcpu : held (fun r => r.cpuSlots.toNat) t ≤ c.inUse fun r => r.cpuSlots.toNat := held_le ht
    have hmem : held (fun r => r.memoryBytes.toNat) t ≤ c.inUse fun r => r.memoryBytes.toNat := held_le ht
    rw [← h.running, held_running hs] at hrun
    rw [← h.cpu, held_running hs] at hcpu
    rw [← h.memory, held_running hs] at hmem
    rw [hpool]
    refine h.put ht ?_ ?_ ?_ ?_ ?_
    · rw [hidle, held_running hs]
      show (satSub32 _ 1).toNat + 1 = _
      rw [toNat_satSub32]
      exact Nat.sub_add_cancel hrun
    · rw [hidle, held_running hs]
      show (satSub32 _ _).toNat + _ = _
      rw [toNat_satSub32]
      exact Nat.sub_add_cancel hcpu
    · rw [hidle, held_running hs]
      show (satSub64 _ _).toNat + _ = _
      rw [toNat_satSub64]
      exact Nat.sub_add_cancel hmem
    · obtain ⟨h1, h2, h3⟩ := @PermitPool.release_le c.pool t.resources
      exact ⟨UInt32.le_trans h1 h.within.1, UInt32.le_trans h2 h.within.2.1, UInt64.le_trans h3 h.within.2.2⟩
    · simp [moved, hs, TaskState.holdsPermits, htarget]
  · have hpool : c.poolAfter t target = c.pool := by simp [poolAfter, hs, TaskState.holdsPermits]
    have hnone : t.leaseExpiresAt.isSome = false := by
      have := h.lease id t ht
      simpa [hs] using this
    rw [hpool]
    refine h.put ht ?_ ?_ ?_ h.within ?_
    · rw [hidle, held_idle hs]
    · rw [hidle, held_idle hs]
    · rw [hidle, held_idle hs]
    · simp [moved, hs, TaskState.holdsPermits, htarget, hnone]

theorem Accounts.amend {t' : TaskEntry} (h : Accounts cfg c) (ht : c.tasks[id]? = some t) (hs : t'.state = t.state)
    (hr : t'.resources = t.resources)
    (hl : t'.leaseExpiresAt = t.leaseExpiresAt ∨ t.state = .provisional ∧ t'.leaseExpiresAt.isSome) :
    Accounts cfg (c.put id t' c.pool) := by
  have hheld : ∀ w, held w t' = held w t := fun w => by unfold held; rw [hs, hr]
  refine h.put ht ?_ ?_ ?_ h.within ?_
  · rw [hheld]
  · rw [hheld]
  · rw [hheld]
  · rw [hs]
    rcases hl with hl | ⟨hp, hsome⟩
    · rw [hl]
      exact h.lease id t ht
    · exact iff_of_true hsome hp

theorem Accounts.start {head : String} {rest : List String} {bindings : ExtTreeMap String Binding}
    (hno : cfg.limits.NeverWraps) (h : Accounts cfg c) (hq : c.queue = head :: rest) (ht : c.tasks[head]? = some t)
    (hb : t.state = .blocked) (hpool : c.pool.tryAcquire cfg.limits t.resources = some pool) :
    Accounts cfg (Core.put { c with queue := rest } head (Exec.started cfg now bindings (moved t .provisional now)) pool) := by
  have hidle : c.pool.running = 0 → c.pool.cpuInUse = 0 ∧ c.pool.memoryInUse = 0 := by
    intro hzero
    have hnone : (c.inUse fun _ => 1) = 0 := by rw [← h.running, hzero]; rfl
    exact ⟨UInt32.toNat_inj.1 (h.cpu.trans (inUse_zero hnone)), UInt64.toNat_inj.1 (h.memory.trans (inUse_zero hnone))⟩
  obtain ⟨hrun, hcpu, hmem, hwithin⟩ := PermitPool.tryAcquire_spec hno hidle hpool
  have hrest : Accounts cfg { c with queue := rest } := by
    refine h.aside rfl rfl rfl ?_
    have hlen := h.queue
    rw [hq] at hlen
    exact Nat.le_of_succ_le hlen
  have hwait : ∀ w, held w t = 0 := fun w => held_idle (by rw [hb]; decide)
  have hruns : ∀ w, held w (Exec.started cfg now bindings (moved t .provisional now)) = w t.resources :=
    fun w => held_running rfl
  refine hrest.put ht ?_ ?_ ?_ hwithin ?_
  · rw [hwait, hruns]
    exact hrun
  · rw [hwait, hruns]
    exact hcpu
  · rw [hwait, hruns]
    exact hmem
  · exact iff_of_true rfl rfl

theorem keysOf_approve {key task : String} {generation : UInt64}
    (h : ∀ task, c.keysOf task ≤ maxApprovalBindingsPerTask)
    (hroom : (c.approvals[key]?.any fun b => b.task = task) = true ∨ c.keysOf task < maxApprovalBindingsPerTask)
    (k : String) :
    keysOf { c with approvals := c.approvals.insert key { task, generation } } k ≤ maxApprovalBindingsPerTask := by
  have hk := h k
  rw [keysOf_eq] at hk ⊢
  show Table.total (c.approvals.insert key _) _ ≤ _
  cases hold : c.approvals[key]? with
  | none =>
    rw [hold, keysOf_eq] at hroom
    rw [Table.total_insert_new hold]
    by_cases hkt : task = k
    · subst hkt
      rw [if_pos rfl]
      exact hroom.resolve_left (by simp)
    · rw [if_neg hkt]
      exact hk
  | some b =>
    rw [hold, keysOf_eq] at hroom
    have hput := Table.total_insert (v := (⟨task, generation⟩ : ApprovalBinding))
      (w := fun b => if b.task = k then 1 else 0) hold
    by_cases hkt : task = k
    · subst hkt
      by_cases hbt : b.task = task
      · rw [if_pos rfl, if_pos hbt] at hput
        omega
      · have hlt := hroom.resolve_left (by simpa using hbt)
        rw [if_pos rfl, if_neg hbt] at hput
        omega
    · rw [if_neg hkt] at hput
      omega

theorem keysOf_settle {payloadDigest : EventKind → String} {e : JournalEntry} {task : String} :
    (c.settle cfg payloadDigest e).keysOf task ≤ c.keysOf task := by
  rw [keysOf_eq, keysOf_eq]
  exact Table.total_filter_le

theorem Accounts.approve {key task : String} {generation : UInt64} (h : Accounts cfg c)
    (hroom : (c.approvals[key]?.any fun b => b.task = task) = true ∨ c.keysOf task < maxApprovalBindingsPerTask) :
    Accounts cfg { c with approvals := c.approvals.insert key { task, generation } } where
  running := h.running
  cpu := h.cpu
  memory := h.memory
  within := h.within
  lease := h.lease
  queue := h.queue
  keys := keysOf_approve h.keys hroom

theorem Accounts.settle {payloadDigest : EventKind → String} {e : JournalEntry} (h : Accounts cfg c) :
    Accounts cfg (c.settle cfg payloadDigest e) where
  running := h.running
  cpu := h.cpu
  memory := h.memory
  within := h.within
  lease := h.lease
  queue := h.queue
  keys task := keysOf_settle.trans (h.keys task)

theorem Edit.accounts (hno : cfg.limits.NeverWraps) (hedit : Edit cfg c c') (h : Accounts cfg c) : Accounts cfg c' := by
  cases hedit with
  | aside _ ht hp ha hq => exact h.aside ht hp ha (hq.trans h.queue)
  | register id resources now hnew hadm => exact h.register hnew
  | move id t target now ht htarget => exact h.move ht htarget
  | amend id t t' ht hs hr hl => exact h.amend ht hs hr hl
  | enqueue id hlt => exact h.aside rfl rfl rfl (by simpa using hlt)
  | start head rest t pool now bindings hq ht hb hpool => exact h.start hno hq ht hb hpool
  | approve key task generation hroom => exact h.approve hroom
  | settle payloadDigest e => exact h.settle

theorem Edits.accounts (hno : cfg.limits.NeverWraps) (hedits : Edits cfg c c') (h : Accounts cfg c) :
    Accounts cfg c' := by
  induction hedits with
  | refl => exact h
  | tail _ hedit ih => exact hedit.accounts hno ih

theorem accounts_empty (cfg : ProvisionalConfig) : Accounts cfg {} where
  running := rfl
  cpu := rfl
  memory := rfl
  within := ⟨UInt32.zero_le, UInt32.zero_le, UInt64.zero_le⟩
  lease id t h := by simp at h
  queue := Nat.zero_le _
  keys task := by
    rw [keysOf_eq]
    exact Nat.zero_le _

/-! ## The structural invariant -/

def Open (c : Core) : Prop :=
  ∀ (key : String) (b : ApprovalBinding), c.approvals[key]? = some b →
    ∃ t, c.tasks[b.task]? = some t ∧ t.state ≠ .committed ∧ t.state ≠ .commitUncertain

theorem settle_open {payloadDigest : EventKind → String} {e : JournalEntry} : (c.settle cfg payloadDigest e).Open := by
  intro key b hb
  have hkept : (c.approvals.filter fun _ b => c.tasks[b.task]?.any fun t => !bindingEnded t.state)[key]? = some b := hb
  rw [ExtTreeMap.getElem?_filter', Option.filter_eq_some_iff, Option.any_eq_true] at hkept
  obtain ⟨-, t, ht, hs⟩ := hkept
  refine ⟨t, ht, fun h => ?_, fun h => ?_⟩
  · simp [h, bindingEnded, TaskState.isCommitTerminal] at hs
  · simp [h, bindingEnded, TaskState.isCommitTerminal] at hs

/-- What holds of the coupled parts of a core: permits, leases, ready queue, graph and approvals. -/
structure Structural (cfg : ProvisionalConfig) (c : Core) : Prop where
  accounts : Accounts cfg c
  nodup : c.queue.Nodup
  flag : ∀ (id : String) (t : TaskEntry), c.tasks[id]? = some t → (t.queued = true ↔ id ∈ c.queue)
  waiting : ∀ id ∈ c.queue, ∃ t, c.tasks[id]? = some t ∧ t.state = .blocked
  mirror : ∀ p u, p ∈ c.graph.producersOf u ↔ u ∈ c.graph.consumersOf p
  acyclic : ∀ id, ¬ TransGen (fun p u => u ∈ c.graph.consumersOf p) id id
  approvals : c.Open

/-- **The structural invariant.** Under a policy whose limits no sum wraps past, every reachable core has permits in use
equal to the requests of its running tasks and within the limits, a lease exactly for each running task, a bounded
queue of blocked tasks that agrees with their flags, a mirrored acyclic graph, and at most 64 keys for each task, none
of them for a task whose commit has ended. -/
theorem structure_holds (cfg : ProvisionalConfig) (hno : cfg.limits.NeverWraps) (dg : EventKind → String)
    (es : List JournalEntry) (c : Core) (h : replay cfg dg es {} = .ok c) : Structural cfg c := by
  have hinv : c.Good ∧ Accounts cfg c ∧ c.Open := by
    refine replay_inv (P := fun c => c.Good ∧ Accounts cfg c ∧ c.Open) (fun e _ c c' fx hc happ => ?_)
      ⟨good_empty, accounts_empty cfg, fun key b hb => by simp at hb⟩ h
    have hgood : c'.Good := (apply_spec hc.1 happ).1
    refine ⟨hgood, (apply_edits hc.1 happ).accounts hno hc.2.1, ?_⟩
    obtain ⟨-, -, -, x, x1, -, -, rfl, -⟩ := apply_ok happ
    exact settle_open
  obtain ⟨hgood, hacc, hopen⟩ := hinv
  refine ⟨hacc, hgood.nodup, fun id t ht => ⟨fun hq => (hgood.queued id t ht hq).1, fun hm => ?_⟩, fun id hm => ?_,
    fun p u => hgood.graph.mirror p u, fun id => hgood.graph.acyclic id, hopen⟩
  · obtain ⟨t', ht', hq⟩ := hgood.member id hm
    obtain rfl := Option.some.inj (ht.symm.trans ht')
    exact hq
  · obtain ⟨t, ht, hq⟩ := hgood.member id hm
    exact ⟨t, ht, (hgood.queued id t ht hq).2⟩

theorem structure_holds_earlyStart :
    ∃ c, replay { enabled := true } (fun _ => "") earlyStart {} = .ok c ∧ c.pool.running = 2 ∧
      Structural { enabled := true } c := by
  have heval : (replay { enabled := true } (fun _ => "") earlyStart {}).toOption.map (·.pool.running) = some 2 := by
    decide +kernel
  obtain ⟨c, hc, hrun⟩ := Option.map_eq_some_iff.1 heval
  exact ⟨c, toOption_some.1 hc, hrun, structure_holds _ (by left; decide) _ _ c (toOption_some.1 hc)⟩

/-- Two tasks that each ask for half of what the type of a CPU count holds. -/
def twoHalves : List JournalEntry :=
  [⟨1, "e1", 0, .registerTask "a" ⟨0x80000000, 1⟩ []⟩, ⟨2, "e2", 0, .registerTask "b" ⟨0x80000000, 1⟩ []⟩]

/-- **Permits wrap at the top.** With the largest limit a policy can name, the saturated sum passes the check and the
sum itself wraps: both tasks run, and no CPU slot is in use. -/
theorem permits_wrap :
    ∃ (cfg : ProvisionalConfig) (c : Core), replay cfg (fun _ => "") twoHalves {} = .ok c ∧
      c.pool.cpuInUse = 0 ∧ (c.inUse fun r => r.cpuSlots.toNat) = 2 ^ 32 ∧ ¬ Structural cfg c := by
  have heval : (replay { limits := { cpuSlots := 0xFFFFFFFF } } (fun _ => "") twoHalves {}).toOption.map (fun c =>
      (c.pool.cpuInUse, c.inUse fun r => r.cpuSlots.toNat)) = some (0, 2 ^ 32) := by decide +kernel
  obtain ⟨c, hc, hval⟩ := Option.map_eq_some_iff.1 heval
  obtain ⟨hpool, huse⟩ := Prod.mk.inj hval
  refine ⟨_, c, toOption_some.1 hc, hpool, huse, fun hs => ?_⟩
  have hcpu := hs.accounts.cpu
  rw [hpool, huse] at hcpu
  exact absurd hcpu (by decide)

end Core

end SovereignCore.Harness
