import SovereignCore.Harness.Journal
import SovereignCore.Harness.Permits

/-!
# The pump is work-conserving

The two loops of the pump, as relations without a bound, always end; and where they end no task waits that could run.

* `Drains`, `Pumps` : the loops of the source; `pump_pumps` : the pump is a run of them;
* `Quiet` : what is queued is eligible, what is eligible is queued or the queue is full, and the head does not fit;
* `Covered` : the pool holds no more than the running tasks were given, and every task fits an empty pool;
* `pump_conserves_work` : every accepted event ends in a quiet core, and if nothing runs nothing is eligible.
-/

namespace SovereignCore.Harness

open Std Result

namespace Exec

/-! ## The loops -/

/-- The inner loop: the head of the queue is dispatched while its permits are free. -/
inductive Drains (cfg : ProvisionalConfig) (now : UInt64) : Exec → Bool → Exec → Bool → Prop
  | empty (x : Exec) (progressed : Bool) (hq : x.core.queue = []) : Drains cfg now x progressed x progressed
  | stuck (x : Exec) (progressed : Bool) (head : String) (rest : List String) (t : TaskEntry)
      (hq : x.core.queue = head :: rest) (ht : x.core.tasks[head]? = some t)
      (hfull : x.core.pool.tryAcquire cfg.limits t.resources = none) : Drains cfg now x progressed x progressed
  | next (x x₁ x' : Exec) (progressed progressed' : Bool) (head : String) (rest : List String) (t : TaskEntry)
      (pool : PermitPool) (hq : x.core.queue = head :: rest) (ht : x.core.tasks[head]? = some t)
      (hfits : x.core.pool.tryAcquire cfg.limits t.resources = some pool)
      (hd : dispatch cfg now { x with core := { x.core with queue := rest, pool } } head = .ok x₁)
      (hrest : Drains cfg now x₁ true x' progressed') : Drains cfg now x progressed x' progressed'

/-- The outer loop: a pass that dispatched nothing is the last one. -/
inductive Pumps (cfg : ProvisionalConfig) (now : UInt64) : Exec → Exec → Prop
  | last (x x' : Exec) (c : Core)
      (hfill : fillQueue cfg (readyTasks cfg (dropStale cfg x.core)) (dropStale cfg x.core) = .ok c)
      (hdrain : Drains cfg now { x with core := c } false x' false) : Pumps cfg now x x'
  | more (x x₁ x' : Exec) (c : Core)
      (hfill : fillQueue cfg (readyTasks cfg (dropStale cfg x.core)) (dropStale cfg x.core) = .ok c)
      (hdrain : Drains cfg now { x with core := c } false x₁ true) (hrest : Pumps cfg now x₁ x') : Pumps cfg now x x'

variable {cfg : ProvisionalConfig} {c c' : Core} {x x' : Exec} {id : String} {now : UInt64} {fuel : Nat}
  {progressed progressed' : Bool}

theorem drain_drains : ∀ {fuel : Nat} {x : Exec} {progressed : Bool}, x.core.queue.length ≤ fuel →
    drain cfg now fuel x progressed = .ok (x', progressed') → Drains cfg now x progressed x' progressed'
  | 0, x, progressed, hlen, h => by
    obtain ⟨rfl, rfl⟩ := Prod.mk.inj (Except.ok.inj h)
    exact .empty _ _ (List.eq_nil_of_length_eq_zero (Nat.le_zero.1 hlen))
  | fuel + 1, x, progressed, hlen, h => by
    unfold drain at h
    cases hq : x.core.queue with
    | nil =>
      rw [hq] at h
      obtain ⟨rfl, rfl⟩ := Prod.mk.inj (Except.ok.inj h)
      exact .empty _ _ hq
    | cons head rest =>
      rw [hq] at h hlen
      dsimp only at h
      rw [bind_ok] at h
      obtain ⟨t, ht, h⟩ := h
      rw [Core.task_ok] at ht
      cases hacq : x.core.pool.tryAcquire cfg.limits t.resources with
      | none =>
        rw [hacq] at h
        obtain ⟨rfl, rfl⟩ := Prod.mk.inj (Except.ok.inj h)
        exact .stuck _ _ head rest t hq ht hacq
      | some pool =>
        rw [hacq] at h
        dsimp only at h
        rw [bind_ok] at h
        obtain ⟨x₁, hd, h⟩ := h
        have hrest : x₁.core.queue = rest := by
          obtain ⟨t', -, -, rfl⟩ := dispatch_ok.1 hd
          rfl
        refine .next x x₁ x' progressed progressed' head rest t pool hq ht hacq hd (drain_drains ?_ h)
        rw [hrest]
        exact Nat.le_of_succ_le_succ hlen

end Exec

/-! ## Where the pump stops -/

/-- No task waits that could run: what is queued is eligible, what is eligible and not queued found the queue full, and
the head of the queue does not fit. -/
structure Core.Quiet (cfg : ProvisionalConfig) (c : Core) : Prop where
  eligible : ∀ id ∈ c.queue, c.eligible cfg id = true
  full : ∀ id, c.eligible cfg id = true → id ∉ c.queue → cfg.queueCapacity ≤ c.queue.length
  stuck : c.queue = [] ∨ ∃ head rest t, c.queue = head :: rest ∧ c.tasks[head]? = some t ∧
    c.pool.fits cfg.limits t.resources = false

namespace Exec

variable {cfg : ProvisionalConfig} {c c' : Core} {x x' : Exec} {id : String} {now : UInt64} {progressed : Bool}

theorem fillQueue_full : ∀ {l : List String} {c : Core}, fillQueue cfg l c = .ok c' →
    (∀ id ∈ c.queue, id ∈ c'.queue) ∧ ((∀ id ∈ l, id ∈ c'.queue) ∨ cfg.queueCapacity ≤ c'.queue.length)
  | [], c, h => by
    cases h
    exact ⟨fun _ hk => hk, .inl nofun⟩
  | id :: l, c, h => by
    unfold fillQueue at h
    split_ifs at h with hcap
    · cases h
      exact ⟨fun _ hk => hk, .inr hcap⟩
    · rw [bind_ok] at h
      obtain ⟨c₁, hmut, h⟩ := h
      obtain ⟨t, -, rfl⟩ := Core.taskMut_ok.1 hmut
      obtain ⟨hkeep, hl⟩ := fillQueue_full h
      refine ⟨fun k hk => hkeep k (List.mem_append_left _ hk), hl.imp_left fun hl k hk => ?_⟩
      rcases List.mem_cons.1 hk with rfl | hk
      · exact hkeep k (List.mem_append_right _ List.mem_cons_self)
      · exact hl k hk

theorem mem_readyTasks (ht : c.eligible cfg id = true) (hg : c.Good) (hq : id ∉ c.queue) : id ∈ readyTasks cfg c := by
  obtain ⟨⟨t, htask, -⟩, -⟩ := (Core.eligible_iff hg.graph).1 ht
  unfold readyTasks
  refine List.mem_map.2 ⟨(id, t), List.mem_filter.2 ⟨?_, ?_⟩, rfl⟩
  · exact ExtTreeMap.mem_toList_iff_getElem?_eq_some.2 htask
  · have hno : t.queued = false := by
      by_contra h
      exact hq (hg.queued id t htask (by simpa using h)).1
    rw [hno, ht]
    rfl

theorem Drains.stays (h : Drains cfg now x progressed x' progressed') (hp : progressed = true) :
    progressed' = true := by
  induction h with
  | empty => exact hp
  | stuck => exact hp
  | next => rename_i ih; exact ih rfl

/-- A pass that dispatched nothing leaves the core as it was filled. -/
theorem Drains.last (h : Drains cfg now x progressed x' false) : x' = x ∧ (x.core.queue = [] ∨
    ∃ head rest t, x.core.queue = head :: rest ∧ x.core.tasks[head]? = some t ∧
      x.core.pool.fits cfg.limits t.resources = false) := by
  cases h with
  | empty _ _ hq => exact ⟨rfl, .inl hq⟩
  | stuck _ _ head rest t hq ht hfull =>
    refine ⟨rfl, .inr ⟨head, rest, t, hq, ht, ?_⟩⟩
    unfold PermitPool.tryAcquire at hfull
    split_ifs at hfull with hfits
    exact Bool.eq_false_of_not_eq_true hfits
  | next _ x₁ _ _ _ head rest t pool hq ht hfits hd hrest => exact absurd (hrest.stays rfl) (by decide)

theorem quiet_of_filled (hg : c.Good) (hfill : fillQueue cfg (readyTasks cfg (dropStale cfg c)) (dropStale cfg c) = .ok c')
    (hstuck : c'.queue = [] ∨ ∃ head rest t, c'.queue = head :: rest ∧ c'.tasks[head]? = some t ∧
      c'.pool.fits cfg.limits t.resources = false) : c'.Quiet cfg := by
  obtain ⟨hreq₁, hel₁⟩ := dropStale_spec cfg hg
  obtain ⟨hnd, hready⟩ := readyTasks_spec cfg hreq₁.good
  obtain ⟨c₂, hfill₂, hreq₂, hel₂⟩ := fillQueue_spec hreq₁.good hnd hready fun id hid => by
    rw [hreq₁.net]
    exact hel₁ id hid
  obtain rfl : c' = c₂ := Except.ok.inj (hfill.symm.trans hfill₂)
  obtain ⟨hkeep, hl⟩ := fillQueue_full hfill
  refine ⟨fun id hid => ?_, fun id hid hno => ?_, hstuck⟩
  · rw [eligible_net hreq₂.good.graph, hreq₂.net]
    exact hel₂ id hid
  · rw [eligible_net hreq₂.good.graph, hreq₂.net, ← eligible_net hreq₁.good.graph] at hid
    have hmem := mem_readyTasks hid hreq₁.good fun hq => hno (hkeep id hq)
    exact hl.resolve_left fun hall => hno (hall id hmem)

theorem pumpLoop_pumps {fuel : Nat} (hg : x.core.Good) (hfuel : waiting x.core < fuel)
    (h : pumpLoop cfg now fuel x = .ok x') : Pumps cfg now x x' ∧ x'.core.Quiet cfg := by
  induction fuel generalizing x with
  | zero => omega
  | succ fuel ih =>
    obtain ⟨x₁, ds, h₁, hp⟩ := pumpRound_spec cfg now hg
    have hw := hp.waiting_le hg
    unfold pumpLoop at h
    rw [h₁] at h
    change (if (!ds.isEmpty) = true then pumpLoop cfg now fuel x₁ else Except.ok x₁) = .ok x' at h
    unfold pumpRound at h₁
    rw [bind_ok] at h₁
    obtain ⟨c, hfill, hdrain⟩ := h₁
    have hd : Drains cfg now { x with core := c } false x₁ (!ds.isEmpty) := drain_drains (Nat.le_refl _) hdrain
    by_cases hds : ds = []
    · subst hds
      obtain rfl : x₁ = x' := Except.ok.inj h
      obtain ⟨rfl, hstuck⟩ := hd.last
      exact ⟨.last x _ c hfill hd, quiet_of_filled hg hfill hstuck⟩
    · have hprog : (!ds.isEmpty) = true := by simpa using hds
      rw [hprog] at h hd
      have hlen : 0 < ds.length := List.length_pos_iff.2 hds
      obtain ⟨hpumps, hquiet⟩ := ih hp.good (by omega) h
      exact ⟨.more x x₁ x' c hfill hd hpumps, hquiet⟩

/-- **The pump terminates**: it is a run of the two loops, and stops at a quiet core. -/
theorem pump_pumps (cfg : ProvisionalConfig) (now : UInt64) (hg : x.core.Good) :
    ∃ x', pump cfg now x = .ok x' ∧ Pumps cfg now x x' ∧ x'.core.Quiet cfg ∧ x'.core.Good := by
  obtain ⟨x', ds, hx', hp⟩ := pump_spec cfg now hg
  obtain ⟨hpumps, hquiet⟩ := pumpLoop_pumps hg (Nat.lt_succ_of_le (waiting_le_size hg)) hx'
  exact ⟨x', hx', hpumps, hquiet, hp.good⟩

end Exec

/-! ## The pool of an idle core -/

namespace Core

/-- The pool holds no more than the running tasks were given, and every task fits an empty pool. A sum of permits that
wraps only makes the pool smaller. -/
structure Covered (cfg : ProvisionalConfig) (c : Core) : Prop where
  running : c.pool.running.toNat ≤ c.inUse fun _ => 1
  cpu : c.pool.cpuInUse.toNat ≤ c.inUse fun r => r.cpuSlots.toNat
  memory : c.pool.memoryInUse.toNat ≤ c.inUse fun r => r.memoryBytes.toNat
  admitted : ∀ (id : String) (t : TaskEntry), c.tasks[id]? = some t → cfg.limits.admits t.resources = true

variable {cfg : ProvisionalConfig} {c c' : Core} {id : String} {t : TaskEntry} {now : UInt64} {pool : PermitPool}

theorem Covered.aside (h : Covered cfg c) (ht : c'.tasks = c.tasks) (hp : c'.pool = c.pool) : Covered cfg c' := by
  have huse : ∀ w, c'.inUse w = c.inUse w := fun w => by unfold inUse; rw [ht]
  refine ⟨?_, ?_, ?_, ?_⟩
  · rw [hp, huse]
    exact h.running
  · rw [hp, huse]
    exact h.cpu
  · rw [hp, huse]
    exact h.memory
  · rw [ht]
    exact h.admitted

theorem Covered.put {t' : TaskEntry} (h : Covered cfg c) (ht : c.tasks[id]? = some t)
    (hrun : ∀ n, c.pool.running.toNat ≤ n + held (fun _ => 1) t → pool.running.toNat ≤ n + held (fun _ => 1) t')
    (hcpu : ∀ n, c.pool.cpuInUse.toNat ≤ n + held (fun r => r.cpuSlots.toNat) t →
      pool.cpuInUse.toNat ≤ n + held (fun r => r.cpuSlots.toNat) t')
    (hmem : ∀ n, c.pool.memoryInUse.toNat ≤ n + held (fun r => r.memoryBytes.toNat) t →
      pool.memoryInUse.toNat ≤ n + held (fun r => r.memoryBytes.toNat) t')
    (hr : t'.resources = t.resources) : Covered cfg (c.put id t' pool) := by
  -- What the other tasks hold stays.
  have hother : ∀ w, ∃ n, c.inUse w = n + held w t ∧ (c.put id t' pool).inUse w = n + held w t' := by
    intro w
    have hput : (c.put id t' pool).inUse w + held w t = c.inUse w + held w t' := inUse_put ht
    have hle : held w t ≤ c.inUse w := held_le ht
    exact ⟨c.inUse w - held w t, by omega, by omega⟩
  refine ⟨?_, ?_, ?_, fun k tk htk => ?_⟩
  · obtain ⟨n, hn, hn'⟩ := hother fun _ => 1
    rw [hn']
    exact hrun n (hn ▸ h.running)
  · obtain ⟨n, hn, hn'⟩ := hother fun r => r.cpuSlots.toNat
    rw [hn']
    exact hcpu n (hn ▸ h.cpu)
  · obtain ⟨n, hn, hn'⟩ := hother fun r => r.memoryBytes.toNat
    rw [hn']
    exact hmem n (hn ▸ h.memory)
  · rw [put_tasks] at htk
    split_ifs at htk with he
    · obtain rfl := Option.some.inj htk
      rw [hr]
      exact h.admitted id t ht
    · exact h.admitted k tk htk

theorem Covered.register {resources : ResourceRequest} (h : Covered cfg c) (hnew : c.tasks[id]? = none)
    (hadm : cfg.limits.admits resources = true) :
    Covered cfg { c with tasks := c.tasks.insert id (TaskEntry.new resources now) } := by
  have huse : ∀ w, inUse { c with tasks := c.tasks.insert id (TaskEntry.new resources now) } w = c.inUse w := by
    intro w
    show Table.total _ _ = _
    rw [Table.total_insert_new hnew]
    rfl
  refine ⟨h.running.trans_eq (huse _).symm, h.cpu.trans_eq (huse _).symm, h.memory.trans_eq (huse _).symm, ?_⟩
  intro k tk htk
  rw [Table.get_insert] at htk
  split_ifs at htk
  · obtain rfl := Option.some.inj htk
    exact hadm
  · exact h.admitted k tk htk

theorem Covered.move {target : TaskState} (h : Covered cfg c) (ht : c.tasks[id]? = some t)
    (htarget : target ≠ .provisional) : Covered cfg (c.put id (moved t target now) (c.poolAfter t target)) := by
  have hidle : ∀ w, held w (moved t target now) = 0 := fun w => held_idle htarget
  by_cases hs : t.state = .provisional
  · have hpool : c.poolAfter t target = c.pool.release t.resources := by
      simp [poolAfter, hs, TaskState.holdsPermits, htarget]
    rw [hpool]
    refine h.put ht (fun n hn => ?_) (fun n hn => ?_) (fun n hn => ?_) rfl
    · rw [held_running hs] at hn
      rw [hidle]
      show (satSub32 _ 1).toNat ≤ _
      rw [toNat_satSub32]
      exact Nat.sub_le_of_le_add hn
    · rw [held_running hs] at hn
      rw [hidle]
      show (satSub32 _ _).toNat ≤ _
      rw [toNat_satSub32]
      exact Nat.sub_le_of_le_add hn
    · rw [held_running hs] at hn
      rw [hidle]
      show (satSub64 _ _).toNat ≤ _
      rw [toNat_satSub64]
      exact Nat.sub_le_of_le_add hn
  · have hpool : c.poolAfter t target = c.pool := by simp [poolAfter, hs, TaskState.holdsPermits]
    rw [hpool]
    refine h.put ht (fun n hn => ?_) (fun n hn => ?_) (fun n hn => ?_) rfl
    · rwa [hidle, ← held_idle hs]
    · rwa [hidle, ← held_idle hs]
    · rwa [hidle, ← held_idle hs]

theorem Covered.start {head : String} {rest : List String} {bindings : ExtTreeMap String Binding}
    (h : Covered cfg c) (ht : c.tasks[head]? = some t) (hb : t.state = .blocked)
    (hpool : c.pool.tryAcquire cfg.limits t.resources = some pool) :
    Covered cfg (Core.put { c with queue := rest } head (Exec.started cfg now bindings (moved t .provisional now)) pool) := by
  unfold PermitPool.tryAcquire at hpool
  split_ifs at hpool with hfits
  obtain rfl := Option.some.inj hpool
  have hwait : ∀ w, held w t = 0 := fun w => held_idle (by rw [hb]; decide)
  have hruns : ∀ w, held w (Exec.started cfg now bindings (moved t .provisional now)) = w t.resources :=
    fun w => held_running rfl
  have hrest : Covered cfg { c with queue := rest } := h.aside rfl rfl
  refine hrest.put ht (fun n hn => ?_) (fun n hn => ?_) (fun n hn => ?_) rfl
  · rw [hwait] at hn
    rw [hruns]
    have hle : (c.pool.running + 1).toNat ≤ c.pool.running.toNat + 1 := by
      rw [UInt32.toNat_add]
      exact Nat.mod_le _ _
    exact hle.trans (Nat.add_le_add_right hn 1)
  · rw [hwait] at hn
    rw [hruns]
    have hle : (c.pool.cpuInUse + t.resources.cpuSlots).toNat ≤ c.pool.cpuInUse.toNat + t.resources.cpuSlots.toNat := by
      rw [UInt32.toNat_add]
      exact Nat.mod_le _ _
    exact hle.trans (Nat.add_le_add_right hn _)
  · rw [hwait] at hn
    rw [hruns]
    have hle : (c.pool.memoryInUse + t.resources.memoryBytes).toNat ≤
        c.pool.memoryInUse.toNat + t.resources.memoryBytes.toNat := by
      rw [UInt64.toNat_add]
      exact Nat.mod_le _ _
    exact hle.trans (Nat.add_le_add_right hn _)

theorem Edit.covered (hedit : Edit cfg c c') (h : Covered cfg c) : Covered cfg c' := by
  cases hedit with
  | aside _ ht hp ha hq => exact h.aside ht hp
  | register id resources now hnew hadm => exact h.register hnew hadm
  | move id t target now ht htarget => exact h.move ht htarget
  | amend id t t' ht hs hr hl =>
    have hheld : ∀ w, held w t' = held w t := fun w => by unfold held; rw [hs, hr]
    refine h.put ht (fun n hn => ?_) (fun n hn => ?_) (fun n hn => ?_) hr
    · rwa [hheld]
    · rwa [hheld]
    · rwa [hheld]
  | enqueue id hlt => exact h.aside rfl rfl
  | start head rest t pool now bindings hq ht hb hpool => exact h.start ht hb hpool
  | approve key task generation hroom => exact h.aside rfl rfl
  | settle payloadDigest e => exact h.aside rfl rfl

theorem Edits.covered (hedits : Edits cfg c c') (h : Covered cfg c) : Covered cfg c' := by
  induction hedits with
  | refl => exact h
  | tail _ hedit ih => exact hedit.covered ih

theorem covered_empty (cfg : ProvisionalConfig) : Covered cfg {} :=
  ⟨Nat.zero_le _, Nat.zero_le _, Nat.zero_le _, fun id t h => by simp at h⟩

theorem Covered.fits (h : Covered cfg c) (hidle : ∀ (id : String) (t : TaskEntry), c.tasks[id]? = some t → t.state ≠ .provisional)
    (ht : c.tasks[id]? = some t) : c.pool.fits cfg.limits t.resources = true := by
  have hnone : ∀ w, c.inUse w = 0 := by
    intro w
    unfold inUse Table.total
    refine List.sum_eq_zero fun n hn => ?_
    obtain ⟨t, ht, rfl⟩ := List.mem_map.1 hn
    obtain ⟨id, hid⟩ := Table.mem_values.1 ht
    exact held_idle (hidle id t hid)
  have hrun : c.pool.running.toNat = 0 := Nat.le_zero.1 (hnone _ ▸ h.running)
  have hcpu : c.pool.cpuInUse.toNat = 0 := Nat.le_zero.1 (hnone _ ▸ h.cpu)
  have hmem : c.pool.memoryInUse.toNat = 0 := Nat.le_zero.1 (hnone _ ▸ h.memory)
  have hadm := h.admitted id t ht
  unfold ResourceLimits.admits at hadm
  unfold PermitPool.fits
  simp only [Bool.and_eq_true, decide_eq_true_eq] at hadm ⊢
  obtain ⟨⟨hone, hc⟩, hm⟩ := hadm
  rw [UInt32.le_iff_toNat_le] at hone hc
  rw [UInt64.le_iff_toNat_le] at hm
  rw [UInt32.lt_iff_toNat_lt, UInt32.le_iff_toNat_le, UInt64.le_iff_toNat_le, toNat_satAdd32, toNat_satAdd64, hrun, hcpu,
    hmem]
  have h1 : (1 : UInt32).toNat = 1 := rfl
  omega

/-! ## Work conservation -/

/-- **The pump terminates and is work-conserving.** From every reachable core and every event that its handler takes, the
two loops of the pump end; then every queued task is eligible, an eligible task is queued unless the queue is full, and
the queue is empty or its head does not fit; and under a valid policy, if no task runs then none is eligible. -/
theorem pump_conserves_work (cfg : ProvisionalConfig) (dg : EventKind → String) (es : List JournalEntry) (c : Core)
    (h : replay cfg dg es {} = .ok c) (e : JournalEntry) (x : Exec)
    (hx : applyKind cfg { c with lastAt := e.now } e.now e.kind = .ok x) :
    ∃ x', Exec.Pumps cfg e.now x x' ∧ Exec.pump cfg e.now x = .ok x' ∧ (x'.core.settle cfg dg e).Quiet cfg ∧
      (cfg.valid = true →
        (∀ (id : String) (t : TaskEntry), (x'.core.settle cfg dg e).tasks[id]? = some t → t.state ≠ .provisional) →
        ∀ id, (x'.core.settle cfg dg e).eligible cfg id = false) := by
  have hinv : c.Good ∧ Covered cfg c := by
    refine replay_inv (P := fun c => c.Good ∧ Covered cfg c) (fun e _ c c' fx hc happ => ?_)
      ⟨good_empty, covered_empty cfg⟩ h
    exact ⟨(apply_spec hc.1 happ).1, (apply_edits hc.1 happ).covered hc.2⟩
  have hgood : Core.Good { c with lastAt := e.now } := hinv.1.congr rfl rfl rfl
  have htime : Covered cfg { c with lastAt := e.now } := hinv.2.aside rfl rfl
  have hcov : Covered cfg x.core := (applyKind_edits hgood hx).covered htime
  obtain ⟨acts, hh, -, -⟩ := applyKind_spec hgood hx
  obtain ⟨x', hpump, hpumps, hquiet, hg'⟩ := Exec.pump_pumps cfg e.now hh.good
  have hcov' : Covered cfg x'.core := (pumpLoop_edits hpump).covered hcov
  refine ⟨x', hpumps, hpump, ⟨hquiet.eligible, hquiet.full, hquiet.stuck⟩, fun hvalid hidle id => ?_⟩
  -- The queue is empty, since its head would fit, and has room, since its capacity is not zero.
  have hempty : x'.core.queue = [] := by
    rcases hquiet.stuck with hempty | ⟨head, rest, t, -, ht, hno⟩
    · exact hempty
    · rw [hcov'.fits hidle ht] at hno
      cases hno
  have hcap : cfg.queueCapacity ≠ 0 := by
    unfold ProvisionalConfig.valid at hvalid
    simp only [Bool.and_eq_true, decide_eq_true_eq] at hvalid
    exact hvalid.1.1.1
  by_contra hel
  have hel : x'.core.eligible cfg id = true := Bool.eq_true_of_not_eq_false hel
  have hfull := hquiet.full id hel (by rw [hempty]; exact List.not_mem_nil)
  rw [hempty, List.length_nil, Nat.le_zero] at hfull
  exact hcap hfull

theorem pump_conserves_work_earlyStart :
    ∃ c x x', replay { enabled := true } (fun _ => "") (earlyStart.take 2) {} = .ok c ∧
      applyKind { enabled := true } { c with lastAt := 2 } 2 (.registerTask "t" ⟨1, 1⟩ ["p"]) = .ok x ∧
      Exec.Pumps { enabled := true } 2 x x' ∧ Core.Quiet { enabled := true } (x'.core.settle { enabled := true } (fun _ => "")
        ⟨3, "e3", 2, .registerTask "t" ⟨1, 1⟩ ["p"]⟩) := by
  have heval : (replay { enabled := true } (fun _ => "") (earlyStart.take 2) {}).toOption.any (fun c =>
      (applyKind { enabled := true } { c with lastAt := 2 } 2 (.registerTask "t" ⟨1, 1⟩ ["p"])).isOk) = true := by
    decide +kernel
  obtain ⟨c, hc, hok⟩ := Option.any_eq_true _ _ |>.1 heval
  cases hx : applyKind { enabled := true } { c with lastAt := 2 } 2 (.registerTask "t" ⟨1, 1⟩ ["p"]) with
  | error e =>
    rw [hx] at hok
    cases hok
  | ok x =>
    obtain ⟨x', hpumps, -, hquiet, -⟩ := pump_conserves_work _ _ _ c (toOption_some.1 hc)
      ⟨3, "e3", 2, .registerTask "t" ⟨1, 1⟩ ["p"]⟩ x hx
    exact ⟨c, x, x', toOption_some.1 hc, hx, hpumps, hquiet⟩

end Core

end SovereignCore.Harness
