import SovereignCore.Harness.Steps

/-!
# The pump, and whole events

The pump drops stale entries from the ready queue, fills it and dispatches from its head. On a well-formed core it
never refuses, and every pass but the last takes a task out of `blocked`, so its bound on the passes is no limit.

* `dropStale_spec`, `fillQueue_spec`, `drain_spec` : the three parts of a pass;
* `pump_spec` : the pump as protocol actions, one dispatch for each task it reports;
* `pumpLoop_fuel` : more passes than the pump allows itself change nothing;
* `apply_spec` : an accepted event as protocol actions.
-/

namespace SovereignCore.Harness

open Std Result Relation

def Net.Eligible (enabled : Bool) (n : Net) (id : String) : Prop :=
  (∃ s, n.status id = some s ∧ s.state = .blocked) ∧
    ∀ p, n.Edge p id → ∃ ps, n.status p = some ps ∧ ps.ready enabled = true

namespace Exec

variable {cfg : ProvisionalConfig} {c c' : Core} {x x' : Exec} {id : String} {now : UInt64} {fuel : Nat}

theorem eligible_net (hwf : c.graph.WF) : c.eligible cfg id = true ↔ Net.Eligible cfg.enabled c.net id := by
  rw [Core.eligible_iff hwf]
  unfold Net.Eligible
  refine and_congr ?_ (forall_congr' fun p => imp_congr Iff.rfl ?_)
  · constructor
    · rintro ⟨t, ht, hs⟩
      exact ⟨t.status, Core.net_status_of ht, hs⟩
    · rintro ⟨s, hs, hb⟩
      obtain ⟨t, ht, rfl⟩ := Core.net_status.1 hs
      exact ⟨t, ht, hb⟩
  · constructor
    · rintro ⟨t, ht, hs⟩
      exact ⟨t.status, Core.net_status_of ht, hs⟩
    · rintro ⟨s, hs, hb⟩
      obtain ⟨t, ht, rfl⟩ := Core.net_status.1 hs
      exact ⟨t, ht, hb⟩

/-! ## The queue -/

/-- Only the ready queue changed. -/
structure Requeued (c c' : Core) : Prop where
  good : c'.Good
  net : c'.net = c.net
  graph : c'.graph = c.graph
  rest : c'.seen = c.seen ∧ c'.approvals = c.approvals ∧ c'.seq = c.seq ∧ c'.lastAt = c.lastAt

theorem Requeued.refl (hg : c.Good) : Requeued c c := ⟨hg, rfl, rfl, rfl, rfl, rfl, rfl⟩

theorem Requeued.trans {c₁ c₂ : Core} (h : Requeued c c₁) (h' : Requeued c₁ c₂) : Requeued c c₂ := by
  obtain ⟨h1, h2, h3, h4⟩ := h.rest
  obtain ⟨k1, k2, k3, k4⟩ := h'.rest
  exact ⟨h'.good, h'.net.trans h.net, h'.graph.trans h.graph, k1.trans h1, k2.trans h2, k3.trans h3, k4.trans h4⟩

theorem dequeue_requeued (hg : c.Good) : Requeued c (c.dequeue id) := by
  refine ⟨hg.dequeue, Core.net_dequeue, Core.dequeue_graph, ?_⟩
  unfold Core.dequeue
  split
  · split
    · exact ⟨rfl, rfl, rfl, rfl⟩
    · exact ⟨rfl, rfl, rfl, rfl⟩
  · exact ⟨rfl, rfl, rfl, rfl⟩

theorem foldl_dequeue (l : List String) (hg : c.Good) :
    Requeued c (l.foldl Core.dequeue c) ∧ (l.foldl Core.dequeue c).queue = c.queue.filter (· ∉ l) := by
  induction l generalizing c with
  | nil => exact ⟨.refl hg, by simp⟩
  | cons id l ih =>
    obtain ⟨h1, h2⟩ := ih (c := c.dequeue id) hg.dequeue
    rw [List.foldl_cons]
    refine ⟨(dequeue_requeued hg).trans h1, ?_⟩
    rw [h2, hg.dequeue_queue, List.filter_filter]
    refine List.filter_congr fun k _ => ?_
    simp only [List.mem_cons, not_or, Bool.and_comm, ← Bool.decide_and]

theorem dropStale_spec (cfg : ProvisionalConfig) (hg : c.Good) :
    Requeued c (dropStale cfg c) ∧ ∀ id ∈ (dropStale cfg c).queue, Net.Eligible cfg.enabled c.net id := by
  unfold dropStale
  obtain ⟨h1, h2⟩ := foldl_dequeue (c.queue.filter fun id => !c.eligible cfg id) hg
  refine ⟨h1, fun id hid => (eligible_net hg.graph).1 ?_⟩
  rw [h2] at hid
  simp only [List.mem_filter, decide_eq_true_eq, not_and, Bool.not_eq_true', Bool.not_eq_false] at hid
  exact hid.2 hid.1

theorem enqueue_good {t : TaskEntry} (hg : c.Good) (ht : c.tasks[id]? = some t) (hq : t.queued = false)
    (hs : t.state = .blocked) :
    (Core.put { c with queue := c.queue ++ [id] } id { t with queued := true } c.pool).Good := by
  have hno : id ∉ c.queue := by
    intro hm
    obtain ⟨t', ht', hq'⟩ := hg.member id hm
    rw [ht] at ht'
    obtain rfl := Option.some.inj ht'
    simp [hq] at hq'
  refine ⟨hg.graph, fun k => ?_, ?_, fun k hk => ?_, fun k tk htk hqk => ?_⟩
  · rw [Core.put_tasks]
    show c.graph.contains k = true ↔ _
    rw [hg.nodes k]
    by_cases he : id = k
    · subst he
      simp [ht]
    · simp [he]
  · show (c.queue ++ [id]).Nodup
    rw [List.nodup_append]
    exact ⟨hg.nodup, by simp, fun a ha b hb => by
      rw [List.mem_singleton] at hb
      subst hb
      exact fun he => hno (he ▸ ha)⟩
  · rw [Core.put_tasks]
    by_cases he : id = k
    · exact ⟨{ t with queued := true }, by simp [he], rfl⟩
    · have hk' : k ∈ c.queue ++ [id] := hk
      rw [List.mem_append, List.mem_singleton] at hk'
      obtain ⟨tk, htk, hqk⟩ := hg.member k (hk'.resolve_right (Ne.symm he))
      exact ⟨tk, by simp [he, htk], hqk⟩
  · rw [Core.put_tasks] at htk
    show k ∈ c.queue ++ [id] ∧ _
    by_cases he : id = k
    · simp only [he, if_true, Option.some.injEq] at htk
      subst htk
      exact ⟨by simp [he], hs⟩
    · simp only [he, if_false] at htk
      obtain ⟨hm, hb⟩ := hg.queued k tk htk hqk
      exact ⟨by simp [hm], hb⟩

theorem fillQueue_spec {l : List String} (hg : c.Good) (hnd : l.Nodup)
    (hl : ∀ id ∈ l, Net.Eligible cfg.enabled c.net id ∧ id ∉ c.queue)
    (hq : ∀ id ∈ c.queue, Net.Eligible cfg.enabled c.net id) :
    ∃ c', fillQueue cfg l c = .ok c' ∧ Requeued c c' ∧ ∀ id ∈ c'.queue, Net.Eligible cfg.enabled c.net id := by
  induction l generalizing c with
  | nil => exact ⟨c, rfl, .refl hg, hq⟩
  | cons id l ih =>
    unfold fillQueue
    by_cases hcap : cfg.queueCapacity ≤ c.queue.length
    · exact ⟨c, by rw [if_pos hcap], .refl hg, hq⟩
    · obtain ⟨hel, hno⟩ := hl id (by simp)
      obtain ⟨hnid, hnd'⟩ := List.nodup_cons.1 hnd
      obtain ⟨s, hs, hb⟩ := hel.1
      obtain ⟨t, ht, rfl⟩ := Core.net_status.1 hs
      have htq : t.queued = false := by
        by_contra h
        exact hno (hg.queued id t ht (by simpa using h)).1
      set c1 := Core.put { c with queue := c.queue ++ [id] } id { t with queued := true } c.pool with hc1
      have hg1 : c1.Good := enqueue_good hg ht htq hb
      have hnet : c1.net = c.net := Core.net_put_same (c := { c with queue := c.queue ++ [id] }) ht rfl
      have hmut : Core.taskMut { c with queue := c.queue ++ [id] } id (fun t => { t with queued := true }) = .ok c1 :=
        Core.taskMut_ok.2 ⟨t, ht, rfl⟩
      obtain ⟨c', hf, hreq, hq'⟩ := ih hg1 hnd'
        (fun k hk => ⟨by rw [hnet]; exact (hl k (by simp [hk])).1, fun hm => by
          have hm' : k ∈ c.queue ++ [id] := hm
          rw [List.mem_append, List.mem_singleton] at hm'
          rcases hm' with hm' | rfl
          · exact (hl k (by simp [hk])).2 hm'
          · exact hnid hk⟩)
        (fun k hk => by
          have hk' : k ∈ c.queue ++ [id] := hk
          rw [hnet]
          rw [List.mem_append, List.mem_singleton] at hk'
          rcases hk' with hk' | rfl
          · exact hq k hk'
          · exact hel)
      have hone : Requeued c c1 := ⟨hg1, hnet, rfl, rfl, rfl, rfl, rfl⟩
      refine ⟨c', ?_, hone.trans hreq, fun k hk => hnet ▸ hq' k hk⟩
      rw [if_neg hcap, bind_ok]
      exact ⟨c1, hmut, hf⟩

theorem readyTasks_spec (cfg : ProvisionalConfig) (hg : c.Good) :
    (readyTasks cfg c).Nodup ∧
      ∀ id ∈ readyTasks cfg c, Net.Eligible cfg.enabled c.net id ∧ id ∉ c.queue := by
  unfold readyTasks
  constructor
  · have hkeys : (c.tasks.toList.map Prod.fst).Nodup := by
      rw [ExtTreeMap.map_fst_toList_eq_keys]
      exact ExtTreeMap.nodup_keys
    exact hkeys.sublist (List.filter_sublist.map _)
  · intro id hid
    obtain ⟨⟨id', t⟩, hf, rfl⟩ := List.mem_map.1 hid
    obtain ⟨hmem, hf⟩ := List.mem_filter.1 hf
    simp only [Bool.and_eq_true, Bool.not_eq_true'] at hf
    obtain ⟨hq, hel⟩ := hf
    have ht := ExtTreeMap.mem_toList_iff_getElem?_eq_some.1 hmem
    refine ⟨(eligible_net hg.graph).1 hel, fun hm => ?_⟩
    obtain ⟨t', ht', hq'⟩ := hg.member id' hm
    rw [ht] at ht'
    obtain rfl := Option.some.inj ht'
    simp [hq] at hq'

/-! ## Dispatch -/

/-- The core after the head of the queue was dispatched with permits `pool`. -/
def dispatched (cfg : ProvisionalConfig) (now : UInt64) (c : Core) (head : String) (rest : List String) (t : TaskEntry)
    (pool : PermitPool) : Core :=
  Core.put { c with queue := rest, pool } head
    (started cfg now (Core.bindingsFor { c with queue := rest, pool } head) (Core.moved t .provisional now)) pool

variable {head : String} {rest : List String} {t : TaskEntry} {pool : PermitPool}

theorem dispatched_good (hg : c.Good) (hq : c.queue = head :: rest) (ht : c.tasks[head]? = some t) :
    (dispatched cfg now c head rest t pool).Good := by
  have hnd : head ∉ rest ∧ rest.Nodup := by
    have := hg.nodup
    rw [hq] at this
    exact List.nodup_cons.1 this
  refine ⟨hg.graph, fun k => ?_, hnd.2, fun k hk => ?_, fun k tk htk hqk => ?_⟩
  · unfold dispatched
    rw [Core.put_tasks]
    show c.graph.contains k = true ↔ _
    rw [hg.nodes k]
    by_cases he : head = k
    · subst he
      simp [ht]
    · simp [he]
  · have hk' : k ∈ rest := hk
    have hne : head ≠ k := fun he => hnd.1 (he ▸ hk')
    obtain ⟨tk, htk, hqk⟩ := hg.member k (by rw [hq]; simp [hk'])
    exact ⟨tk, by unfold dispatched; rw [Core.put_tasks, if_neg hne]; exact htk, hqk⟩
  · unfold dispatched at htk
    rw [Core.put_tasks] at htk
    by_cases he : head = k
    · simp only [he, if_true, Option.some.injEq] at htk
      subst htk
      simp [started] at hqk
    · simp only [he, if_false] at htk
      obtain ⟨hm, hb⟩ := hg.queued k tk htk hqk
      rw [hq, List.mem_cons] at hm
      exact ⟨hm.resolve_left (Ne.symm he), hb⟩

theorem dispatched_net :
    (dispatched cfg now c head rest t pool).net = c.net.set head { t.status with
      state := .provisional, bindings := Core.bindingsFor { c with queue := rest, pool } head } := by
  unfold dispatched
  rw [Core.net_put, status_started, status_moved]
  rfl

theorem dispatched_step (hg : c.Good) (ht : c.tasks[head]? = some t) (hel : Net.Eligible cfg.enabled c.net head) :
    Net.Step cfg.enabled c.net (.dispatch head) (dispatched cfg now c head rest t pool).net := by
  rw [dispatched_net]
  obtain ⟨⟨s, hs, hb⟩, hready⟩ := hel
  rw [Core.net_status_of ht] at hs
  obtain rfl := Option.some.inj hs
  refine Net.Step.dispatch (Core.net_status_of ht) hb fun p hp => ?_
  obtain ⟨ps, hps, hr⟩ := hready p hp
  obtain ⟨pt, hpt, rfl⟩ := Core.net_status.1 hps
  refine ⟨pt.status, hps, hr, ?_⟩
  rw [Core.bindingsFor_get (c := { c with queue := rest, pool }) hg.graph hp, status_bindingOf]
  show c.tasks[p]?.bind Core.bindingOf = _
  rw [hpt]
  rfl

/-- Dispatching one task makes no other task less eligible: a waiting task is nobody's ready producer. -/
theorem dispatched_eligible (ht : c.tasks[head]? = some t) (hel : Net.Eligible cfg.enabled c.net head)
    (hne : id ≠ head) (hid : Net.Eligible cfg.enabled c.net id) :
    Net.Eligible cfg.enabled (dispatched cfg now c head rest t pool).net id := by
  rw [dispatched_net]
  obtain ⟨⟨s, hs, hb⟩, -⟩ := hel
  obtain ⟨⟨si, hsi, hbi⟩, hready⟩ := hid
  refine ⟨⟨si, by simpa [hne] using hsi, hbi⟩, fun p hp => ?_⟩
  obtain ⟨ps, hps, hr⟩ := hready p hp
  have hpne : p ≠ head := by
    rintro rfl
    rw [hs] at hps
    obtain rfl := Option.some.inj hps
    simp [Status.ready, Status.finalReady, Status.interfaceReady, hb, TaskState.isFinal, TaskState.isActive] at hr
  exact ⟨ps, by simpa [hpne] using hps, hr⟩

/-- What `drain` and the pump do: they dispatch the tasks `ds`, in this order. -/
structure Pumped (cfg : ProvisionalConfig) (x : Exec) (ds : List String) (x' : Exec) : Prop where
  good : x'.core.Good
  graph : x'.core.graph = x.core.graph
  steps : Net.Steps cfg.enabled x.core.net (ds.map .dispatch) x'.core.net
  fx : x'.fx = { x.fx with dispatched := x.fx.dispatched ++ ds }
  rest : x'.core.seen = x.core.seen ∧ x'.core.approvals = x.core.approvals ∧ x'.core.seq = x.core.seq ∧
    x'.core.lastAt = x.core.lastAt

theorem Pumped.refl (hg : x.core.Good) : Pumped cfg x [] x :=
  ⟨hg, rfl, .refl, by simp, rfl, rfl, rfl, rfl⟩

theorem Pumped.trans {x₁ x₂ : Exec} {ds es : List String} (h : Pumped cfg x ds x₁) (h' : Pumped cfg x₁ es x₂) :
    Pumped cfg x (ds ++ es) x₂ := by
  obtain ⟨h1, h2, h3, h4⟩ := h.rest
  obtain ⟨k1, k2, k3, k4⟩ := h'.rest
  refine ⟨h'.good, h'.graph.trans h.graph, ?_, ?_, k1.trans h1, k2.trans h2, k3.trans h3, k4.trans h4⟩
  · rw [List.map_append]
    exact h.steps.trans h'.steps
  · rw [h'.fx, h.fx]
    simp

theorem drain_spec (cfg : ProvisionalConfig) (now : UInt64) (fuel : Nat) (progressed : Bool) (hg : x.core.Good)
    (hel : ∀ id ∈ x.core.queue, Net.Eligible cfg.enabled x.core.net id) :
    ∃ x' ds, drain cfg now fuel x progressed = .ok (x', progressed || !ds.isEmpty) ∧ Pumped cfg x ds x' := by
  induction fuel generalizing x progressed with
  | zero => exact ⟨x, [], by simp [drain], .refl hg⟩
  | succ fuel ih =>
    unfold drain
    cases hq : x.core.queue with
    | nil => exact ⟨x, [], by simp, .refl hg⟩
    | cons head rest =>
      obtain ⟨s, hs, hb⟩ := (hel head (by simp [hq])).1
      obtain ⟨t, ht, rfl⟩ := Core.net_status.1 hs
      simp only [bind_ok, Core.task_ok]
      cases hacq : x.core.pool.tryAcquire cfg.limits t.resources with
      | none => exact ⟨x, [], ⟨t, ht, by simp [hacq]⟩, .refl hg⟩
      | some pool =>
        have hhead := hel head (by simp [hq])
        set x1 : Exec := { core := dispatched cfg now x.core head rest t pool,
                           fx := { x.fx with dispatched := x.fx.dispatched ++ [head] } } with hx1
        have hdisp : dispatch cfg now { x with core := { x.core with queue := rest, pool } } head = .ok x1 :=
          dispatch_ok.2 ⟨t, ht, hb, rfl⟩
        have hnd : head ∉ rest := by
          have := hg.nodup
          rw [hq] at this
          exact (List.nodup_cons.1 this).1
        obtain ⟨x', ds, hd, hp⟩ := ih true (x := x1) (dispatched_good hg hq ht) (fun k hk => by
          have hk' : k ∈ rest := hk
          exact dispatched_eligible ht hhead (fun he => hnd (he ▸ hk')) (hel k (by simp [hq, hk'])))
        refine ⟨x', head :: ds, ⟨t, ht, ?_⟩, ?_⟩
        · rw [hacq]
          simp only [bind_ok]
          refine ⟨x1, hdisp, ?_⟩
          rw [hd]
          simp
        · have hone : Pumped cfg x [head] x1 :=
            ⟨dispatched_good hg hq ht, rfl, .single (dispatched_step hg ht hhead), rfl, rfl, rfl, rfl, rfl⟩
          exact hone.trans hp

theorem Requeued.pumped (h : Requeued x.core c) {ds : List String} (hp : Pumped cfg { x with core := c } ds x') :
    Pumped cfg x ds x' := by
  obtain ⟨h1, h2, h3, h4⟩ := h.rest
  obtain ⟨k1, k2, k3, k4⟩ := hp.rest
  refine ⟨hp.good, hp.graph.trans h.graph, ?_, hp.fx, k1.trans h1, k2.trans h2, k3.trans h3, k4.trans h4⟩
  rw [← h.net]
  exact hp.steps

theorem pumpRound_spec (cfg : ProvisionalConfig) (now : UInt64) (hg : x.core.Good) :
    ∃ x' ds, pumpRound cfg now x = .ok (x', !ds.isEmpty) ∧ Pumped cfg x ds x' := by
  obtain ⟨hreq1, hel1⟩ := dropStale_spec cfg hg
  obtain ⟨hnd, hready⟩ := readyTasks_spec cfg hreq1.good
  obtain ⟨c2, hfill, hreq2, hel2⟩ := fillQueue_spec hreq1.good hnd hready (fun id hid => by
    rw [hreq1.net]
    exact hel1 id hid)
  obtain ⟨x', ds, hd, hp⟩ := drain_spec (x := { x with core := c2 }) cfg now c2.queue.length false
    hreq2.good (fun id hid => by
      show Net.Eligible cfg.enabled c2.net id
      rw [hreq2.net]
      exact hel2 id hid)
  refine ⟨x', ds, ?_, (hreq1.trans hreq2).pumped hp⟩
  unfold pumpRound
  rw [bind_ok]
  exact ⟨c2, hfill, by simpa using hd⟩

theorem pumpLoop_spec (hg : x.core.Good) : ∃ x' ds, pumpLoop cfg now fuel x = .ok x' ∧ Pumped cfg x ds x' := by
  induction fuel generalizing x with
  | zero => exact ⟨x, [], rfl, .refl hg⟩
  | succ fuel ih =>
    obtain ⟨x1, ds, h1, hp1⟩ := pumpRound_spec cfg now hg
    unfold pumpLoop
    simp only [bind_ok]
    by_cases hds : ds = []
    · subst hds
      exact ⟨x1, [], ⟨_, h1, by simp⟩, hp1⟩
    · obtain ⟨x2, es, h2, hp2⟩ := ih hp1.good
      refine ⟨x2, ds ++ es, ⟨_, h1, ?_⟩, hp1.trans hp2⟩
      have : (!ds.isEmpty) = true := by simpa using hds
      simp only [this, if_true]
      exact h2

theorem pump_spec (cfg : ProvisionalConfig) (now : UInt64) (hg : x.core.Good) :
    ∃ x' ds, pump cfg now x = .ok x' ∧ Pumped cfg x ds x' :=
  pumpLoop_spec hg

/-! ## The bound on the passes -/

def waiting (c : Core) : Nat := c.graph.consumers.keys.countP fun id => c.tasks[id]?.any fun t => t.state = .blocked

theorem waiting_net : waiting c = c.graph.consumers.keys.countP fun id => (c.net.status id).any fun s => s.state = .blocked := by
  unfold waiting
  congr 1
  funext id
  show _ = (c.tasks[id]?.map TaskEntry.status).any _
  rw [Option.any_map]
  rfl

theorem countP_remove {α : Type} {p q : α → Bool} {l : List α} {a : α} (ha : a ∈ l) (hp : p a = true)
    (hq : q a = false) (hsub : ∀ b, q b = true → p b = true) : l.countP q < l.countP p := by
  induction l with
  | nil => simp at ha
  | cons b l ih =>
    have hle : l.countP q ≤ l.countP p := List.countP_mono_left fun b _ => hsub b
    rw [List.countP_cons, List.countP_cons]
    rcases List.mem_cons.1 ha with rfl | ha
    · simp only [hp, hq, if_true, Bool.false_eq_true, if_false]
      omega
    · have := ih ha
      by_cases hb : q b = true
      · simp only [hb, hsub b hb, if_true]
        omega
      · rw [if_neg hb]
        omega

theorem dispatch_waiting {n n' : Net} {enabled : Bool} {l : List String}
    (h : Net.Step enabled n (.dispatch id) n') (hid : id ∈ l) :
    l.countP (fun k => (n'.status k).any fun s => s.state = .blocked) <
      l.countP (fun k => (n.status k).any fun s => s.state = .blocked) := by
  cases h with
  | @dispatch _ s bindings hs hst hready =>
    refine countP_remove hid (by simp [hs, hst]) (by simp) fun k hk => ?_
    rw [Net.set_status] at hk
    by_cases he : k = id
    · simp [he] at hk
    · simpa [he] using hk

theorem Pumped.waiting_le {ds : List String} (h : Pumped cfg x ds x') (hg : x.core.Good) :
    waiting x'.core + ds.length ≤ waiting x.core := by
  rw [waiting_net, waiting_net, h.graph]
  have hsteps := h.steps
  have hmem : ∀ id t, x.core.tasks[id]? = some t → id ∈ x.core.graph.consumers.keys := by
    intro id t ht
    rw [ExtTreeMap.mem_keys]
    exact (hg.graph.nodes id).2 ((hg.nodes id).2 ⟨t, ht⟩)
  have hmem' : ∀ id s, x.core.net.status id = some s → id ∈ x.core.graph.consumers.keys := by
    intro id s hs
    obtain ⟨t, ht, -⟩ := Core.net_status.1 hs
    exact hmem id t ht
  clear h hmem hg
  generalize x.core.net = n at hsteps hmem' ⊢
  generalize x'.core.net = n' at hsteps ⊢
  induction ds generalizing n with
  | nil =>
    cases hsteps
    simp
  | cons d ds ih =>
    cases hsteps with
    | @cons _ n1 _ _ _ hstep hrest =>
      have hknown : ∀ id s, n1.status id = some s → id ∈ x.core.graph.consumers.keys := by
        intro id s hs
        cases hstep with
        | @dispatch _ s0 bindings hs0 hst hready =>
          rw [Net.set_status] at hs
          by_cases he : id = d
          · exact he ▸ hmem' d s0 hs0
          · exact hmem' id s (by simpa [he] using hs)
      have hd : d ∈ x.core.graph.consumers.keys := by
        cases hstep with
        | @dispatch _ s0 bindings hs0 hst hready => exact hmem' d s0 hs0
      have h1 := ih n1 hknown hrest
      have h2 := dispatch_waiting hstep hd
      simp only [List.length_cons]
      omega

theorem waiting_le_size (hg : c.Good) : waiting c ≤ c.tasks.size := by
  unfold waiting
  refine (List.countP_le_length).trans ?_
  rw [← ExtTreeMap.length_keys (t := c.tasks)]
  refine (List.subperm_of_subset ExtTreeMap.nodup_keys fun id hid => ?_).length_le
  rw [ExtTreeMap.mem_keys] at hid ⊢
  exact Table.mem_iff.2 ((hg.nodes id).1 ((hg.graph.nodes id).1 hid))

/-- **The bound on the passes is no limit**: with more fuel than waiting tasks, the loop ends by itself. -/
theorem pumpLoop_fuel {fuel' : Nat} (hg : x.core.Good) (h : waiting x.core < fuel) (h' : waiting x.core < fuel') :
    pumpLoop cfg now fuel x = pumpLoop cfg now fuel' x := by
  induction fuel generalizing x fuel' with
  | zero => omega
  | succ fuel ih =>
    cases fuel' with
    | zero => omega
    | succ fuel' =>
      obtain ⟨x1, ds, h1, hp1⟩ := pumpRound_spec cfg now hg
      have hw := hp1.waiting_le hg
      unfold pumpLoop
      rw [h1]
      show (if (!ds.isEmpty) = true then pumpLoop cfg now fuel x1 else Except.ok x1) =
        (if (!ds.isEmpty) = true then pumpLoop cfg now fuel' x1 else Except.ok x1)
      by_cases hds : ds = []
      · simp [hds]
      · have hlen : 0 < ds.length := List.length_pos_iff.2 hds
        have hrest : pumpLoop cfg now fuel x1 = pumpLoop cfg now fuel' x1 := ih hp1.good (by omega) (by omega)
        rw [hrest]

end Exec

/-! ## Events -/

namespace Core

/-- The actions an event may stand for at `c`. -/
def EventActs (c : Core) (now : UInt64) : EventKind → Net.Act → Prop
  | .registerTask task .., a => a = .register task
  | .addDependency producer consumer, a => a = .depend producer consumer
  | .interfacePublished task _ claim, a =>
    a = if c.replaces .interface task claim then .republish task else .publish task
  | .completionVerified task _ claim, a => a = if c.replaces .final task claim then .republish task else .publish task
  | .newGeneration task _, a => a = .renew task
  | .producerFailed task .., a => a = .abort task
  | .cancel task _, a => a = .cancel task
  | .revoke task .., a => a = .revoke task
  | .workDone task .., a => a = .work task
  | .finalize task _, a => a = .finalize task
  | .retry task _, a => a = .retry task
  | .auditRevoke revocations, a => ∃ r ∈ revocations, a = .revoke r.task
  | .tick, a => ∃ id ∈ c.expired now, a = .abort id
  | .beginCommit task .., a => a = .beginCommit task
  | .commitOutcome task _ outcome, a => a = .endCommit task (succeeded outcome)
  | .heartbeat .., _ | .bindApproval .., _ => False

variable {c c' : Core} {cfg : ProvisionalConfig} {x : Exec} {now : UInt64} {kind : EventKind}

/-- An event is one action at most, or a batch of revocations and aborts. -/
inductive AtOnce : List Net.Act → Prop
  | none : AtOnce []
  | one {a : Net.Act} : AtOnce [a]
  | many {acts : List Net.Act} (h : ∀ a ∈ acts, ∃ t, a = .revoke t ∨ a = .abort t) : AtOnce acts

theorem applyKind_spec (hg : c.Good) (h : applyKind cfg c now kind = .ok x) :
    ∃ acts, Handled cfg.enabled c x acts ∧ (∀ a ∈ acts, EventActs c now kind a) ∧ AtOnce acts := by
  cases kind with
  | registerTask task resources producers => exact ⟨_, onRegisterTask_spec hg h, by simp [EventActs], .one⟩
  | addDependency producer consumer => exact ⟨_, onAddDependency_spec hg h, by simp [EventActs], .one⟩
  | interfacePublished task generation claim => exact ⟨_, onProof_spec hg h, by simp [EventActs], .one⟩
  | completionVerified task generation claim => exact ⟨_, onProof_spec hg h, by simp [EventActs], .one⟩
  | newGeneration task generation => exact ⟨_, onNewGeneration_spec hg h, by simp [EventActs], .one⟩
  | producerFailed task generation reason => exact ⟨_, onProducerFailed_spec hg h, by simp [EventActs], .one⟩
  | workDone task generation resultDigest => exact ⟨_, onWorkDone_spec hg h, by simp [EventActs], .one⟩
  | finalize task generation => exact ⟨_, onFinalize_spec hg h, by simp [EventActs], .one⟩
  | heartbeat task generation beat => exact ⟨_, onHeartbeat_spec hg h, by simp, .none⟩
  | cancel task generation => exact ⟨_, onCancel_spec hg h, by simp [EventActs], .one⟩
  | retry task generation => exact ⟨_, onRetry_spec hg h, by simp [EventActs], .one⟩
  | revoke task generation reason => exact ⟨_, onRevoke_spec hg h, by simp [EventActs], .one⟩
  | auditRevoke revocations =>
    obtain ⟨acts, hh, hacts⟩ := onAuditRevoke_spec cfg.enabled hg h
    refine ⟨acts, hh, hacts, .many fun a ha => ?_⟩
    obtain ⟨r, -, hr⟩ := hacts a ha
    exact ⟨r.task, Or.inl hr⟩
  | tick =>
    obtain ⟨acts, hh, hacts⟩ := onTick_spec cfg.enabled hg h
    refine ⟨acts, hh, hacts, .many fun a ha => ?_⟩
    obtain ⟨id, -, hid⟩ := hacts a ha
    exact ⟨id, Or.inr hid⟩
  | beginCommit task generation completion producers => exact ⟨_, onBeginCommit_spec cfg.enabled hg h, by simp [EventActs], .one⟩
  | commitOutcome task generation outcome => exact ⟨_, onCommitOutcome_spec hg h, by simp [EventActs], .one⟩
  | bindApproval key task generation => exact ⟨_, onBindApproval_spec hg h, by simp, .none⟩

variable {dg : EventKind → String} {e : JournalEntry} {fx : Effects}

theorem apply_ok (h : apply cfg c dg e = .ok (c', fx)) :
    e.seq = c.seq + 1 ∧ e.id ∉ c.seen.ids ∧ ¬ e.now < c.lastAt ∧
      ∃ x x', applyKind cfg { c with lastAt := e.now } e.now e.kind = .ok x ∧ Exec.pump cfg e.now x = .ok x' ∧
        c' = x'.core.settle cfg dg e ∧ fx = x'.fx := by
  unfold apply at h
  simp only [guard_ok, bind_ok, pure_ok, Prod.mk.injEq] at h
  obtain ⟨hseq, hid, hnow, x, hx, x', hx', rfl, rfl⟩ := h
  exact ⟨by simpa using hseq, by simpa using hid, hnow, x, x', hx, hx', rfl, rfl⟩

/-- **An accepted event is protocol actions of its kind, then one dispatch for each task it reports.** -/
theorem apply_spec (hg : c.Good) (h : apply cfg c dg e = .ok (c', fx)) :
    c'.Good ∧ ∃ acts, (∀ a ∈ acts, EventActs c e.now e.kind a) ∧ AtOnce acts ∧
      Net.Steps cfg.enabled c.net (acts ++ fx.dispatched.map .dispatch) c'.net := by
  obtain ⟨-, -, -, x, x', hx, hx', rfl, rfl⟩ := apply_ok h
  obtain ⟨acts, hh, hacts, honce⟩ := applyKind_spec (c := { c with lastAt := e.now }) (hg.congr rfl rfl rfl) hx
  obtain ⟨y, ds, hy, hp⟩ := Exec.pump_spec cfg e.now hh.good
  rw [hx'] at hy
  obtain rfl := Except.ok.inj hy
  refine ⟨hp.good.congr rfl rfl rfl, acts, hacts, honce, ?_⟩
  have hfx : x'.fx.dispatched = ds := by rw [hp.fx, hh.dispatched]; simp
  rw [hfx]
  exact hh.steps.trans hp.steps

end Core

end SovereignCore.Harness
