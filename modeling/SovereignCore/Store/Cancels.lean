import SovereignCore.Store.Links

/-!
# A cancel is of one rider

A rider that cancels withdraws from its job. The store is asked to cancel the job itself only when no rider is left that
wants it, or at shutdown. The others keep their interest and their terminals, and a second cancel of the same rider does
nothing.

* `System.Left`, `System.Quit` : nobody wants the job, and one rider does not; both last;
* `System.Calls` : the store is being asked to cancel;
* `cancel_is_isolated` : what holds of every cancel in every run.
-/

namespace SovereignCore.Store

open Std Table Rides

/-! ## Riders -/

section Riders

variable {inc inc' : Incarnation} {ws ws' : List Waiter} {w : Waiter}

theorem detachWaiter_none (h : State.detachWaiter inc ws = none) : ∀ w ∈ ws, w.inc = inc → w.detached = true := by
  induction ws with
  | nil => exact fun w hw => absurd hw List.not_mem_nil
  | cons v ws ih =>
    rw [State.detachWaiter] at h
    split_ifs at h with hv
    intro w hw hi
    rcases List.mem_cons.1 hw with rfl | hw
    · by_contra hd
      exact hv ⟨hi, by simpa using hd⟩
    · exact ih (by simpa using h) w hw hi

/-- Who is not named keeps their place; a new mark is a withdrawal. -/
theorem detachWaiter_mem (h : State.detachWaiter inc ws = some ws') :
    (∀ w ∈ ws, w.inc ≠ inc → w ∈ ws') ∧ ∀ w ∈ ws', w ∈ ws ∨ w.detached = true := by
  induction ws generalizing ws' with
  | nil => cases h
  | cons v ws ih =>
    rw [State.detachWaiter] at h
    split_ifs at h with hv
    · cases h
      refine ⟨fun w hw hi => ?_, fun w hw => ?_⟩
      · rcases List.mem_cons.1 hw with rfl | hw
        · exact absurd hv.1 hi
        · exact List.mem_cons_of_mem _ hw
      · rcases List.mem_cons.1 hw with rfl | hw
        · exact Or.inr rfl
        · exact Or.inl (List.mem_cons_of_mem _ hw)
    · obtain ⟨ws₁, h₁, rfl⟩ := Option.map_eq_some_iff.1 h
      obtain ⟨hkeep, hnew⟩ := ih h₁
      refine ⟨fun w hw hi => ?_, fun w hw => ?_⟩
      · rcases List.mem_cons.1 hw with rfl | hw
        · exact List.mem_cons_self
        · exact List.mem_cons_of_mem _ (hkeep w hw hi)
      · rcases List.mem_cons.1 hw with rfl | hw
        · exact Or.inl List.mem_cons_self
        · rcases hnew w hw with hw | hd
          · exact Or.inl (List.mem_cons_of_mem _ hw)
          · exact Or.inr hd

theorem detachWaiter_self (h : State.detachWaiter inc ws = some ws') (hd : (ws.map Waiter.inc).Nodup) :
    ∀ w ∈ ws', w.inc = inc → w.detached = true := by
  induction ws generalizing ws' with
  | nil => cases h
  | cons v ws ih =>
    rw [List.map_cons, List.nodup_cons] at hd
    rw [State.detachWaiter] at h
    split_ifs at h with hv
    · cases h
      intro w hw hi
      rcases List.mem_cons.1 hw with rfl | hw
      · rfl
      · exact absurd (List.mem_map.2 ⟨w, hw, hi.trans hv.1.symm⟩) hd.1
    · obtain ⟨ws₁, h₁, rfl⟩ := Option.map_eq_some_iff.1 h
      intro w hw hi
      rcases List.mem_cons.1 hw with rfl | hw
      · by_contra hdet
        exact hv ⟨hi, by simpa using hdet⟩
      · exact ih h₁ hd.2 w hw hi

def AllLeft (ws : List Waiter) : Prop := ∀ w ∈ ws, w.detached = true

def HasQuit (inc : Incarnation) (ws : List Waiter) : Prop :=
  (∃ w ∈ ws, w.inc = inc) ∧ ∀ w ∈ ws, w.inc = inc → w.detached = true

theorem Riders.allLeft (h : Riders ws ws') (hl : AllLeft ws) : AllLeft ws' := by
  cases h with
  | joins inc hi hw =>
    obtain ⟨w, hw, hd⟩ := hw
    rw [hl w hw] at hd
    cases hd
  | withdraws _ inc h =>
    intro w hw
    rcases (detachWaiter_mem h).2 w hw with hw | hd
    · exact hl w hw
    · exact hd

theorem Riders.hasQuit (h : Riders ws ws') (hq : HasQuit inc ws) : HasQuit inc ws' := by
  obtain ⟨⟨v, hv, hvi⟩, hdet⟩ := hq
  cases h with
  | joins inc' hi hw =>
    refine ⟨⟨v, List.mem_append_left _ hv, hvi⟩, fun w hw' hwi => ?_⟩
    rcases List.mem_append.1 hw' with hw' | hw'
    · exact hdet w hw' hwi
    · cases List.mem_singleton.1 hw'
      exact absurd (hvi.trans hwi.symm) (hi v hv)
  | withdraws _ inc' h =>
    have hincs := detachWaiter_incs h
    refine ⟨?_, fun w hw hwi => ?_⟩
    · have hmem : inc ∈ ws'.map Waiter.inc := by
        rw [hincs]
        exact List.mem_map.2 ⟨v, hv, hvi⟩
      exact List.mem_map.1 hmem
    · rcases (detachWaiter_mem h).2 w hw with hw | hd
      · exact hdet w hw hwi
      · exact hd

theorem allLeft_chain (h : Relation.ReflTransGen Riders ws ws') (hl : AllLeft ws) : AllLeft ws' := by
  induction h with
  | refl => exact hl
  | tail _ hstep ih => exact hstep.allLeft ih

theorem hasQuit_chain (h : Relation.ReflTransGen Riders ws ws') (hq : HasQuit inc ws) : HasQuit inc ws' := by
  induction h with
  | refl => exact hq
  | tail _ hstep ih => exact hstep.hasQuit ih

end Riders

/-! ## What lasts -/

def System.Left (y : System) (j : JobId) : Prop :=
  j < y.state.nextJob ∧ ∀ job : WorkerJob, y.state.jobs[j]? = some job → AllLeft job.waiters

/-- The rider has withdrawn from the job, or the job is over. A flush cannot be cancelled. -/
def System.Quit (y : System) (j : JobId) (inc : Incarnation) : Prop :=
  j < y.state.nextJob ∧ ∀ job : WorkerJob, y.state.jobs[j]? = some job → job.kind = .flush ∨ HasQuit inc job.waiters

section Lasting

variable {y y' : System} {j : JobId} {inc : Incarnation}

theorem Sound.riders (h : Sound y) (hs : Step y y') (hj : j < y.state.nextJob) {job' : WorkerJob}
    (hj' : y'.state.jobs[j]? = some job') : ∃ job, y.state.jobs[j]? = some job ∧ job.kind = job'.kind ∧
      Relation.ReflTransGen Riders job.waiters job'.waiters := by
  have hj' : (books y'.state).jobs[j]? = some job' := hj'
  rcases (h.turns hs).turned with ho | ha | hm
  · generalize books y'.state = b' at ho hj'
    obtain ⟨job, -, -, -⟩ := ho
    have hj' : (y.state.jobs.insert y.state.nextJob job)[j]? = some job' := hj'
    rw [get_insert, if_neg (Nat.ne_of_gt hj)] at hj'
    exact ⟨job', hj', rfl, .refl⟩
  · generalize books y'.state = b' at ha hj'
    obtain ⟨k, job, i, hk, -, -⟩ := ha
    have hput : (y.state.jobs.insert k { job with status := .dispatched i })[j]? = some job' := hj'
    rw [get_insert] at hput
    split_ifs at hput with he
    · subst he
      obtain rfl := Option.some.inj hput
      exact ⟨job, hk, rfl, .refl⟩
    · exact ⟨job', hput, rfl, .refl⟩
  · obtain ⟨job, hj, hk, -, hr⟩ := (Keeps.moves h.balanced hm).jobs j job' hj'
    exact ⟨job, hj, hk, hr⟩

theorem Sound.next_le (h : Sound y) (hs : Step y y') : y.state.nextJob ≤ y'.state.nextJob := by
  have hle : (books y.state).next ≤ (books y'.state).next := by
    rcases (h.turns hs).turned with ho | ha | hm
    · generalize books y'.state = b' at ho
      obtain ⟨job, -, -, -⟩ := ho
      exact Nat.le_succ _
    · generalize books y'.state = b' at ha
      obtain ⟨k, job, i, -, -, -⟩ := ha
      exact Nat.le_refl _
    · exact Nat.le_of_eq (Keeps.moves h.balanced hm).next.symm
  exact hle

theorem Sound.shut (h : Sound y) (hs : Step y y') (hreq : y.state.innerShutdownRequested = true) :
    y'.state.innerShutdownRequested = true := by
  have hshut : (books y'.state).shut = true := by
    rcases (h.turns hs).turned with ho | ha | hm
    · generalize books y'.state = b' at ho
      obtain ⟨job, -, -, -⟩ := ho
      exact hreq
    · generalize books y'.state = b' at ha
      obtain ⟨k, job, i, -, -, -⟩ := ha
      exact hreq
    · exact (Keeps.moves h.balanced hm).shut hreq
  exact hshut

theorem System.Left.step (hl : y.Left j) (h : Sound y) (hs : Step y y') : y'.Left j := by
  refine ⟨Nat.lt_of_lt_of_le hl.1 (h.next_le hs), fun job' hj' => ?_⟩
  obtain ⟨job, hj, -, hr⟩ := h.riders hs hl.1 hj'
  exact allLeft_chain hr (hl.2 job hj)

theorem System.Quit.step (hq : y.Quit j inc) (h : Sound y) (hs : Step y y') : y'.Quit j inc := by
  refine ⟨Nat.lt_of_lt_of_le hq.1 (h.next_le hs), fun job' hj' => ?_⟩
  obtain ⟨job, hj, hk, hr⟩ := h.riders hs hq.1 hj'
  rcases hq.2 job hj with hf | hquit
  · exact Or.inl (hk.symm.trans hf)
  · exact Or.inr (hasQuit_chain hr hquit)

theorem System.Left.accepted (hl : y.Left j) (h : Sound y) (hs : Step y y') (hi : (j, inc) ∈ y'.accepted) :
    (j, inc) ∈ y.accepted := by
  have hnot : ∀ s, ¬ Admits y.state j s := by
    intro s ha
    cases ha with
    | opens hj ho => exact absurd hj (Nat.ne_of_lt hl.1)
    | rides job hj hi hm =>
      obtain ⟨w, hw, hd⟩ := h.balanced.wanted hj hi
      rw [hl.2 job hj w hw] at hd
      cases hd
  have hnew : ∀ (k : JobId) (inc' : Incarnation) (s : State), Admits y.state k s →
      (j, inc) ∈ (k, inc') :: y.accepted → (j, inc) ∈ y.accepted := by
    intro k inc' s ha hmem
    rcases List.mem_cons.1 hmem with he | hmem
    · cases he
      exact absurd ha (hnot s)
    · exact hmem
  cases hs with
  | submitStore ns store header src inc' id s hok => exact hnew _ _ s (submitStore_admits hok) hi
  | submitLoad store len key expect dst inc' id s hok => exact hnew _ _ s (submitLoad_admits hok) hi
  | attachLoad store key inc' t s hok => exact hnew _ _ s (attachLoad_admits hok) hi
  | submitLoadCoalesced store len key expect dst inc' t s hok => exact hnew _ _ s (submitLoadCoalesced_admits hok) hi
  | submitFlush store inc' id s hok => exact hnew _ _ s (submitFlush_admits hok) hi
  | attachWaiter job inc' s hok => exact hnew _ _ s (attachWaiter_admits hok) hi
  | _ => exact hi

end Lasting

/-! ## Cancels of the store's jobs -/

/-- Somebody is asking the store to cancel its job `inner`, for the worker's job `j`. -/
def System.Calls (y : System) (j inner : JobId) : Prop := (j, inner) ∈ y.asked ∨ y.thread = .cancelling j inner

section Calls

variable {y y' : System} {j i : JobId}

/-- The thread forwards a cancel of a job that was marked while it was in the submit call. -/
theorem register_forwards {s : State} {res : Except PlatformError JobId} (h : (s.register j res).2 = some i) :
    ∃ job : WorkerJob, s.jobs[j]? = some job ∧ job.cancelling = true ∧
      (s.register j res).1.jobs[j]? = some { job with status := .dispatched i } := by
  unfold State.register at h ⊢
  cases res with
  | error e => cases h
  | ok inner =>
    dsimp only at h ⊢
    cases hj : s.jobs[j]? with
    | none =>
      rw [hj] at h
      cases h
    | some job =>
      rw [hj] at h
      dsimp only at h ⊢
      split_ifs at h ⊢ with htaken hcan
      obtain rfl := Option.some.inj h
      refine ⟨job, rfl, hcan, ?_⟩
      dsimp only
      rw [get_insert, if_pos rfl]

/-- A new call is made at shutdown, or for a job in the store that nobody wants. -/
theorem calls_new (h : Sound y) (hs : Step y y') (hc : y'.Calls j i) : y.Calls j i ∨
    y'.state.innerShutdownRequested = true ∨
    ∃ job : WorkerJob, y'.state.jobs[j]? = some job ∧ job.status = .dispatched i ∧ AllLeft job.waiters := by
  cases hs with
  | cancelWaiter job inc =>
    rcases hc with hc | hc
    · rcases List.mem_append.1 hc with hc | hc
      · refine Or.inr (Or.inr ?_)
        obtain ⟨i', hi', he⟩ := Option.map_eq_some_iff.1 (Option.mem_toList.1 hc)
        cases he
        have hcase := cancelWaiter_cases y.state j inc
        generalize y.state.cancelWaiter j inc = r at hcase hi'
        cases hcase with
        | nothing _ => cases hi'
        | others _ _ _ _ _ _ _ => cases hi'
        | inSubmit _ _ _ _ _ _ _ => cases hi'
        | inQueue _ _ _ _ _ _ _ => cases hi'
        | inStore rec ws i' hj hk hw hn hst =>
          cases hi'
          refine ⟨{ rec with waiters := ws, cancelling := true }, ?_, hst, ?_⟩
          · show ((y.state.jobs.insert j _).insert j _)[j]? = _
            rw [get_insert, if_pos rfl]
          · have hzero := interested_last (h.balanced.entry hj) hk hw hn
            intro w hwm
            have hall := List.countP_eq_zero.1 hzero w hwm
            simpa using hall
      · exact Or.inl (Or.inl hc)
    · exact Or.inl (Or.inr hc)
  | cancelAnswered pre post job inner out hask =>
    rcases hc with hc | hc
    · refine Or.inl (Or.inl ?_)
      rw [hask]
      rcases List.mem_append.1 hc with hc | hc
      · exact List.mem_append_left _ hc
      · exact List.mem_append_right _ (List.mem_cons_of_mem _ hc)
    · exact Or.inl (Or.inr hc)
  | beginShutdown drop => exact Or.inr (Or.inl (shut_beginShutdown y.state drop))
  | register id res ht =>
    rcases hc with hc | hc
    · exact Or.inl (Or.inl hc)
    · refine Or.inr ?_
      have hr : (y.state.register id res).2 = some i ∧ id = j := by
        cases hr : (y.state.register id res).2 with
        | none =>
          dsimp only at hc
          rw [hr] at hc
          cases hc
        | some inner =>
          dsimp only at hc
          rw [hr] at hc
          cases hc
          exact ⟨rfl, rfl⟩
      obtain ⟨hr, rfl⟩ := hr
      obtain ⟨job, hj, hcan, hput⟩ := register_forwards hr
      rcases h.balanced.marked id job hj hcan with hshut | hzero
      · exact Or.inl (h.shut (.register y id res ht) hshut)
      · refine Or.inr ⟨{ job with status := .dispatched i }, hput, rfl, fun w hw => ?_⟩
        have hall := List.countP_eq_zero.1 hzero w hw
        simpa using hall
  | take g s ht hg =>
    rcases hc with hc | hc
    · exact Or.inl (Or.inl hc)
    · cases hc
  | submit g res n ht hn =>
    rcases hc with hc | hc
    · exact Or.inl (Or.inl hc)
    · cases hc
  | forwarded id inner out ht =>
    rcases hc with hc | hc
    · exact Or.inl (Or.inl hc)
    · cases hc
  | innerPoll comps n ht hn =>
    rcases hc with hc | hc
    · exact Or.inl (Or.inl hc)
    · cases hc
  | reap comps ht =>
    rcases hc with hc | hc
    · exact Or.inl (Or.inl hc)
    · cases hc
  | exit ht hd hz =>
    rcases hc with hc | hc
    · exact Or.inl (Or.inl hc)
    · cases hc
  | panic ht hu =>
    rcases hc with hc | hc
    · exact Or.inl (Or.inl hc)
    · cases hc
  | orphanAll ht =>
    rcases hc with hc | hc
    · exact Or.inl (Or.inl hc)
    · cases hc
  | _ => exact Or.inl hc

end Calls

/-! ## What a cancel leaves -/

section Cancel

variable {s : State} {j k : JobId} {inc : Incarnation} {ws ws' : List Waiter}

theorem detachWaiter_found (h : State.detachWaiter inc ws = some ws') : ∃ w ∈ ws, w.inc = inc ∧ w.detached = false := by
  induction ws generalizing ws' with
  | nil => cases h
  | cons v ws ih =>
    rw [State.detachWaiter] at h
    split_ifs at h with hv
    · exact ⟨v, List.mem_cons_self, hv⟩
    · obtain ⟨ws₁, h₁, -⟩ := Option.map_eq_some_iff.1 h
      obtain ⟨w, hw, hwi⟩ := ih h₁
      exact ⟨w, List.mem_cons_of_mem _ hw, hwi⟩

theorem completions_finishJob (job : WorkerJob) (t : Terminal) (st : JobStage) (p : PublishOutcome) :
    (s.finishJob job t st p).completions = s.completions ++ (State.riders job).map fun w =>
      { job := job.id, incarnation := w.inc, key := job.key, stage := st, terminal := some t, publish := p,
        bytes := job.payloadLen, holder := if State.adopts job t then State.guardOf job else none } := by
  have hcredits : ∀ s : State, (s.returnCredits job).completions = s.completions := by
    intro s
    unfold State.returnCredits
    cases job.cls <;> rfl
  have hslot : ∀ s : State, (s.returnSlot job).completions = s.completions := by
    intro s
    unfold State.returnSlot
    cases job.status <;> rfl
  have hkey : ∀ s : State, (s.releaseKey job).completions = s.completions := by
    intro s
    unfold State.releaseKey
    dsimp only
    split_ifs <;> rfl
  have hcount : ∀ s : State, (s.countEnd job t st).completions = s.completions := by
    intro s
    unfold State.countEnd
    dsimp only
    split_ifs <;> rfl
  have hguard : ∀ s : State, (if State.adopts job t = true then s
      else { s with graveyard := s.graveyard ++ (State.guardOf job).toList }).completions = s.completions := by
    intro s
    split_ifs <;> rfl
  unfold State.finishJob
  dsimp only
  rw [hguard, hcount, hkey, hslot, hcredits]

theorem jobs_endJob (f : WorkerJob → Terminal) : (s.endJob j f).jobs[k]? = if j = k then none else s.jobs[k]? := by
  unfold State.endJob
  cases hj : s.jobs[j]? with
  | none =>
    split_ifs with he
    · rw [← he]
      exact hj
    · rfl
  | some job =>
    have hjobs := congrArg Books.jobs (books_finishJob s job j (f job) job.stage .notApplicable)
    have hjobs : ({ s with jobs := s.jobs.erase j }.finishJob job (f job) job.stage .notApplicable).jobs =
      s.jobs.erase j := hjobs
    dsimp only
    rw [hjobs, get_erase]

/-- The other riders keep their interest, what was sent stays, and every rider of an open job still rides it or has its
terminal. -/
structure Isolated (s : State) (j : JobId) (inc : Incarnation) (s' : State) : Prop where
  interest : ∀ (k : JobId) (job : WorkerJob), s.jobs[k]? = some job → ∀ w ∈ job.waiters, w.detached = false →
    (k ≠ j ∨ w.inc ≠ inc) → ∃ job' : WorkerJob, s'.jobs[k]? = some job' ∧ w ∈ job'.waiters
  sent : s.completions <+: s'.completions
  terminal : ∀ (k : JobId) (job : WorkerJob), s.jobs[k]? = some job → ∀ w ∈ job.waiters,
    (∃ job' : WorkerJob, s'.jobs[k]? = some job' ∧ ∃ w' ∈ job'.waiters, w'.inc = w.inc) ∨
    ∃ c ∈ s'.completions, c.terminalOf k w.inc = true

theorem isolated_of_marked {job : WorkerJob} {s' : State} (hj : s.jobs[j]? = some job)
    (hw : State.detachWaiter inc job.waiters = some ws) {job' : WorkerJob} (hws : job'.waiters = ws)
    (hself : s'.jobs[j]? = some job') (hother : ∀ k : JobId, j ≠ k → s'.jobs[k]? = s.jobs[k]?)
    (hsent : s'.completions = s.completions) : Isolated s j inc s' where
  interest := by
    intro k rec hk w hwm hd hne
    by_cases he : j = k
    · subst he
      rw [hj] at hk
      cases hk
      refine ⟨job', hself, ?_⟩
      rw [hws]
      exact (detachWaiter_mem hw).1 w hwm (hne.resolve_left fun h => h rfl)
    · exact ⟨rec, (hother k he).trans hk, hwm⟩
  sent := by rw [hsent]
  terminal := by
    intro k rec hk w hwm
    by_cases he : j = k
    · subst he
      rw [hj] at hk
      cases hk
      refine Or.inl ⟨job', hself, ?_⟩
      have hmem : w.inc ∈ job'.waiters.map Waiter.inc := by
        rw [hws, detachWaiter_incs hw]
        exact List.mem_map_of_mem hwm
      exact List.mem_map.1 hmem
    · exact Or.inl ⟨rec, (hother k he).trans hk, w, hwm, rfl⟩

theorem cancelWaiter_isolated (hb : Balanced (books s)) (j : JobId) (inc : Incarnation) :
    Isolated s j inc (s.cancelWaiter j inc).2 := by
  have hgetw : ∀ (job : WorkerJob) (ws : List Waiter) (k : JobId),
      (s.withdrawn j job ws).jobs[k]? = if j = k then some { job with waiters := ws } else s.jobs[k]? :=
    fun job ws k => get_insert
  have hgetm : ∀ (job : WorkerJob) (ws : List Waiter) (k : JobId),
      ((s.withdrawn j job ws).marked j { job with waiters := ws }).jobs[k]? =
        if j = k then some { job with waiters := ws, cancelling := true } else s.jobs[k]? := by
    intro job ws k
    show ((s.jobs.insert j _).insert j _)[k]? = _
    rw [get_insert, get_insert]
    split_ifs <;> rfl
  have hcase := cancelWaiter_cases s j inc
  generalize s.cancelWaiter j inc = r at hcase
  cases hcase with
  | nothing h => exact ⟨fun k job hk w hw _ _ => ⟨job, hk, hw⟩, List.prefix_rfl, fun k job hk w hw => Or.inl ⟨job, hk, w, hw, rfl⟩⟩
  | others job ws n hj hk hw hn =>
    exact isolated_of_marked hj hw rfl ((hgetw job ws j).trans (if_pos rfl)) (fun k he => (hgetw job ws k).trans (if_neg he))
      rfl
  | inSubmit job ws hj hk hw hn hs =>
    exact isolated_of_marked hj hw rfl ((hgetm job ws j).trans (if_pos rfl)) (fun k he => (hgetm job ws k).trans (if_neg he))
      rfl
  | inStore job ws i hj hk hw hn hs =>
    exact isolated_of_marked hj hw rfl ((hgetm job ws j).trans (if_pos rfl)) (fun k he => (hgetm job ws k).trans (if_neg he))
      rfl
  | inQueue job ws hj hk hw hn hs =>
    have hid := hb.keyed j job hj
    have hzero := interested_last (hb.entry hj) hk hw hn
    have hunq : ((s.withdrawn j job ws).unqueue { job with waiters := ws }).jobs = (s.withdrawn j job ws).jobs ∧
        ((s.withdrawn j job ws).unqueue { job with waiters := ws }).completions = s.completions := by
      unfold State.unqueue
      cases job.cls <;> exact ⟨rfl, rfl⟩
    have hself : ((s.withdrawn j job ws).unqueue { job with waiters := ws }).jobs[j]? =
        some { job with waiters := ws } := by
      rw [hunq.1]
      exact (hgetw job ws j).trans (if_pos rfl)
    have hother : ∀ k : JobId, j ≠ k →
        (((s.withdrawn j job ws).unqueue { job with waiters := ws }).endJob j fun _ => .cancelled).jobs[k]? =
          s.jobs[k]? := by
      intro k he
      rw [jobs_endJob, if_neg he, hunq.1]
      exact (hgetw job ws k).trans (if_neg he)
    have hsent : (((s.withdrawn j job ws).unqueue { job with waiters := ws }).endJob j fun _ => .cancelled).completions =
        s.completions ++ (State.riders { job with waiters := ws }).map fun w =>
          { job := job.id, incarnation := w.inc, key := job.key, stage := job.stage, terminal := some .cancelled,
            publish := .notApplicable, bytes := job.payloadLen, holder := none } := by
      unfold State.endJob
      rw [hself]
      dsimp only
      rw [completions_finishJob]
      dsimp only
      rw [hunq.2]
      have hadopt : State.adopts { job with waiters := ws } .cancelled = false := by
        unfold State.adopts
        simp
      rw [hadopt]
      rfl
    refine ⟨fun k rec hkk w hwm hd hne => ?_, ?_, fun k rec hkk w hwm => ?_⟩
    · by_cases he : j = k
      · subst he
        rw [hj] at hkk
        cases hkk
        have hin := (detachWaiter_mem hw).1 w hwm (hne.resolve_left fun h => h rfl)
        have hall := List.countP_eq_zero.1 hzero w hin
        simp [hd] at hall
      · exact ⟨rec, (hother k he).trans hkk, hwm⟩
    · rw [hsent]
      exact List.prefix_append _ _
    · by_cases he : j = k
      · subst he
        rw [hj] at hkk
        cases hkk
        refine Or.inr ?_
        rw [hsent]
        have hmem : w.inc ∈ ws.map Waiter.inc := by
          rw [detachWaiter_incs hw]
          exact List.mem_map_of_mem hwm
        obtain ⟨w', hw', hwi⟩ := List.mem_map.1 hmem
        have hrider : w' ∈ State.riders { job with waiters := ws } := by
          unfold State.riders
          have hne : ws.isEmpty = false := by
            cases ws with
            | nil => cases hw'
            | cons _ _ => rfl
          dsimp only
          rw [hne]
          exact hw'
        refine ⟨_, List.mem_append_right _ (List.mem_map_of_mem hrider), ?_⟩
        simp [Completion.terminalOf, hwi, hid]
      · exact Or.inl ⟨rec, (hother k he).trans hkk, w, hwm, rfl⟩

end Cancel

/-! ## Every run -/

def System.cancels (y : System) (j : JobId) (inc : Incarnation) : System :=
  { y with
    state := (y.state.cancelWaiter j inc).2
    asked := ((y.state.cancelWaiter j inc).1.toOption.map fun i => (j, i)).toList ++ y.asked }

section Runs

variable {cfg : WorkerConfig} {y y' : System} {j i : JobId} {inc : Incarnation}

/-- Once, every rider that the job has ever had had withdrawn while the store had the job as `i`. -/
def System.Abandoned (cfg : WorkerConfig) (y : System) (j i : JobId) : Prop :=
  ∃ (y₀ : System) (job : WorkerJob), Run (.new cfg) y₀ ∧ Run y₀ y ∧ y₀.state.jobs[j]? = some job ∧
    job.status = .dispatched i ∧ AllLeft job.waiters ∧ ∀ inc, (j, inc) ∈ y.accepted → ∃ w ∈ job.waiters, w.inc = inc

/-- The riders of an open job are the requests that were let on to it. -/
theorem riding {job : WorkerJob} (h : Run (.new cfg) y) (hj : y.state.jobs[j]? = some job) :
    (job.waiters.map Waiter.inc).Nodup ∧ ∀ inc, (j, inc) ∈ y.accepted → ∃ w ∈ job.waiters, w.inc = inc := by
  have hfair := (run_sound h).2.fair
  have hriders : (desk (floor y.state) y.accepted y.polled).riders j = some (job.waiters.map Waiter.inc) := by
    have hcore : (floor y.state).jobs j = some job.core := cores_some hj
    show ((floor y.state).jobs j).map Core.riders = _
    rw [hcore]
    rfl
  exact ⟨hfair.distinct j _ hriders, fun inc hi => List.mem_map.1 ((hfair.riding j _ inc hriders).1 hi)⟩

theorem calls_abandoned (h : Run (.new cfg) y) (hc : y.Calls j i) :
    y.state.innerShutdownRequested = true ∨ (y.Left j ∧ y.Abandoned cfg j i) := by
  induction h with
  | refl =>
    rcases hc with hc | hc
    · cases hc
    · cases hc
  | tail hrun hstep ih =>
    have hsound := Sound.run hrun
    rcases calls_new hsound hstep hc with hold | hshut | ⟨job, hj, hst, hleft⟩
    · rcases ih hold with hshut | ⟨hl, y₀, job, h0, h1, hj, hst, hleft, hacc⟩
      · exact Or.inl (hsound.shut hstep hshut)
      · exact Or.inr ⟨hl.step hsound hstep, y₀, job, h0, h1.tail hstep, hj, hst, hleft,
          fun inc hi => hacc inc (hl.accepted hsound hstep hi)⟩
    · exact Or.inl hshut
    · refine Or.inr ⟨⟨?_, fun job' hj' => ?_⟩, _, job, hrun.tail hstep, .refl, hj, hst, hleft,
        (riding (hrun.tail hstep) hj).2⟩
      · exact (Sound.run (hrun.tail hstep)).balanced.below j job hj
      · rw [hj] at hj'
        cases hj'
        exact hleft

theorem quit_of_cancels {job : WorkerJob} (h : Run (.new cfg) y) (hj : y.state.jobs[j]? = some job)
    (hride : ∃ w ∈ job.waiters, w.inc = inc) : (y.cancels j inc).Quit j inc := by
  have hsound := Sound.run h
  have hstep : Step y (y.cancels j inc) := .cancelWaiter y j inc
  have hdistinct := (riding h hj).1
  refine ⟨Nat.lt_of_lt_of_le (hsound.balanced.below j job hj) (hsound.next_le hstep), fun job' hj' => ?_⟩
  have hj' : (y.state.cancelWaiter j inc).2.jobs[j]? = some job' := hj'
  have hmarked : ∀ ws, State.detachWaiter inc job.waiters = some ws → HasQuit inc ws := by
    intro ws hw
    refine ⟨?_, detachWaiter_self hw hdistinct⟩
    obtain ⟨w, hwm, hwi⟩ := hride
    have hmem : inc ∈ ws.map Waiter.inc := by
      rw [detachWaiter_incs hw]
      exact List.mem_map.2 ⟨w, hwm, hwi⟩
    exact List.mem_map.1 hmem
  have hcase := cancelWaiter_cases y.state j inc
  generalize y.state.cancelWaiter j inc = r at hcase hj'
  cases hcase with
  | nothing hnone =>
    rw [hj] at hj'
    cases hj'
    by_cases hf : job.kind = .flush
    · exact Or.inl hf
    · exact Or.inr ⟨hride, detachWaiter_none (hnone job hj hf)⟩
  | others rec ws n hrec hk hw hn =>
    rw [hj] at hrec
    cases hrec
    have hget : (y.state.jobs.insert j { job with waiters := ws })[j]? = some job' := hj'
    rw [get_insert, if_pos rfl] at hget
    obtain rfl := Option.some.inj hget
    exact Or.inr (hmarked ws hw)
  | inSubmit rec ws hrec hk hw hn hs =>
    rw [hj] at hrec
    cases hrec
    have hget : ((y.state.jobs.insert j { job with waiters := ws }).insert j
      { job with waiters := ws, cancelling := true })[j]? = some job' := hj'
    rw [get_insert, if_pos rfl] at hget
    obtain rfl := Option.some.inj hget
    exact Or.inr (hmarked ws hw)
  | inStore rec ws i hrec hk hw hn hs =>
    rw [hj] at hrec
    cases hrec
    have hget : ((y.state.jobs.insert j { job with waiters := ws }).insert j
      { job with waiters := ws, cancelling := true })[j]? = some job' := hj'
    rw [get_insert, if_pos rfl] at hget
    obtain rfl := Option.some.inj hget
    exact Or.inr (hmarked ws hw)
  | inQueue rec ws hrec hk hw hn hs =>
    rw [jobs_endJob, if_pos rfl] at hj'
    cases hj'

theorem System.Quit.cancel (hq : y.Quit j inc) : y.state.cancelWaiter j inc = (.error .tooLate, y.state) := by
  have hno : ∀ (job : WorkerJob) (ws : List Waiter), y.state.jobs[j]? = some job → job.kind ≠ .flush →
      State.detachWaiter inc job.waiters ≠ some ws := by
    intro job ws hj hk hw
    obtain ⟨w, hwm, hwi, hd⟩ := detachWaiter_found hw
    rcases hq.2 job hj with hf | hquit
    · exact hk hf
    · rw [hquit.2 w hwm hwi] at hd
      cases hd
  have hcase := cancelWaiter_cases y.state j inc
  generalize y.state.cancelWaiter j inc = r at hcase
  cases hcase with
  | nothing hnone => rfl
  | others job ws n hj hk hw hn => exact absurd hw (hno job ws hj hk)
  | inSubmit job ws hj hk hw hn hs => exact absurd hw (hno job ws hj hk)
  | inQueue job ws hj hk hw hn hs => exact absurd hw (hno job ws hj hk)
  | inStore job ws i hj hk hw hn hs => exact absurd hw (hno job ws hj hk)

theorem System.Quit.run (hq : y.Quit j inc) (h : Run (.new cfg) y) (hr : Run y y') : y'.Quit j inc := by
  induction hr with
  | refl => exact hq
  | tail hyz hstep ih => exact ih.step (Sound.run (h.trans hyz)) hstep

end Runs

/-- **A cancel is of one rider.** In every state of every run: the store is asked to cancel a job only once shutdown has
begun, or after every rider that the job has ever had had withdrawn; a cancel by one rider leaves the others their
interest and their terminals; and a cancel by a rider of the job makes every later one by it, whatever happens in
between, answer that it is too late and change nothing. -/
theorem cancel_is_isolated (cfg : WorkerConfig) (y : System) (h : Run (.new cfg) y) :
    (∀ j i, y.Calls j i → y.state.innerShutdownRequested = true ∨ y.Abandoned cfg j i) ∧
    (∀ j inc, Isolated y.state j inc (y.state.cancelWaiter j inc).2) ∧
    ∀ (j : JobId) (inc : Incarnation) (job : WorkerJob), y.state.jobs[j]? = some job →
      (∃ w ∈ job.waiters, w.inc = inc) → ∀ y', Run (y.cancels j inc) y' →
        y'.state.cancelWaiter j inc = (.error .tooLate, y'.state) := by
  refine ⟨fun j i hc => ?_, cancelWaiter_isolated (Sound.run h).balanced, fun j inc job hj hride y' hr => ?_⟩
  · rcases calls_abandoned h hc with hshut | ⟨-, hab⟩
    · exact Or.inl hshut
    · exact Or.inr hab
  · exact ((quit_of_cancels h hj hride).run (h.tail (.cancelWaiter y j inc)) hr).cancel

theorem cancel_is_isolated_oneStore : Run (.new {}) oneStore ∧
    (oneStore.cancels 1 flushInc).state.cancelWaiter 1 flushInc = (.error .tooLate, (oneStore.cancels 1 flushInc).state) :=
  ⟨run_oneStore, (cancel_is_isolated {} oneStore run_oneStore).2.2 1 flushInc _ rfl ⟨_, List.mem_cons_self, rfl⟩ _ .refl⟩

end SovereignCore.Store
