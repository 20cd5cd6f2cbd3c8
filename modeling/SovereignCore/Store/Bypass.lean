import SovereignCore.Lib.Turns
import SovereignCore.Store.Terminals

/-!
# Who goes next at the storage worker

`pop_next_to_dispatch` counts three credits for the restores that go before a waiting park. A credit is only lost, and
the credits only come back, with a job that is dispatched: every queued id is the id of an open job, so the loop never
goes round twice.

* `turnsOf` : the credits and the dispatch log; every function but the hand-over leaves them as they are;
* `Lined` : every queued id is the id of an open job of the queue's class;
* `handOver_credited` : the hand-over follows the rules of `Turn.Credited`;
* `Credits.run` : so does every run.
-/

namespace SovereignCore.Store

open Std Table

def DispatchEntry.turn (e : DispatchEntry) : Turn := ⟨e.cls = .restore, e.otherWaits⟩

def State.turns (s : State) : List Turn := s.dispatchLog.map DispatchEntry.turn

/-! ## What the dispatcher remembers -/

def turnsOf (s : State) : Nat × List DispatchEntry := (s.restoreCredits, s.dispatchLog)

section Kept

variable (s : State) {s' : State} {j id : JobId} {inc : Incarnation} {st : StoreState} {len : Option Nat} {key : ChunkKey}
variable {e : ChunkHeader} {src : PinnedSource} {dst : PinnedDest} {t : LoadTicket} {ns : NamespaceId}

theorem turnsOf_returnCredits (job : WorkerJob) : turnsOf (s.returnCredits job) = turnsOf s := by
  unfold State.returnCredits
  cases job.cls <;> rfl

theorem turnsOf_returnSlot (job : WorkerJob) : turnsOf (s.returnSlot job) = turnsOf s := by
  unfold State.returnSlot
  cases job.status <;> rfl

theorem turnsOf_releaseKey (job : WorkerJob) : turnsOf (s.releaseKey job) = turnsOf s := by
  unfold State.releaseKey
  dsimp only
  split_ifs <;> rfl

theorem turnsOf_countEnd (job : WorkerJob) (t : Terminal) (stage : JobStage) :
    turnsOf (s.countEnd job t stage) = turnsOf s := by
  unfold State.countEnd
  dsimp only
  split_ifs <;> rfl

theorem turnsOf_finishJob (job : WorkerJob) (t : Terminal) (stage : JobStage) (p : PublishOutcome) :
    turnsOf (s.finishJob job t stage p) = turnsOf s := by
  have h := turnsOf_countEnd (((s.returnCredits job).returnSlot job).releaseKey job) job t stage
  rw [turnsOf_releaseKey, turnsOf_returnSlot, turnsOf_returnCredits] at h
  unfold State.finishJob
  dsimp only
  split_ifs
  · exact h
  · exact h

theorem turnsOf_endJob (j : JobId) (f : WorkerJob → Terminal) : turnsOf (s.endJob j f) = turnsOf s := by
  unfold State.endJob
  cases s.jobs[j]? with
  | none => rfl
  | some job => exact turnsOf_finishJob _ job _ _ _

theorem turnsOf_endJobs (f : WorkerJob → Terminal) (ids : List JobId) :
    turnsOf (ids.foldl (fun s id => s.endJob id f) s) = turnsOf s := by
  induction ids generalizing s with
  | nil => rfl
  | cons j ids ih => rw [List.foldl_cons, ih, turnsOf_endJob]

theorem turnsOf_reapOrphans : turnsOf s.reapOrphans = turnsOf s := turnsOf_endJobs s _ _

theorem turnsOf_beginShutdown (drop : Bool) : turnsOf (s.beginShutdown drop).1 = turnsOf s := by
  unfold State.beginShutdown State.cancelUnstarted
  exact turnsOf_endJobs _ _ _

theorem turnsOf_tryAttach (h : s.tryAttach j inc = .ok s') : turnsOf s' = turnsOf s := by
  unfold State.tryAttach at h
  split at h
  · cases h
  · split_ifs at h
    split at h
    · cases h
      rfl
    all_goals cases h

theorem turnsOf_attachLoad (h : s.attachLoad st key inc = .ok (some (t, s'))) : turnsOf s' = turnsOf s := by
  unfold State.attachLoad at h
  obtain ⟨_, -, h⟩ := Result.bind_ok.1 h
  split at h
  · cases h
  · obtain ⟨s₁, h₁, h⟩ := Result.bind_ok.1 h
    cases h
    exact turnsOf_tryAttach s h₁

theorem turnsOf_submitLoad (h : s.submitLoad st len key e dst inc = .ok (id, s')) : turnsOf s' = turnsOf s := by
  unfold State.submitLoad at h
  obtain ⟨_, -, h⟩ := Result.bind_ok.1 h
  obtain ⟨n, -, h⟩ := Result.bind_ok.1 h
  obtain ⟨_, -, h⟩ := Result.bind_ok.1 h
  cases h
  rfl

theorem turnsOf_submitLoadCoalesced (h : s.submitLoadCoalesced st len key e dst inc = .ok (t, s')) :
    turnsOf s' = turnsOf s := by
  unfold State.submitLoadCoalesced at h
  obtain ⟨r, hr, h⟩ := Result.bind_ok.1 h
  cases r with
  | some r =>
    cases h
    exact turnsOf_attachLoad s hr
  | none =>
    obtain ⟨n, -, h⟩ := Result.bind_ok.1 h
    obtain ⟨_, -, h⟩ := Result.bind_ok.1 h
    cases h
    rfl

theorem turnsOf_joinStore (h : s.joinStore j key inc = .ok (id, s')) : turnsOf s' = turnsOf s := by
  unfold State.joinStore at h
  dsimp only at h
  split_ifs at h
  · cases h
    rfl
  · split at h
    · rename_i s₁ h₁
      cases h
      exact turnsOf_tryAttach s h₁
    · cases h

theorem turnsOf_submitStore (h : s.submitStore ns st e src inc = .ok (id, s')) : turnsOf s' = turnsOf s := by
  unfold State.submitStore at h
  obtain ⟨_, -, h⟩ := Result.bind_ok.1 h
  obtain ⟨_, -, h⟩ := Result.bind_ok.1 h
  split at h
  · exact turnsOf_joinStore s h
  · obtain ⟨_, -, h⟩ := Result.bind_ok.1 h
    cases h
    rfl

theorem turnsOf_submitFlush (h : s.submitFlush st inc = .ok (id, s')) : turnsOf s' = turnsOf s := by
  unfold State.submitFlush at h
  obtain ⟨_, -, h⟩ := Result.bind_ok.1 h
  obtain ⟨_, -, h⟩ := Result.bind_ok.1 h
  cases h
  rfl

theorem turnsOf_attachWaiter (h : s.attachWaiter j inc = .ok s') : turnsOf s' = turnsOf s := by
  unfold State.attachWaiter at h
  split_ifs at h
  exact turnsOf_tryAttach s h

theorem turnsOf_unqueue (job : WorkerJob) : turnsOf (s.unqueue job) = turnsOf s := by
  unfold State.unqueue
  cases job.cls <;> rfl

theorem turnsOf_cancelWaiter (j : JobId) (inc : Incarnation) : turnsOf (s.cancelWaiter j inc).2 = turnsOf s := by
  unfold State.cancelWaiter
  split
  · rfl
  · split_ifs
    · rfl
    · split
      · rfl
      · dsimp only
        split
        · rfl
        · split
          · rfl
          · dsimp only
            rw [turnsOf_endJob, turnsOf_unqueue]
            rfl
          · rfl

theorem turnsOf_register (j : JobId) (res : Except PlatformError JobId) : turnsOf (s.register j res).1 = turnsOf s := by
  unfold State.register
  cases res with
  | error _ => exact turnsOf_endJob s j _
  | ok i =>
    dsimp only
    split
    · rfl
    · split_ifs <;> rfl

theorem turnsOf_reapOne (c : Completion) : turnsOf (s.reapOne c) = turnsOf s := by
  unfold State.reapOne
  split
  · rfl
  · split
    · rfl
    · split
      · rfl
      · split
        · split_ifs <;> rfl
        · exact turnsOf_finishJob _ _ _ _ _

theorem turnsOf_reap (comps : List Completion) : turnsOf (s.reap comps) = turnsOf s := by
  unfold State.reap
  induction comps generalizing s with
  | nil => rfl
  | cons c comps ih => rw [List.foldl_cons, ih, turnsOf_reapOne]

end Kept

/-! ## Every queued id is an open job's -/

def Lined (v : Floor) : Prop := v.closed = false → ∀ cls, ∀ j ∈ v.queue cls, ∃ c, v.jobs j = some c ∧ c.cls = cls

theorem Stands.up_of_open {v : Floor} {n : Inner} {t : Thread} (h : Stands v n t) (ho : v.closed = false) :
    Up v t n t.hand := by
  cases h with
  | up _ _ _ h => exact h
  | unwinding hc =>
    rw [ho] at hc
    cases hc
  | exited hc _ =>
    rw [ho] at hc
    cases hc

namespace Lined

variable {v v' : Floor} {n : Inner} {t : Thread} {j : JobId} {c k : Core} {inc : Incarnation}

theorem open_of_mem (h : Lined v) (hup : Up v t n t.hand) (ho : v.closed = false) {cls : Class} (hj : j ∈ v.queue cls) :
    ∃ c, v.jobs j = some c ∧ c.cls = cls ∧ c.status = .queued ∧ c.loaded = true := by
  obtain ⟨c, hc, hcls⟩ := h ho cls j hj
  exact ⟨c, hc, hcls, hup.queued j (mem_waiting.2 ⟨cls, hj⟩) c hc⟩

theorem putBack (h : Lined v) (hj : v.jobs j = some c) (hk : k.cls = c.cls)
    (hjobs : v'.jobs = Function.update v.jobs j (some k)) (hq : ∀ cls, ∀ x ∈ v'.queue cls, x ∈ v.queue cls)
    (hclosed : v'.closed = v.closed) : Lined v' := by
  intro ho cls x hx
  obtain ⟨d, hd, hcls⟩ := h (hclosed ▸ ho) cls x (hq cls x hx)
  rw [hjobs, Function.update_apply]
  split_ifs with he
  · rw [he, hj] at hd
    cases hd
    exact ⟨k, rfl, hk.trans hcls⟩
  · exact ⟨d, hd, hcls⟩

theorem shrinks (h : Lined v) (hjobs : v'.jobs = v.jobs) (hq : ∀ cls, ∀ x ∈ v'.queue cls, x ∈ v.queue cls)
    (hclosed : v'.closed = v.closed) : Lined v' := by
  intro ho cls x hx
  rw [hjobs]
  exact h (hclosed ▸ ho) cls x (hq cls x hx)

theorem accepts (h : Lined v) (hst : Stands v n t) (ha : Accepts v j inc v') : Lined v' := by
  cases ha with
  | opens cls ho hj =>
    intro _ cls' x hx
    have hup := hst.up_of_open ho
    by_cases hnew : x = v.next
    · subst hnew
      refine ⟨_, Function.update_self .., ?_⟩
      -- an id that was never given out is in no queue
      have hcls : cls' = cls := by
        by_contra hne
        have hx' : v.next ∈ v.queue cls' := by simpa [Floor.opens, Function.update_of_ne hne] using hx
        exact absurd (hup.waiting_below _ (mem_waiting.2 ⟨cls', hx'⟩)) (Nat.lt_irrefl _)
      exact hcls.symm
    · have hx' : x ∈ v.queue cls' := by
        simp only [Floor.opens, Function.update_apply] at hx
        split_ifs at hx with he
        · rcases List.mem_append.1 hx with hx | hx
          · exact he ▸ hx
          · exact absurd (List.mem_singleton.1 hx) hnew
        · exact hx
      obtain ⟨c, hc, hcls⟩ := h ho cls' x hx'
      exact ⟨c, by simpa [Floor.opens, Function.update_of_ne hnew] using hc, hcls⟩
  | joins c hc _ => exact h.putBack (k := { c with riders := c.riders ++ [inc] }) hc rfl rfl (fun _ _ => id) rfl
  | again c hc _ => exact h

theorem endAt (h : Lined v) (hj : v.closed = false → ∀ cls, j ∉ v.queue cls) : Lined (v.endAt j) := by
  unfold Floor.endAt
  cases hc : v.jobs j with
  | none => exact h
  | some c =>
    intro ho cls x hx
    have hne : x ≠ j := by
      rintro rfl
      exact hj ho cls hx
    obtain ⟨d, hd, hcls⟩ := h ho cls x hx
    exact ⟨d, by simpa [Floor.ends, Function.update_of_ne hne] using hd, hcls⟩

theorem endAt_queue : (v.endAt j).queue = v.queue := by
  unfold Floor.endAt
  cases v.jobs j <;> rfl

theorem endAll (ids : List JobId) (h : Lined v) (hids : v.closed = false → ∀ j ∈ ids, ∀ cls, j ∉ v.queue cls) :
    Lined (ids.foldl Floor.endAt v) := by
  induction ids generalizing v with
  | nil => exact h
  | cons j ids ih =>
    refine ih (h.endAt fun ho => hids ho j (by simp)) fun ho x hx cls => ?_
    rw [endAt_queue]
    rw [endAt_flags.1] at ho
    exact hids ho x (List.mem_cons_of_mem _ hx) cls

theorem not_mem_of_status {l : List JobId} (hup : Up v t n l) (hc : v.jobs j = some c) (hs : c.status ≠ .queued) (cls : Class) :
    j ∉ v.queue cls := fun hj => hs (hup.queued j (mem_waiting.2 ⟨cls, hj⟩) c hc).1

theorem dispatch (h : Lined v) (hst : Stands v n t) (hd : Dispatch v v') : Lined v' := by
  have hpop : ∀ (cls : Class) (rest : List JobId) (j : JobId), v.queue cls = j :: rest →
      ∀ cls', ∀ x ∈ Function.update v.queue cls rest cls', x ∈ v.queue cls' := by
    intro cls rest j hq cls' x hx
    rw [Function.update_apply] at hx
    split_ifs at hx with he
    · rw [he, hq]
      exact List.mem_cons_of_mem _ hx
    · exact hx
  cases hd with
  | skips cls j rest ho hq hj => exact h.shrinks rfl (hpop cls rest j hq) rfl
  | lends cls j rest c ho hq hj hl =>
    have hid : c.id = j := (hst.up_of_open ho).keyed j c hj
    have hc := hj
    rw [← hid] at hc
    exact h.putBack (k := { c with status := .dispatching, loaded := false }) hc rfl rfl (hpop cls rest j hq) rfl
  | stuck cls j rest c ho hq hj hl => exact h.shrinks rfl (hpop cls rest j hq) rfl

theorem dispatches (h : Lined v) (hst : Stands v n t) (hd : Relation.ReflTransGen Dispatch v v') : Lined v' := by
  induction hd with
  | refl => exact h
  | tail hsteps hstep ih => exact ih.dispatch (hst.dispatches hsteps) hstep

section Calls

variable {s : State}

theorem reapOrphans (h : Lined (floor s)) (hst : Stands (floor s) n t) : Lined (floor s.reapOrphans) := by
  rw [floor_reapOrphans]
  refine h.endAll _ fun ho j hj cls hmem => ?_
  have hup := hst.up_of_open ho
  obtain ⟨c, hc, -, hs, -⟩ := h.open_of_mem hup ho hmem
  obtain ⟨i, hi, -⟩ := hup.orphan j c hc (orphaned_of_reapable hup.keyed hj hc)
  rw [hs] at hi
  cases hi

theorem cancelWaiter (h : Lined (floor s)) (hst : Stands (floor s) n t) (j : JobId) (inc : Incarnation) :
    Lined (floor (s.cancelWaiter j inc).2) := by
  rcases floor_cancelWaiter s j inc with heq | ⟨c, hc, hs, heq⟩
  · rw [heq]
    exact h
  · rw [heq]
    have hfilter : ∀ cls, ∀ x ∈ Function.update (floor s).queue c.cls (((floor s).queue c.cls).filter (· ≠ c.id)) cls,
        x ∈ (floor s).queue cls := by
      intro cls x hx
      rw [Function.update_apply] at hx
      split_ifs at hx with he
      · rw [he]
        exact List.mem_of_mem_filter hx
      · exact hx
    refine Lined.endAt (h.shrinks rfl hfilter rfl) fun ho cls hmem => ?_
    have hup := hst.up_of_open ho
    -- the job's id left the queue of its class, and it is in no other
    have hmem : j ∈ Function.update (floor s).queue c.cls (((floor s).queue c.cls).filter (· ≠ c.id)) cls := hmem
    obtain ⟨d, hd, hcls⟩ := h ho cls j (hfilter cls j hmem)
    rw [hc] at hd
    cases hd
    rw [← hcls, Function.update_self, hup.keyed j c hc] at hmem
    simp at hmem

theorem registered {res : Except PlatformError JobId} (h : Lined (floor s))
    (hup : Up (floor s) (.answered j res) n [j]) : Lined (floor (s.register j res).1) := by
  obtain ⟨c, hc, hs, -⟩ := hup.answered j res rfl
  cases res with
  | error e =>
    rw [floor_register_error]
    exact h.endAt fun _ => not_mem_of_status hup hc (by rw [hs]; simp)
  | ok i =>
    rcases floor_register_ok (i := i) hc with ⟨-, heq⟩ | ⟨-, heq⟩
    · rw [heq]
      exact h.putBack (k := { c with status := .dispatched i, orphaned := true }) hc rfl rfl (fun _ _ => id) rfl
    · rw [heq]
      exact h.putBack (k := { c with status := .dispatched i }) hc rfl rfl (fun _ _ => id) rfl

theorem reapOne {d : Completion} {ds : List Completion} (h : Lined (floor s))
    (hup : Up (floor s) (.reaping (d :: ds)) n []) : Lined (floor (s.reapOne d)) := by
  rcases floor_reapOne s d with ⟨heq, -⟩ | ⟨x, k, how, hk, -, ⟨-, heq⟩ | ⟨-, heq⟩⟩
  · rw [heq]
    exact h
  · rw [heq]
    exact h.shrinks rfl (fun _ _ => id) rfl
  · obtain ⟨-, k', hk', hs⟩ := hup.owner_open d.job x how
    rw [hk] at hk'
    cases hk'
    have hend : (floor s).endAt x = (floor s).ends x k := by
      unfold Floor.endAt
      rw [hk]
    rw [heq, ← hend]
    exact h.endAt fun _ => not_mem_of_status hup hk (by rw [hs]; simp)

theorem reap {ds : List Completion} (h : Lined (floor s)) (hup : Up (floor s) (.reaping ds) n []) :
    Lined (floor (s.reap ds)) := by
  unfold State.reap
  induction ds generalizing s with
  | nil => exact h
  | cons d ds ih => exact ih (h.reapOne hup) hup.reapOne

end Calls

theorem of_closed (hc : v.closed = true) : Lined v := by
  intro ho
  rw [hc] at ho
  cases ho

theorem step {y y' : System} (h : Lined (floor y.state)) (hst : Stands (floor y.state) y.inner y.thread)
    (hs : Step y y') : Lined (floor y'.state) := by
  cases hs with
  | submitStore ns store header src inc id s hok => exact h.accepts hst (submitStore_accepts hok)
  | submitLoad store len key expect dst inc id s hok => exact h.accepts hst (submitLoad_accepts hok)
  | attachLoad store key inc t s hok => exact h.accepts hst (attachLoad_accepts hok)
  | submitLoadCoalesced store len key expect dst inc t s hok => exact h.accepts hst (submitLoadCoalesced_accepts hok)
  | submitFlush store inc id s hok => exact h.accepts hst (submitFlush_accepts hok)
  | attachWaiter job inc s hok => exact h.accepts hst (attachWaiter_accepts hok)
  | poll max =>
    dsimp only
    rw [floor_poll]
    exact (h.reapOrphans hst).shrinks rfl (fun _ _ => id) rfl
  | cancelWaiter job inc => exact h.cancelWaiter hst job inc
  | cancelAnswered pre post job inner out hask =>
    dsimp only
    split_ifs
    · rw [floor_cancelRefused]
      exact h
    · exact h
  | pauseDispatch => exact h
  | resumeDispatch =>
    exact Lined.dispatches (v := floor { y.state with paused := false }) h hst (handOver_dispatch _)
  | beginShutdown drop =>
    dsimp only
    rw [floor_beginShutdown]
    refine of_closed ?_
    rw [(endAll_flags _).1]
  | reapOrphans => exact h.reapOrphans hst
  | take g s ht hg =>
    obtain ⟨v, rest, hd, -, heq⟩ := takeHanded_dispatch hg
    dsimp only
    rw [heq]
    exact (h.dispatches hst hd).shrinks rfl (fun _ _ => id) rfl
  | idle ht => exact h.dispatches hst (handOver_dispatch _)
  | submit g res n ht hn => exact h
  | register id res ht =>
    rw [ht] at hst
    cases hst with
    | up _ _ _ hup => exact h.registered hup
  | forwarded id inner out ht =>
    dsimp only
    split_ifs
    · rw [floor_cancelRefused]
      exact h
    · exact h
  | innerShutdown ht hreq => exact h
  | innerPoll comps n ht hn => exact h
  | reap comps ht =>
    rw [ht] at hst
    cases hst with
    | up _ _ _ hup => exact h.reap hup
  | exit ht hd hc => exact h.reapOrphans hst
  | panic ht hu =>
    dsimp only
    rw [floor_panic]
    exact of_closed rfl
  | orphanAll ht =>
    rw [ht] at hst
    refine of_closed ?_
    dsimp only
    rw [floor_orphanAll, (endAll_flags _).1]
    cases hst with
    | up _ hu _ _ => exact absurd rfl hu
    | unwinding hc => exact hc
  | leaseBack id =>
    dsimp only
    rw [floor_returnLeases]
    exact h

end Lined

/-! ## The hand-over -/

def Credits (s : State) : Prop := Turn.Credited 3 s.restoreCredits s.turns

namespace Credits

variable {s s' : State} {n : Inner} {t : Thread}

theorem kept (h : Credits s) (hs : turnsOf s' = turnsOf s) : Credits s' := by
  obtain ⟨hc, hl⟩ := Prod.ext_iff.1 hs
  have hc : s'.restoreCredits = s.restoreCredits := hc
  have hl : s'.dispatchLog = s.dispatchLog := hl
  unfold Credits State.turns
  rw [hc, hl]
  exact h

theorem popQueue_restore {r : JobId} {rs : List JobId} (h : s.restoreQueue = r :: rs) :
    s.popQueue .restore = some (r, { s with restoreQueue := rs }) := by
  unfold State.popQueue
  simp only [h]

theorem popQueue_park {p : JobId} {ps : List JobId} (h : s.parkQueue = p :: ps) :
    s.popQueue .park = some (p, { s with parkQueue := ps }) := by
  unfold State.popQueue
  simp only [h]

/-- The class that is chosen, and what choosing it means for the credits. -/
theorem nextClass {cls : Class} {s₁ : State} (h : Credits s) (hn : s.nextClass = some (cls, s₁)) :
    ∃ id rest, (floor s).queue cls = id :: rest ∧ ∃ s₂, s₁.popQueue cls = some (id, s₂) ∧ s₂.jobs = s.jobs ∧
      s₂.dispatchLog = s.dispatchLog ∧
      Turn.Credited 3 s₂.restoreCredits (s.turns ++ [⟨cls = .restore, s₂.otherWaits cls⟩]) := by
  unfold Credits at h
  unfold State.nextClass at hn
  cases hr : s.restoreQueue with
  | nil =>
    cases hp : s.parkQueue with
    | nil =>
      rw [hr, hp] at hn
      cases hn
    | cons p ps =>
      rw [hr, hp] at hn
      cases hn
      refine ⟨p, ps, hp, _, popQueue_park rfl, rfl, rfl, ?_⟩
      simpa [State.otherWaits, hr] using h.yield (by decide)
  | cons r rs =>
    cases hp : s.parkQueue with
    | nil =>
      rw [hr, hp] at hn
      cases hn
      refine ⟨r, rs, hr, _, popQueue_restore hr, rfl, rfl, ?_⟩
      have hle : s.restoreCredits ≤ 3 := (Nat.le_add_left _ _).trans h.left
      simpa [State.otherWaits, hp] using h.idle hle
    | cons p ps =>
      rw [hr, hp] at hn
      dsimp only at hn
      split_ifs at hn with hc
      · cases hn
        refine ⟨r, rs, hr, _, popQueue_restore rfl, rfl, rfl, ?_⟩
        obtain ⟨k, hk⟩ := Nat.exists_eq_succ_of_ne_zero hc.ne'
        rw [hk] at h
        simpa [State.otherWaits, hp, hk] using h.pass
      · cases hn
        refine ⟨p, ps, hp, _, popQueue_park rfl, rfl, rfl, ?_⟩
        have h0 : s.restoreCredits = 0 := Nat.eq_zero_of_not_pos hc
        rw [h0] at h
        simpa [State.otherWaits, hr] using h.turn (by decide)

/-- No round of the loop is wasted: the id it takes is of an open job, whose payload is still there. -/
theorem popLoop (k : Nat) (h : Credits s) (hl : Lined (floor s)) (hup : Up (floor s) t n t.hand)
    (ho : s.closed = false) : Credits (State.popLoop k s).2 := by
  cases k with
  | zero => exact h
  | succ k =>
    rw [State.popLoop]
    cases hn : s.nextClass with
    | none => exact h
    | some r =>
      obtain ⟨cls, s₁⟩ := r
      obtain ⟨id, rest, hq, s₂, hpop, hjobs, hlog, hcred⟩ := h.nextClass hn
      obtain ⟨c, hc, -, -, hloaded⟩ := hl.open_of_mem hup ho (show id ∈ _ from by rw [hq]; simp)
      obtain ⟨job, hjob, rfl⟩ := Option.map_eq_some_iff.1 hc
      obtain ⟨payload, hp⟩ := Option.isSome_iff_exists.1 hloaded
      have hjob₂ : s₂.jobs[id]? = some job := by rw [hjobs]; exact hjob
      simp only [hpop, hjob₂, hp]
      unfold Credits State.turns State.lend
      dsimp only
      rw [hlog, List.map_append]
      exact hcred

theorem popNextToDispatch (h : Credits s) (hl : Lined (floor s)) (hst : Stands (floor s) n t) :
    Credits s.popNextToDispatch.2 := by
  unfold State.popNextToDispatch
  split_ifs with h1 h2
  · exact h
  · exact h
  · simp only [Bool.or_eq_true, not_or, Bool.not_eq_true] at h1
    exact h.popLoop _ hl (hst.up_of_open h1.1.2) h1.1.2

theorem handOverLoop (k : Nat) (h : Credits s) (hl : Lined (floor s)) (hst : Stands (floor s) n t) :
    Credits (State.handOverLoop k s) := by
  induction k generalizing s with
  | zero => exact h
  | succ k ih =>
    have hd := popNextToDispatch_dispatch s
    have hc := h.popNextToDispatch hl hst
    rw [State.handOverLoop]
    cases hp : s.popNextToDispatch with
    | mk o s₁ =>
      rw [hp] at hd hc
      cases o with
      | none => exact hc
      | some g => exact ih (s := { s₁ with handed := s₁.handed ++ [g] }) hc (hl.dispatches hst hd) (hst.dispatches hd)

theorem handOver (h : Credits s) (hl : Lined (floor s)) (hst : Stands (floor s) n t) : Credits s.handOver :=
  h.handOverLoop _ hl hst

theorem step {y y' : System} (h : Credits y.state) (hl : Lined (floor y.state))
    (hst : Stands (floor y.state) y.inner y.thread) (hs : Step y y') : Credits y'.state := by
  cases hs with
  | submitStore ns store header src inc id s hok => exact h.kept (turnsOf_submitStore _ hok)
  | submitLoad store len key expect dst inc id s hok => exact h.kept (turnsOf_submitLoad _ hok)
  | attachLoad store key inc t s hok => exact h.kept (turnsOf_attachLoad _ hok)
  | submitLoadCoalesced store len key expect dst inc t s hok => exact h.kept (turnsOf_submitLoadCoalesced _ hok)
  | submitFlush store inc id s hok => exact h.kept (turnsOf_submitFlush _ hok)
  | attachWaiter job inc s hok => exact h.kept (turnsOf_attachWaiter _ hok)
  | poll max => exact h.kept (turnsOf_reapOrphans _)
  | cancelWaiter job inc => exact h.kept (turnsOf_cancelWaiter _ job inc)
  | cancelAnswered pre post job inner out hask =>
    dsimp only
    split_ifs
    · exact h
    · exact h
  | pauseDispatch => exact h
  | resumeDispatch => exact Credits.handOver (s := { y.state with paused := false }) h hl hst
  | beginShutdown drop => exact h.kept (turnsOf_beginShutdown _ drop)
  | reapOrphans => exact h.kept (turnsOf_reapOrphans _)
  | take g s ht hg =>
    have hc := h.handOver hl hst
    unfold State.takeHanded at hg
    dsimp only at hg
    split at hg
    · cases hg
    · cases hg
      exact hc
  | idle ht => exact h.handOver hl hst
  | submit g res n ht hn => exact h
  | register id res ht => exact h.kept (turnsOf_register _ id res)
  | forwarded id inner out ht =>
    dsimp only
    split_ifs
    · exact h
    · exact h
  | innerShutdown ht hreq => exact h
  | innerPoll comps n ht hn => exact h
  | reap comps ht => exact h.kept (turnsOf_reap _ comps)
  | exit ht hd hc => exact h.kept (turnsOf_reapOrphans _)
  | panic ht hu => exact h
  | orphanAll ht => exact h.kept (turnsOf_reapOrphans y.state.orphanJobs)
  | leaseBack id => exact h

theorem run {cfg : WorkerConfig} {y : System} (hr : Run (System.new cfg) y) : Credits y.state := by
  suffices h : Credits y.state ∧ Lined (floor y.state) from h.1
  induction hr with
  | refl =>
    refine ⟨.nil, fun _ cls j hj => ?_⟩
    cases cls <;> cases hj
  | tail hsteps hs ih =>
    have hst := (run_sound hsteps).1
    exact ⟨ih.1.step ih.2 hst hs, ih.2.step hst hs⟩

end Credits

end SovereignCore.Store
