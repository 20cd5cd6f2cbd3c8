import SovereignCore.Store.Accounts

/-!
# The worker's jobs and the store's

A job of the store is of the kind and the key of the worker's job that it was accepted for. So the store never answers
with the id of another live job: the worker has one live store job per key. And a progress report always finds a store
job. With this every step of the system is one of the changes of the books.

* `Linked` : the kinds and keys agree wherever a job is on its way to the store or back;
* `Sound`, `Sound.turns`, `Sound.run` : what a step does to the books, and that they balance in every state of every run;
* `worker_accounts` : every counter is its sum over the open jobs, and is never decreased below zero.
-/

namespace SovereignCore.Store

open Std Table

/-- How the riders of an open job change: one joins while another wants the job, or one withdraws. -/
inductive Riders : List Waiter → List Waiter → Prop
  | joins (ws : List Waiter) (inc : Incarnation) (hi : ∀ w ∈ ws, w.inc ≠ inc) (hw : ∃ w ∈ ws, w.detached = false) :
      Riders ws (ws ++ [{ inc := inc }])
  | withdraws (ws ws' : List Waiter) (inc : Incarnation) (h : State.detachWaiter inc ws = some ws') : Riders ws ws'

/-- The jobs that are still open are of their old kinds and keys, and no entry of `by_inner` is new. -/
structure Keeps (b b' : Books) : Prop where
  next : b'.next = b.next
  shut : b.shut = true → b'.shut = true
  jobs : ∀ (j : JobId) (job' : WorkerJob), b'.jobs[j]? = some job' → ∃ job, b.jobs[j]? = some job ∧
    job.kind = job'.kind ∧ job.key = job'.key ∧ Relation.ReflTransGen Riders job.waiters job'.waiters
  inner : ∀ i j : JobId, b'.byInner[i]? = some j → b.byInner[i]? = some j

namespace Keeps

variable {b b' b'' : Books} {P : Books → WorkerJob → Prop}

/-- The jobs and `by_inner` are as they were. -/
theorem same (hjobs : b'.jobs = b.jobs) (hinner : b'.byInner = b.byInner) (hnext : b'.next = b.next)
    (hshut : b.shut = true → b'.shut = true) : Keeps b b' where
  next := hnext
  shut := hshut
  jobs := fun j job h => ⟨job, hjobs ▸ h, rfl, rfl, .refl⟩
  inner := fun i j h => hinner ▸ h

theorem trans (h : Keeps b b') (h' : Keeps b' b'') : Keeps b b'' where
  next := h'.next.trans h.next
  shut := fun hs => h'.shut (h.shut hs)
  jobs := by
    intro j job'' hj
    obtain ⟨job', hj', hk', hy', hr'⟩ := h'.jobs j job'' hj
    obtain ⟨job, hj, hk, hy, hr⟩ := h.jobs j job' hj'
    exact ⟨job, hj, hk.trans hk', hy.trans hy', hr.trans hr'⟩
  inner := fun i j hi => h.inner i j (h'.inner i j hi)

theorem put {j : JobId} {job job' : WorkerJob} (hj : b.jobs[j]? = some job) (hjobs : b'.jobs = b.jobs.insert j job')
    (hk : job.kind = job'.kind) (hy : job.key = job'.key)
    (hr : Relation.ReflTransGen Riders job.waiters job'.waiters) (hnext : b'.next = b.next) (hshut : b'.shut = b.shut)
    (hinner : b'.byInner = b.byInner) : Keeps b b' where
  next := hnext
  shut := fun hs => hshut.trans hs
  jobs := by
    intro k rec hrec
    rw [hjobs, get_insert] at hrec
    split_ifs at hrec with he
    · subst he
      cases hrec
      exact ⟨job, hj, hk, hy, hr⟩
    · exact ⟨rec, hrec, rfl, rfl, .refl⟩
  inner := by
    intro i j h
    rwa [hinner] at h

theorem move (h : Balanced b) (hm : Move P b b') : Keeps b b' := by
  cases hm with
  | joins j job inc t hj hk hc hi hroom ht =>
    refine put hj rfl rfl rfl (.single (.joins _ inc hi ?_)) rfl rfl rfl
    exact h.wanted hj (Or.inr ⟨t, ht⟩)
  | withdraws j job inc ws hj hk hw hp => exact put hj rfl rfl rfl (.single (.withdraws _ _ inc hw)) rfl rfl rfl
  | revises m hm hc =>
    refine ⟨rfl, id, fun j job' hj => ?_, fun i j h => h⟩
    have hj' := hm j
    rw [show m[j]? = some job' from hj] at hj'
    obtain ⟨job, hj, he⟩ := Option.map_eq_some_iff.1 hj'.symm
    have hkind : job.account.kind = job'.account.kind := congrArg WorkerJob.kind he
    have hkey : job.account.key = job'.account.key := congrArg WorkerJob.key he
    have hws : job.account.waiters = job'.account.waiters := congrArg WorkerJob.waiters he
    refine ⟨job, hj, hkind, hkey, ?_⟩
    show Relation.ReflTransGen Riders job.account.waiters job'.account.waiters
    rw [hws]
  | lends j job cls payload hj hl =>
    have hid := h.keyed j job hj
    have hlent : (State.lent job payload).kind = job.kind ∧ (State.lent job payload).key = job.key ∧
        (State.lent job payload).waiters = job.waiters := by
      unfold State.lent
      cases payload.guard with
      | none => exact ⟨rfl, rfl, rfl⟩
      | some g => exact ⟨rfl, rfl, rfl⟩
    refine put (by rw [hid]; exact hj) rfl hlent.1.symm hlent.2.1.symm ?_ rfl rfl rfl
    rw [hlent.2.2]
  | reports j job stage hj hk hs hp => exact put hj rfl rfl rfl .refl rfl rfl rfl
  | ends j job hj hp =>
    refine ⟨rfl, id, fun k rec hr => ?_, fun i k h => ?_⟩
    · have hr : (b.jobs.erase j)[k]? = some rec := hr
      rw [get_erase] at hr
      split_ifs at hr
      exact ⟨rec, hr, rfl, rfl, .refl⟩
    · unfold Books.closes at h
      dsimp only at h
      split at h
      · split_ifs at h
        · rw [get_erase] at h
          split_ifs at h
          exact h
        · exact h
      · exact h
  | polls n => exact same rfl rfl rfl id
  | shuts => exact same rfl rfl rfl fun _ => rfl
  | hands l hl => exact same rfl rfl rfl id

theorem moves (h : Balanced b) (hm : Moves b b') : Keeps b b' := by
  induction hm with
  | refl => exact same rfl rfl rfl id
  | tail hms hstep ih => exact ih.trans (move (h.moves hms).1 hstep)

end Keeps

def InnerJob.Like (m : InnerJob) (job : WorkerJob) : Prop := m.kind = job.kind ∧ m.key = job.key

structure Linked (b : Books) (t : Thread) (n : Inner) : Prop where
  held : ∀ h, t = .holding h → h.id < b.next ∧
    ∀ job : WorkerJob, b.jobs[h.id]? = some job → h.payload.kind = job.kind ∧ h.key = job.key
  answered : ∀ j i, t = .answered j (.ok i) → j < b.next ∧ b.byInner[i]? = none ∧
    ∀ m ∈ n.live, m.id = i → ∀ job : WorkerJob, b.jobs[j]? = some job → m.Like job
  live : ∀ m ∈ n.live, ∀ (j : JobId) (job : WorkerJob), b.byInner[m.id]? = some j → b.jobs[j]? = some job → m.Like job
  polled : ∀ c ∈ t.comps, c.terminal = none → ∀ (j : JobId) (job : WorkerJob), b.byInner[c.job]? = some j →
    b.jobs[j]? = some job → job.kind = .store

namespace Linked

variable {b b' : Books} {t : Thread} {n n' : Inner}

theorem keeps (h : Linked b t n) (hk : Keeps b b') : Linked b' t n where
  held := by
    intro g ht
    obtain ⟨hlt, hlike⟩ := h.held g ht
    refine ⟨hk.next ▸ hlt, fun job' hj' => ?_⟩
    obtain ⟨job, hj, hkind, hkey, -⟩ := hk.jobs _ job' hj'
    obtain ⟨h1, h2⟩ := hlike job hj
    exact ⟨h1.trans hkind, h2.trans hkey⟩
  answered := by
    intro j i ht
    obtain ⟨hlt, hnone, hlike⟩ := h.answered j i ht
    refine ⟨hk.next ▸ hlt, ?_, fun m hm hmi job' hj' => ?_⟩
    · cases ho : b'.byInner[i]? with
      | none => rfl
      | some k =>
        have hold := hk.inner i k ho
        rw [hnone] at hold
        cases hold
    · obtain ⟨job, hj, hkind, hkey, -⟩ := hk.jobs _ job' hj'
      obtain ⟨h1, h2⟩ := hlike m hm hmi job hj
      exact ⟨h1.trans hkind, h2.trans hkey⟩
  live := by
    intro m hm j job' ho hj'
    obtain ⟨job, hj, hkind, hkey, -⟩ := hk.jobs j job' hj'
    obtain ⟨h1, h2⟩ := h.live m hm j job (hk.inner _ _ ho) hj
    exact ⟨h1.trans hkind, h2.trans hkey⟩
  polled := by
    intro c hc ht j job' ho hj'
    obtain ⟨job, hj, hkind, -, -⟩ := hk.jobs j job' hj'
    exact hkind.symm.trans (h.polled c hc ht j job (hk.inner _ _ ho) hj)

theorem opens (h : Linked b t n) (hb : Balanced b) (ho : Opens b b') : Linked b' t n := by
  obtain ⟨job₀, hnew, -, -⟩ := ho
  have hold : ∀ (j : JobId) (job : WorkerJob), j < b.next → (b.opens job₀).jobs[j]? = some job →
      b.jobs[j]? = some job := by
    intro j job hlt hj
    have hj : (b.jobs.insert b.next job₀)[j]? = some job := hj
    rwa [get_insert, if_neg (Nat.ne_of_gt hlt)] at hj
  have hopen : ∀ i j : JobId, b.byInner[i]? = some j → j < b.next := by
    intro i j hi
    obtain ⟨job, hj, -⟩ := (hb.inner i j).1 hi
    exact hb.below j job hj
  constructor
  case held =>
    intro g ht
    obtain ⟨hlt, hlike⟩ := h.held g ht
    exact ⟨Nat.lt_succ_of_lt hlt, fun job hj => hlike job (hold _ job hlt hj)⟩
  case answered =>
    intro j i ht
    obtain ⟨hlt, hnone, hlike⟩ := h.answered j i ht
    exact ⟨Nat.lt_succ_of_lt hlt, hnone, fun m hm hmi job hj => hlike m hm hmi job (hold _ job hlt hj)⟩
  case live => exact fun m hm j job hi hj => h.live m hm j job hi (hold _ job (hopen _ _ hi) hj)
  case polled => exact fun c hc ht j job hi hj => h.polled c hc ht j job hi (hold _ job (hopen _ _ hi) hj)

theorem rethread (h : Linked b t n) {t' : Thread} (hh : ∀ g, t' ≠ .holding g) (ha : ∀ j r, t' ≠ .answered j r)
    (hc : t'.comps = []) : Linked b t' n where
  held := fun g ht => absurd ht (hh g)
  answered := fun j i ht => absurd ht (ha j _)
  live := h.live
  polled := fun c hcm => by
    rw [hc] at hcm
    cases hcm

end Linked

/-! ## The store's answers -/

section Answers

variable {n n' : Inner} {cs : List Completion}

theorem Inner.Answers.live_like (h : n.Answers cs n') :
    ∀ m ∈ n'.live, ∃ m' ∈ n.live, m'.id = m.id ∧ m'.kind = m.kind ∧ m'.key = m.key := by
  induction h with
  | nil n => exact fun m hm => ⟨m, hm, rfl, rfl, rfl⟩
  | progress pre post j issued c cs n hs hp hj hi ht _ ih =>
    intro m hm
    obtain ⟨m', hm', h1, h2, h3⟩ := ih m hm
    rcases List.mem_append.1 hm' with hm' | hm'
    · exact ⟨m', List.mem_append_left _ hm', h1, h2, h3⟩
    · rcases List.mem_cons.1 hm' with rfl | hm'
      · exact ⟨j, by simp, h1, h2, h3⟩
      · exact ⟨m', List.mem_append_right _ (List.mem_cons_of_mem _ hm'), h1, h2, h3⟩
  | terminal pre post j issued c cs n hj hi ht _ ih =>
    intro m hm
    obtain ⟨m', hm', h⟩ := ih m hm
    rcases List.mem_append.1 hm' with hm' | hm'
    · exact ⟨m', List.mem_append_left _ hm', h⟩
    · exact ⟨m', List.mem_append_right _ (List.mem_cons_of_mem _ hm'), h⟩

theorem Inner.Answers.progress_store (h : n.Answers cs n') :
    ∀ c ∈ cs, c.terminal = none → ∃ m ∈ n.live, m.id = c.job ∧ m.kind = .store := by
  induction h with
  | nil n => exact fun c hc => absurd hc List.not_mem_nil
  | progress pre post j issued c cs n hs hp hj hi ht _ ih =>
    intro d hd hdt
    rcases List.mem_cons.1 hd with rfl | hd
    · exact ⟨j, by simp, hj.symm, hs⟩
    · obtain ⟨m, hm, h1, h2⟩ := ih d hd hdt
      rcases List.mem_append.1 hm with hm | hm
      · exact ⟨m, List.mem_append_left _ hm, h1, h2⟩
      · rcases List.mem_cons.1 hm with rfl | hm
        · exact ⟨j, by simp, h1, h2⟩
        · exact ⟨m, List.mem_append_right _ (List.mem_cons_of_mem _ hm), h1, h2⟩
  | terminal pre post j issued c cs n hj hi ht _ ih =>
    intro d hd hdt
    rcases List.mem_cons.1 hd with rfl | hd
    · rw [hdt] at ht
      cases ht
    · obtain ⟨m, hm, h⟩ := ih d hd hdt
      rcases List.mem_append.1 hm with hm | hm
      · exact ⟨m, List.mem_append_left _ hm, h⟩
      · exact ⟨m, List.mem_append_right _ (List.mem_cons_of_mem _ hm), h⟩

end Answers

/-! ## The thread's own steps -/

namespace Linked

variable {s : State} {n n' : Inner}

theorem polls {cs : List Completion} (h : Linked (books s) .looping n) (hn : n.Answers cs n') :
    Linked (books s) (.reaping cs) n' where
  held := fun g ht => by cases ht
  answered := fun j i ht => by cases ht
  live := by
    intro m hm j job ho hj
    obtain ⟨m', hm', hid, hkind, hkey⟩ := hn.live_like m hm
    obtain ⟨h1, h2⟩ := h.live m' hm' j job (by rw [hid]; exact ho) hj
    exact ⟨hkind.symm.trans h1, hkey.symm.trans h2⟩
  polled := by
    intro c hc ht j job ho hj
    obtain ⟨m, hm, hid, hstore⟩ := hn.progress_store c hc ht
    exact (h.live m hm j job (by rw [hid]; exact ho) hj).1.symm.trans hstore

/-- The store takes the job in hand under a new id: it cannot merge it into another. -/
theorem submitted {g : HandedJob} {res : Except PlatformError JobId} (h : Linked (books s) (.holding g) n)
    (hb : Balanced (books s)) (hup : Up (floor s) (.holding g) n [g.id]) (hn : n.Takes g res n') :
    Linked (books s) (.answered g.id res) n' := by
  obtain ⟨hlt, hlike⟩ := h.held g rfl
  cases hn with
  | refused e => exact ⟨fun g ht => (by cases ht), fun j i ht => (by cases ht), h.live, fun c hc => (by cases hc)⟩
  | accepted id hid =>
    have hnone : (books s).byInner[id]? = none := by
      cases ho : (books s).byInner[id]? with
      | none => rfl
      | some j => exact absurd (hup.owner_open id j ho).1 hid
    refine ⟨fun g ht => (by cases ht), fun j i ht => ?_, fun m hm j job ho hj => ?_, fun c hc => (by cases hc)⟩
    · cases ht
      refine ⟨hlt, hnone, fun m hm hmi job hj => ?_⟩
      rcases List.mem_cons.1 hm with rfl | hm
      · exact hlike job hj
      · exact absurd (hmi ▸ hup.live_issued m hm) hid
    · rcases List.mem_cons.1 hm with rfl | hm
      · rw [hnone] at ho
        cases ho
      · exact h.live m hm j job ho hj
  | merged m hm hs hk hp =>
    exfalso
    -- the live store job and the job in hand would be two store jobs of one key
    obtain ⟨c, hc, hdispatching, -⟩ := hup.held g rfl
    obtain ⟨job, hj, rfl⟩ := Option.map_eq_some_iff.1 hc
    obtain ⟨hkind, hkey⟩ := hlike job hj
    rcases hup.live_owned m hm with ht | ⟨hown, c', hc', hdisp, -⟩
    · cases ht
    · obtain ⟨job', hj', rfl⟩ := Option.map_eq_some_iff.1 hc'
      obtain ⟨hkind', hkey'⟩ := h.live m hm m.opener job' hown hj'
      have h1 := (hb.stores g.key g.id).2 ⟨job, hj, hkind.symm.trans hp, hkey.symm⟩
      have h2 := (hb.stores g.key m.opener).2 ⟨job', hj', hkind'.symm.trans hs, hkey'.symm.trans hk⟩
      have he : g.id = m.opener := Option.some.inj (h1.symm.trans h2)
      rw [he] at hj
      have hsame : job = job' := Option.some.inj (hj.symm.trans hj')
      rw [hsame] at hdispatching
      have hst : Status.dispatching = .dispatched m.id := hdispatching.symm.trans hdisp
      cases hst

theorem assigned {j : JobId} {i : JobId} {job : WorkerJob} {b : Books} (h : Linked b (.answered j (.ok i)) n)
    (hj : b.jobs[j]? = some job) {t : Thread} (hh : ∀ g, t ≠ .holding g) (ha : ∀ j r, t ≠ .answered j r)
    (hc : t.comps = []) : Linked (b.assigns j job i) t n where
  held := fun g ht => absurd ht (hh g)
  answered := fun j i ht => absurd ht (ha j _)
  live := by
    intro m hm k rec hown hput
    have hrec : ∃ rec', b.jobs[k]? = some rec' ∧ rec'.kind = rec.kind ∧ rec'.key = rec.key := by
      have hr : (b.jobs.insert j { job with status := .dispatched i })[k]? = some rec := hput
      clear hput
      rw [get_insert] at hr
      split_ifs at hr with he
      · subst he
        cases hr
        exact ⟨job, hj, rfl, rfl⟩
      · exact ⟨rec, hr, rfl, rfl⟩
    obtain ⟨rec', hr', hkind, hkey⟩ := hrec
    have ho : (b.byInner.insert i j)[m.id]? = some k := hown
    rw [get_insert] at ho
    split_ifs at ho with he
    · obtain rfl : j = k := Option.some.inj ho
      obtain ⟨h1, h2⟩ := (h.answered j i rfl).2.2 m hm he.symm rec' hr'
      exact ⟨h1.trans hkind, h2.trans hkey⟩
    · obtain ⟨h1, h2⟩ := h.live m hm k rec' ho hr'
      exact ⟨h1.trans hkind, h2.trans hkey⟩
  polled := fun c hcm => by
    rw [hc] at hcm
    cases hcm

theorem reaps (cs : List Completion) (hb : Balanced (books s)) (h : Linked (books s) (.reaping cs) n) :
    Moves (books s) (books (s.reap cs)) := by
  induction cs generalizing s with
  | nil => exact .refl
  | cons c cs ih =>
    have hone : Moves (books s) (books (s.reapOne c)) := reapOne_moves fun ht j job ho hj =>
      h.polled c (by simp [Thread.comps]) ht j job ho hj
    refine hone.trans (ih (hb.moves hone).1 ?_)
    have hkept := h.keeps (Keeps.moves hb hone)
    refine ⟨fun g ht => (by cases ht), fun j i ht => (by cases ht), hkept.live, fun d hd => hkept.polled d ?_⟩
    exact List.mem_cons_of_mem _ hd

end Linked

/-! ## Every step -/

structure Sound (y : System) : Prop where
  stands : Stands (floor y.state) y.inner y.thread
  balanced : Balanced (books y.state)
  linked : Linked (books y.state) y.thread y.inner

/-- The books and the links after a change. -/
structure Turns (y : System) (s : State) (t : Thread) (n : Inner) : Prop where
  turned : Turned (books y.state) (books s)
  balanced : Balanced (books s)
  linked : Linked (books s) t n

namespace Sound

variable {y y' : System} {s : State} {j : JobId}

theorem moved (h : Sound y) (hm : Moves (books y.state) (books s)) : Turns y s y.thread y.inner where
  turned := Or.inr (Or.inr hm)
  balanced := (h.balanced.moves hm).1
  linked := h.linked.keeps (Keeps.moves h.balanced hm)

theorem admitted (h : Sound y) (ha : Admits y.state j s) : Turns y s y.thread y.inner := by
  cases ha with
  | opens hj ho => exact ⟨Or.inl ho, h.balanced.opens ho, h.linked.opens h.balanced ho⟩
  | rides job hj hi hm => exact h.moved hm

theorem same (h : Sound y) (hs : books s = books y.state) : Turns y s y.thread y.inner :=
  h.moved (by rw [hs])

theorem rethread {t t' : Thread} {n : Inner} (h : Turns y s t n) (hh : ∀ g, t' ≠ .holding g)
    (ha : ∀ j r, t' ≠ .answered j r) (hc : t'.comps = []) : Turns y s t' n :=
  ⟨h.turned, h.balanced, h.linked.rethread hh ha hc⟩

theorem cancelRefused (h : Sound y) (out : CancelOutcome) :
    Turns y (if out = .tooLate then y.state.cancelRefused j else y.state) y.thread y.inner := by
  split_ifs
  · exact h.moved (cancelRefused_moves _ _)
  · exact h.same rfl

theorem turns (h : Sound y) (hs : Step y y') : Turns y y'.state y'.thread y'.inner := by
  cases hs with
  | submitStore ns store header src inc id s hok => exact h.admitted (submitStore_admits hok)
  | submitLoad store len key expect dst inc id s hok => exact h.admitted (submitLoad_admits hok)
  | attachLoad store key inc t s hok => exact h.admitted (attachLoad_admits hok)
  | submitLoadCoalesced store len key expect dst inc t s hok => exact h.admitted (submitLoadCoalesced_admits hok)
  | submitFlush store inc id s hok => exact h.admitted (submitFlush_admits hok)
  | attachWaiter job inc s hok => exact h.admitted (attachWaiter_admits hok)
  | poll max => exact h.moved (poll_moves _ max)
  | cancelWaiter job inc => exact h.moved (cancelWaiter_moves fun _ hj => h.balanced.entry hj)
  | cancelAnswered pre post job inner out hask => exact h.cancelRefused out
  | pauseDispatch => exact h.same rfl
  | resumeDispatch => exact h.moved (handOver_moves { y.state with paused := false })
  | beginShutdown drop => exact h.moved (beginShutdown_moves _ drop)
  | reapOrphans => exact h.moved (reapOrphans_moves _)
  | take g s ht hg =>
    obtain ⟨hin, hm⟩ := takeHanded_moves hg
    have hturn := h.moved hm
    refine ⟨hturn.turned, hturn.balanced, ?_⟩
    have hhand := ((h.balanced.moves (handOver_moves y.state)).1).handed g hin
    have hjobs : s.jobs = y.state.handOver.jobs ∧ s.nextJob = y.state.handOver.nextJob := by
      unfold State.takeHanded at hg
      dsimp only at hg
      split at hg
      · cases hg
      · cases hg
        exact ⟨rfl, rfl⟩
    refine ⟨fun g' ht' => ?_, fun j i ht' => (by cases ht'), hturn.linked.live, fun c hc => (by cases hc)⟩
    cases ht'
    show g.id < s.nextJob ∧ ∀ job : WorkerJob, s.jobs[g.id]? = some job → _
    rw [hjobs.1, hjobs.2]
    exact hhand
  | idle ht => exact h.moved (handOver_moves _)
  | submit g res n ht hn =>
    have hst := h.stands
    have hl := h.linked
    rw [ht] at hst hl
    cases hst with
    | up _ hu he hup => exact ⟨Or.inr (Or.inr .refl), h.balanced, hl.submitted h.balanced hup hn⟩
  | register id res ht =>
    have hst := h.stands
    have hl := h.linked
    rw [ht] at hst hl
    have hdispatching : ∀ job, y.state.jobs[id]? = some job → job.status = .dispatching := by
      intro job hj
      cases hst with
      | up _ hu he hup =>
        obtain ⟨c, hc, hd, -⟩ := hup.answered id res rfl
        have hcj : (floor y.state).jobs id = some job.core := cores_some hj
        rw [hcj] at hc
        cases hc
        exact hd
    have hgone : ∀ t : Thread, (∀ g, t ≠ .holding g) → (∀ j r, t ≠ .answered j r) → t.comps = [] →
        Turns y (y.state.register id res).1 t y.inner := by
      intro t h1 h2 h3
      have hfree : ∀ i, res = .ok i → y.state.byInner[i]? = none := by
        rintro i rfl
        exact (hl.answered id i rfl).2.1
      rcases register_moves hfree with hm | ⟨job, i, rfl, hj, heq⟩
      · exact rethread (h.moved hm) h1 h2 h3
      · have ha : Assigns (books y.state) ((books y.state).assigns id job i) :=
          .mk id job i hj (hdispatching job hj) (hfree i rfl)
        rw [← heq] at ha
        refine ⟨Or.inr (Or.inl ha), h.balanced.assigns ha, ?_⟩
        rw [heq]
        exact hl.assigned hj h1 h2 h3
    dsimp only
    cases hr : (y.state.register id res).2 with
    | none => exact hgone _ (by simp) (by simp) rfl
    | some inner => exact hgone _ (by simp) (by simp) rfl
  | forwarded id inner out ht => exact rethread (h.cancelRefused out) (by simp) (by simp) rfl
  | innerShutdown ht hreq => exact h.same rfl
  | innerPoll comps n ht hn =>
    have hl := h.linked
    rw [ht] at hl
    exact ⟨Or.inr (Or.inr .refl), h.balanced, hl.polls hn⟩
  | reap comps ht =>
    have hl := h.linked
    rw [ht] at hl
    exact rethread (h.moved (hl.reaps comps h.balanced)) (by simp) (by simp) rfl
  | exit ht hd hc => exact rethread (h.moved (reapOrphans_moves _)) (by simp) (by simp) rfl
  | panic ht hu => exact rethread (h.moved (panic_moves _)) (by simp) (by simp) rfl
  | orphanAll ht => exact rethread (h.moved (orphanAll_moves _)) (by simp) (by simp) rfl
  | leaseBack id => exact h.moved (returnLeases_moves _ _)

theorem step (h : Sound y) (hs : Step y y') : Sound y' :=
  ⟨h.stands.step hs, (h.turns hs).balanced, (h.turns hs).linked⟩

theorem start (cfg : WorkerConfig) : Sound (.new cfg) where
  stands := .up _ (by simp [System.new]) (by simp [System.new]) (Up.start cfg)
  balanced := Balanced.start cfg
  linked := ⟨fun g ht => (by cases ht), fun j i ht => (by cases ht), fun m hm => (by cases hm), fun c hc => (by cases hc)⟩

theorem run {cfg : WorkerConfig} (h : Run (.new cfg) y) : Sound y := by
  induction h with
  | refl => exact start cfg
  | tail _ hstep ih => exact ih.step hstep

end Sound

def oneHeader : ChunkHeader := ⟨7, 3, 100, 16, 16⟩

def oneSource : PinnedSource := ⟨some 100, 1, 16, ⟨1, 1⟩⟩

def oneStore : System where
  state := ((State.new {}).openStore oneHeader oneSource flushInc).2
  accepted := [(1, flushInc)]

theorem run_oneStore : Run (.new {}) oneStore :=
  .single (.submitStore (.new {}) 3 .open oneHeader oneSource flushInc 1 _ rfl)

def Books.Exactly (b b' : Books) : Prop := Opens b b' ∨ Assigns b b' ∨ Relation.ReflTransGen (Move Books.Covers) b b'

/-- **The worker's accounts.** In every state of every run each counter is the sum over the open jobs, and `by_inner` and
`store_by_key` are the inverses of the jobs' ids in the store and of the store jobs' keys; and every step opens a job,
enters the store's id of one, or is a chain of moves none of which takes a counter below zero. -/
theorem worker_accounts (cfg : WorkerConfig) (y : System) (h : Run (.new cfg) y) :
    y.state.parkOps = total y.state.jobs (WorkerJob.opOf .park) ∧
    y.state.restoreOps = total y.state.jobs (WorkerJob.opOf .restore) ∧
    y.state.parkBytes = total y.state.jobs (WorkerJob.bytesOf .park) ∧
    y.state.restoreBytes = total y.state.jobs (WorkerJob.bytesOf .restore) ∧
    y.state.reservedBytes = total y.state.jobs WorkerJob.reserved ∧
    y.state.dispatchedCount = total y.state.jobs WorkerJob.busy ∧
    (∀ (k : ChunkKey) (j : JobId), y.state.storeByKey[k]? = some j ↔
      ∃ job : WorkerJob, y.state.jobs[j]? = some job ∧ job.kind = .store ∧ job.key = k) ∧
    (∀ i j : JobId, y.state.byInner[i]? = some j ↔
      ∃ job : WorkerJob, y.state.jobs[j]? = some job ∧ job.status = .dispatched i) ∧
    ∀ y', Step y y' → (books y.state).Exactly (books y'.state) := by
  have hs := Sound.run h
  have hb := hs.balanced
  refine ⟨hb.ops .park, hb.ops .restore, hb.bytes .park, hb.bytes .restore, hb.reserved, hb.dispatched, hb.stores,
    hb.inner, fun y' hstep => ?_⟩
  rcases (hs.turns hstep).turned with ho | ha | hm
  · exact Or.inl ho
  · exact Or.inr (Or.inl ha)
  · exact Or.inr (Or.inr (hb.moves hm).2)

theorem worker_accounts_oneStore : Run (.new {}) oneStore ∧ oneStore.state.parkBytes = 4196 ∧
    oneStore.state.parkBytes = total oneStore.state.jobs (WorkerJob.bytesOf .park) :=
  ⟨run_oneStore, rfl, (worker_accounts {} oneStore run_oneStore).2.2.1⟩

end SovereignCore.Store
