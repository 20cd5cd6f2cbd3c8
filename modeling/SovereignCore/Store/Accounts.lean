import SovereignCore.Store.Books

/-!
# The books balance

Every counter of the worker is the sum of what its open jobs account for, and the maps from keys and from the store's
jobs to the worker's jobs are the inverses of what the jobs record. Every move keeps it, and where it holds no counter
is decreased below zero.

* `Balanced` : the sums and the maps;
* `Books.Covers` : what is taken off the counters for a job is there;
* `Balanced.opens`, `Balanced.move`, `Balanced.exact` : what a call and a move keep.
-/

namespace SovereignCore.Store

open Std Table

def WorkerJob.opOf (cls : Class) (j : WorkerJob) : Nat := if j.cls = cls then 1 else 0

def WorkerJob.bytesOf (cls : Class) (j : WorkerJob) : Nat := if j.cls = cls then j.bytes else 0

def WorkerJob.busy (j : WorkerJob) : Nat := if j.status = .queued then 0 else 1

def WorkerJob.inner? (j : WorkerJob) : Option JobId :=
  match j.status with
  | .dispatched i => some i
  | _ => none

def WorkerJob.stored? (j : WorkerJob) : Option ChunkKey := if j.kind = .store then some j.key else none

structure Balanced (b : Books) : Prop where
  keyed : ∀ (j : JobId) (job : WorkerJob), b.jobs[j]? = some job → job.id = j
  below : ∀ (j : JobId) (job : WorkerJob), b.jobs[j]? = some job → j < b.next
  ops : ∀ cls, b.ops cls = total b.jobs (WorkerJob.opOf cls)
  bytes : ∀ cls, b.bytes cls = total b.jobs (WorkerJob.bytesOf cls)
  reserved : b.reserved = total b.jobs WorkerJob.reserved
  dispatched : b.dispatched = total b.jobs WorkerJob.busy
  /-- `by_inner` is the inverse of the jobs' ids in the store. -/
  inner : ∀ i j : JobId, b.byInner[i]? = some j ↔ ∃ job : WorkerJob, b.jobs[j]? = some job ∧ job.status = .dispatched i
  /-- `store_by_key` is the inverse of the store jobs' keys. -/
  stores : ∀ (k : ChunkKey) (j : JobId), b.storeByKey[k]? = some j ↔ ∃ job : WorkerJob, b.jobs[j]? = some job ∧ job.kind = .store ∧ job.key = k
  tabled : ∀ j : JobId, b.coalesce.jobs[j]? = b.jobs[j]?.bind WorkerJob.entry
  attached : b.coalesce.attachedTotal = total b.coalesce.jobs fun e => e.waiters - 1
  loaded : ∀ (j : JobId) (job : WorkerJob) (p : Payload), b.jobs[j]? = some job → job.payload = some p → job.status = .queued ∧ p.kind = job.kind
  handed : ∀ h ∈ b.handed, h.id < b.next ∧
    ∀ job : WorkerJob, b.jobs[h.id]? = some job → h.payload.kind = job.kind ∧ h.key = job.key
  marked : ∀ (j : JobId) (job : WorkerJob), b.jobs[j]? = some job → job.cancelling = true → b.shut = true ∨ job.interested = 0

/-- What is taken off the counters when the job ends, reports or loses a rider is there. -/
structure Books.Covers (b : Books) (job : WorkerJob) : Prop where
  ops : 1 ≤ b.ops job.cls
  bytes : job.bytes ≤ b.bytes job.cls
  reserved : job.reserved ≤ b.reserved
  dispatched : job.status ≠ .queued → 1 ≤ b.dispatched
  attached : ∀ e : CoalesceEntry, b.coalesce.jobs[job.id]? = some e → e.waiters - 1 ≤ b.coalesce.attachedTotal

/-! ## The coalescing table -/

section Coalesce

variable {t t' : CoalesceTable} {j : JobId} {e : CoalesceEntry}

theorem attach_ok (h : t.attach j = .ok t') : ∃ e : CoalesceEntry, t.jobs[j]? = some e ∧ 0 < e.waiters ∧ t' = { t with
    jobs := t.jobs.insert j { e with waiters := e.waiters + 1 }, attachedTotal := t.attachedTotal + 1 } := by
  unfold CoalesceTable.attach at h
  cases hj : t.jobs[j]? with
  | none =>
    rw [hj] at h
    cases h
  | some e =>
    rw [hj] at h
    dsimp only at h
    split_ifs at h with h0 h1 h2
    cases h
    exact ⟨e, rfl, Nat.pos_of_ne_zero h0, rfl⟩

theorem detach_some (h : t.jobs[j]? = some e) : (t.detach j).1 = { t with
    jobs := t.jobs.insert j { e with waiters := e.waiters - 1 }
    attachedTotal := if e.waiters ≤ 1 then t.attachedTotal else t.attachedTotal - 1 } := by
  unfold CoalesceTable.detach
  rw [h]
  dsimp only
  split_ifs with h1
  · have hz : e.waiters - 1 = 0 := by omega
    rw [hz]
  · rfl

theorem jobs_close_of_entry {job : WorkerJob} (h : t.jobs[j]? = job.entry) (k : JobId) :
    (if job.kind = .flush then t else t.close j).jobs[k]? = if j = k then none else t.jobs[k]? := by
  by_cases hf : job.kind = .flush
  · rw [if_pos hf]
    split_ifs with hk
    · subst hk
      rw [h]
      simp [WorkerJob.entry, WorkerJob.share, hf]
    · rfl
  · rw [if_neg hf]
    obtain ⟨share, hs⟩ := share_of_kind hf
    have he : t.jobs[j]? = some ⟨share, job.key, job.interested⟩ := by
      rw [h]
      unfold WorkerJob.entry
      rw [hs]
      rfl
    unfold CoalesceTable.close
    rw [he]
    exact get_erase

end Coalesce

/-- A job leaves the map that points from what it owns back to it. -/
theorem get_erase_own {κ : Type} [Ord κ] [TransOrd κ] [LawfulEqOrd κ] [DecidableEq κ] {m : ExtTreeMap κ JobId}
    {own : Option κ} {j : JobId} (h : ∀ i : κ, m[i]? = some j ↔ own = some i) {i : κ} {k : JobId} :
    (own.elim m m.erase)[i]? = some k ↔ j ≠ k ∧ m[i]? = some k := by
  have hne : m[i]? = some k → own ≠ some i → j ≠ k := by
    rintro hk ho rfl
    exact ho ((h i).1 hk)
  cases own with
  | none => exact ⟨fun hk => ⟨hne hk (by simp), hk⟩, fun hk => hk.2⟩
  | some i' =>
    rw [Option.elim_some, get_erase]
    split_ifs with he
    · subst he
      have hmine := (h i').2 rfl
      rw [hmine]
      simp
    · exact ⟨fun hk => ⟨hne hk (by simpa using he), hk⟩, fun hk => hk.2⟩

namespace Balanced

variable {b b' : Books} {j : JobId} {job job' : WorkerJob}

theorem covers (h : Balanced b) (hj : b.jobs[j]? = some job) : b.Covers job where
  ops := by
    have hle := le_total (w := WorkerJob.opOf job.cls) hj
    rw [← h.ops] at hle
    simpa [WorkerJob.opOf] using hle
  bytes := by
    have hle := le_total (w := WorkerJob.bytesOf job.cls) hj
    rw [← h.bytes] at hle
    simpa [WorkerJob.bytesOf] using hle
  reserved := by
    rw [h.reserved]
    exact le_total hj
  dispatched := by
    intro hs
    have hle := le_total (w := WorkerJob.busy) hj
    rw [← h.dispatched] at hle
    simpa [WorkerJob.busy, hs] using hle
  attached := by
    intro e he
    rw [h.attached]
    exact le_total (w := fun e => e.waiters - 1) he

theorem entry (h : Balanced b) (hj : b.jobs[j]? = some job) : b.coalesce.jobs[j]? = job.entry := by
  rw [h.tabled, hj]
  rfl

/-- A job that the table lets a rider join, or that has a rider who wants it, has such a rider. -/
theorem wanted (h : Balanced b) (hj : b.jobs[j]? = some job)
    (hi : 0 < job.interested ∨ ∃ t, b.coalesce.attach j = .ok t) : ∃ w ∈ job.waiters, w.detached = false := by
  have hpos : 0 < job.interested := by
    rcases hi with hi | ⟨t, ht⟩
    · exact hi
    · obtain ⟨e, he, hpos, -⟩ := attach_ok ht
      rw [h.entry hj] at he
      obtain ⟨share, -, rfl⟩ := Option.map_eq_some_iff.1 he
      exact hpos
  obtain ⟨w, hw, hd⟩ := List.countP_pos_iff.1 hpos
  exact ⟨w, hw, by simpa using hd⟩

theorem inner_self (h : Balanced b) (hj : b.jobs[j]? = some job) (i k : JobId) :
    b.byInner[i]? = some k ↔ if j = k then job.status = .dispatched i else b.byInner[i]? = some k := by
  split_ifs with hk
  · subst hk
    rw [h.inner, hj]
    simp
  · exact Iff.rfl

/-! ## One job's record changes -/

/-- The record of one open job changes in what the counters, `by_inner` and the coalescing table follow. -/
theorem put (h : Balanced b) (hj : b.jobs[j]? = some job) (hjobs : b'.jobs = b.jobs.insert j job')
    (hid : job'.id = job.id) (hcls : job'.cls = job.cls) (hkind : job'.kind = job.kind) (hkey : job'.key = job.key)
    (hbytes : job'.bytes = job.bytes)
    (hload : ∀ p, job'.payload = some p → job'.status = .queued ∧ p.kind = job'.kind)
    (hmark : job'.cancelling = true → b.shut = true ∨ job'.interested = 0)
    (hnext : b'.next = b.next) (hops : b'.ops = b.ops)
    (hbs : b'.bytes = b.bytes) (hstores : b'.storeByKey = b.storeByKey) (hshut : b'.shut = b.shut)
    (hres : b'.reserved + job.reserved = b.reserved + job'.reserved)
    (hdis : b'.dispatched + job.busy = b.dispatched + job'.busy)
    (hinner : ∀ i k : JobId, b'.byInner[i]? = some k ↔ if j = k then job'.status = .dispatched i else b.byInner[i]? = some k)
    (htab : ∀ k : JobId, b'.coalesce.jobs[k]? = if j = k then job'.entry else b.coalesce.jobs[k]?)
    (hatt : b'.coalesce.attachedTotal = total b'.coalesce.jobs fun e => e.waiters - 1)
    (hhand : ∀ g ∈ b'.handed, g ∈ b.handed ∨ (g.id = j ∧ g.payload.kind = job.kind ∧ g.key = job.key)) :
    Balanced b' := by
  -- every other record is as it was
  have hget : ∀ (k : JobId) (rec : WorkerJob), b'.jobs[k]? = some rec → (j = k ∧ rec = job') ∨ (j ≠ k ∧ b.jobs[k]? = some rec) := by
    intro k rec hk
    rw [hjobs, get_insert] at hk
    split_ifs at hk with he
    · cases hk
      exact Or.inl ⟨he, rfl⟩
    · exact Or.inr ⟨he, hk⟩
  have hself : b'.jobs[j]? = some job' := by rw [hjobs, get_insert, if_pos rfl]
  have hother : ∀ k : JobId, j ≠ k → b'.jobs[k]? = b.jobs[k]? := by
    intro k hk
    rw [hjobs, get_insert, if_neg hk]
  have hsum : ∀ w : WorkerJob → Nat, total b'.jobs w + w job = total b.jobs w + w job' := by
    intro w
    rw [hjobs]
    exact total_insert hj
  constructor
  case keyed =>
    intro k rec hk
    rcases hget k rec hk with ⟨rfl, rfl⟩ | ⟨-, hk⟩
    · rw [hid]
      exact h.keyed _ _ hj
    · exact h.keyed k rec hk
  case below =>
    intro k rec hk
    rw [hnext]
    rcases hget k rec hk with ⟨rfl, rfl⟩ | ⟨-, hk⟩
    · exact h.below _ _ hj
    · exact h.below k rec hk
  case ops =>
    intro cls
    have hw : WorkerJob.opOf cls job' = WorkerJob.opOf cls job := by simp [WorkerJob.opOf, hcls]
    have := hsum (WorkerJob.opOf cls)
    rw [hops, h.ops]
    omega
  case bytes =>
    intro cls
    have hw : WorkerJob.bytesOf cls job' = WorkerJob.bytesOf cls job := by simp [WorkerJob.bytesOf, hcls, hbytes]
    have := hsum (WorkerJob.bytesOf cls)
    rw [hbs, h.bytes]
    omega
  case reserved =>
    have := hsum WorkerJob.reserved
    have := h.reserved
    omega
  case dispatched =>
    have := hsum WorkerJob.busy
    have := h.dispatched
    omega
  case inner =>
    intro i k
    rw [hinner]
    split_ifs with he
    · subst he
      rw [hself]
      simp
    · rw [hother k he]
      exact h.inner i k
  case stores =>
    intro key k
    rw [hstores, h.stores]
    by_cases he : j = k
    · subst he
      rw [hself, hj]
      simp [hkind, hkey]
    · rw [hother k he]
  case tabled =>
    intro k
    rw [htab]
    split_ifs with he
    · subst he
      rw [hself]
      rfl
    · rw [hother k he]
      exact h.tabled k
  case attached => exact hatt
  case loaded =>
    intro k rec p hk hp
    rcases hget k rec hk with ⟨rfl, rfl⟩ | ⟨-, hk⟩
    · exact hload p hp
    · exact h.loaded k rec p hk hp
  case handed =>
    intro g hg
    rw [hnext]
    rcases hhand g hg with hg | ⟨rfl, hgk, hgy⟩
    · obtain ⟨hlt, hlikes⟩ := h.handed g hg
      refine ⟨hlt, fun rec hk => ?_⟩
      rcases hget _ rec hk with ⟨rfl, rfl⟩ | ⟨-, hk⟩
      · rw [hkind, hkey]
        exact hlikes job hj
      · exact hlikes rec hk
    · refine ⟨h.below _ _ hj, fun rec hk => ?_⟩
      rw [hself] at hk
      cases hk
      rw [hkind, hkey]
      exact ⟨hgk, hgy⟩
  case marked =>
    intro k rec hk hc
    rw [hshut]
    rcases hget k rec hk with ⟨rfl, rfl⟩ | ⟨-, hk⟩
    · exact hmark hc
    · exact h.marked k rec hk hc

theorem joins (h : Balanced b) (hj : b.jobs[j]? = some job) (hk : job.kind ≠ .flush) (hc : job.cancelling = false)
    {t : CoalesceTable} (ht : b.coalesce.attach j = .ok t) (inc : Incarnation) : Balanced { b with
      coalesce := t, jobs := b.jobs.insert j { job with waiters := job.waiters ++ [{ inc := inc }] } } := by
  obtain ⟨e, he, hpos, rfl⟩ := attach_ok ht
  obtain ⟨share, hshare⟩ := share_of_kind hk
  have hentry : some e = job.entry := he.symm.trans (h.entry hj)
  have hcount : ({ job with waiters := job.waiters ++ [{ inc := inc }] } : WorkerJob).interested = job.interested + 1 := by
    unfold WorkerJob.interested
    rw [List.countP_append]
    rfl
  unfold WorkerJob.entry at hentry
  rw [hshare] at hentry
  cases hentry
  have hinner := h.inner_self hj
  refine h.put hj rfl rfl rfl rfl rfl rfl (fun p hp => h.loaded j job p hj hp) (fun hcan => ?_) rfl rfl rfl rfl rfl rfl
    rfl hinner (fun k => ?_) ?_ fun g hg => Or.inl hg
  · rw [hc] at hcan
    cases hcan
  · rw [get_insert]
    split_ifs
    · unfold WorkerJob.entry
      rw [hcount]
      show _ = job.share.map _
      rw [hshare]
      rfl
    · rfl
  · have hsum := total_insert (w := fun e : CoalesceEntry => e.waiters - 1)
      (v := ⟨share, job.key, job.interested + 1⟩) he
    have hatt := h.attached
    dsimp only at hsum hatt hpos ⊢
    omega

theorem withdraws (h : Balanced b) (hj : b.jobs[j]? = some job) (hk : job.kind ≠ .flush) {inc : Incarnation}
    {ws : List Waiter} (hw : State.detachWaiter inc job.waiters = some ws) : Balanced { b with
      coalesce := (b.coalesce.detach j).1, jobs := b.jobs.insert j { job with waiters := ws } } := by
  obtain ⟨share, hshare⟩ := share_of_kind hk
  have hcount : job.interested = ({ job with waiters := ws } : WorkerJob).interested + 1 := interested_detachWaiter hw
  have hentry : b.coalesce.jobs[j]? = some ⟨share, job.key, job.interested⟩ := by
    rw [h.entry hj]
    unfold WorkerJob.entry
    rw [hshare]
    rfl
  rw [detach_some hentry]
  have hinner := h.inner_self hj
  refine h.put hj rfl rfl rfl rfl rfl rfl (fun p hp => h.loaded j job p hj hp) (fun hcan => ?_) rfl rfl rfl rfl rfl rfl
    rfl hinner (fun k => ?_) ?_ fun g hg => Or.inl hg
  · rcases h.marked j job hj hcan with hm | hm
    · exact Or.inl hm
    · omega
  · rw [get_insert]
    split_ifs
    · unfold WorkerJob.entry
      show _ = job.share.map _
      rw [hshare, hcount]
      rfl
    · rfl
  · have hsum := total_insert (w := fun e : CoalesceEntry => e.waiters - 1)
      (v := ⟨share, job.key, job.interested - 1⟩) hentry
    have hle := le_total (w := fun e : CoalesceEntry => e.waiters - 1) hentry
    have hatt := h.attached
    dsimp only at hsum hatt hle ⊢
    split_ifs with h1
    · omega
    · omega

theorem lends (h : Balanced b) (hj : b.jobs[j]? = some job) {payload : Payload} (hl : job.payload = some payload)
    (cls : Class) : Balanced { b with
      jobs := b.jobs.insert job.id (State.lent job payload)
      dispatched := b.dispatched + 1
      handed := b.handed ++ [⟨job.id, cls, job.inc, job.key, payload⟩] } := by
  obtain ⟨hs, hkind⟩ := h.loaded j job payload hj hl
  have hid := h.keyed j job hj
  rw [hid]
  have hlent : (State.lent job payload).id = job.id ∧ (State.lent job payload).cls = job.cls ∧
      (State.lent job payload).kind = job.kind ∧ (State.lent job payload).key = job.key ∧
      (State.lent job payload).bytes = job.bytes ∧ (State.lent job payload).payload = none ∧
      (State.lent job payload).status = .dispatching ∧ (State.lent job payload).cancelling = job.cancelling ∧
      (State.lent job payload).interested = job.interested ∧ (State.lent job payload).reserved = job.reserved ∧
      (State.lent job payload).entry = job.entry := by
    unfold State.lent
    cases payload.guard with
    | none => exact ⟨rfl, rfl, rfl, rfl, rfl, rfl, rfl, rfl, rfl, rfl, rfl⟩
    | some g => exact ⟨rfl, rfl, rfl, rfl, rfl, rfl, rfl, rfl, rfl, rfl, rfl⟩
  obtain ⟨h1, h2, h3, h4, h5, h6, h7, h8, h9, h10, h11⟩ := hlent
  refine h.put hj rfl h1 h2 h3 h4 h5 (fun p hp => ?_) (fun hcan => ?_) rfl rfl rfl rfl rfl ?_ ?_ (fun i k => ?_)
    (fun k => ?_) h.attached fun g hg => ?_
  · rw [h6] at hp
    cases hp
  · rw [h8] at hcan
    rw [h9]
    exact h.marked j job hj hcan
  · rw [h10]
  · simp [WorkerJob.busy, hs, h7]
  · split_ifs with hk
    · subst hk
      rw [h.inner, hj, h7]
      simp [hs]
    · exact Iff.rfl
  · split_ifs with hk
    · subst hk
      rw [h11]
      exact h.entry hj
    · rfl
  · rcases List.mem_append.1 hg with hg | hg
    · exact Or.inl hg
    · cases List.mem_singleton.1 hg
      exact Or.inr ⟨rfl, hkind, rfl⟩

theorem assigns (h : Balanced b) (ha : Assigns b b') : Balanced b' := by
  obtain ⟨j, job, i, hj, hs, hi⟩ := ha
  have hentry := h.entry hj
  refine h.put hj rfl rfl rfl rfl rfl rfl (fun p hp => ?_) (fun hcan => h.marked j job hj hcan) rfl rfl rfl rfl rfl rfl
    ?_ (fun i' k => ?_) (fun k => ?_) h.attached fun g hg => Or.inl hg
  · have hq := (h.loaded j job p hj hp).1
    rw [hs] at hq
    cases hq
  · show b.dispatched + job.busy = _
    simp [WorkerJob.busy, hs]
  · show (b.byInner.insert i j)[i']? = some k ↔ _
    rw [get_insert]
    split_ifs with h1 h2 h2
    · subst h1 h2
      simp
    · subst h1
      rw [hi]
      simp [h2]
    · subst h2
      rw [h.inner, hj]
      simp [hs, h1]
    · exact Iff.rfl
  · split_ifs with hk
    · subst hk
      exact hentry
    · rfl

theorem reports (h : Balanced b) (hj : b.jobs[j]? = some job) (stage : JobStage) : Balanced (b.reports j job stage) := by
  have hres := (h.covers hj).reserved
  have hinner := h.inner_self hj
  have hentry := h.entry hj
  refine h.put hj rfl rfl rfl rfl rfl rfl (fun p hp => h.loaded j job p hj hp) (fun hcan => h.marked j job hj hcan) rfl
    rfl rfl rfl rfl ?_ rfl hinner (fun k => ?_) h.attached fun g hg => Or.inl hg
  · unfold Books.reports
    dsimp only
    split_ifs
    · omega
    · rfl
  · by_cases hk : j = k
    · rw [if_pos hk, ← hk]
      exact hentry
    · rw [if_neg hk]
      rfl

theorem revises (h : Balanced b) {m : ExtTreeMap JobId WorkerJob}
    (hm : ∀ j : JobId, m[j]?.map WorkerJob.account = b.jobs[j]?.map WorkerJob.account)
    (hc : ∀ (j : JobId) (job : WorkerJob), m[j]? = some job → job.cancelling = true →
      b.shut = true ∨ job.interested = 0 ∨ ∃ job', b.jobs[j]? = some job' ∧ job'.cancelling = true) :
    Balanced { b with jobs := m } := by
  have hback : ∀ (j : JobId) (job : WorkerJob), m[j]? = some job →
      ∃ job', b.jobs[j]? = some job' ∧ job'.account = job.account := by
    intro j job hj
    have hj' := hm j
    rw [hj] at hj'
    obtain ⟨job', hj', he⟩ := Option.map_eq_some_iff.1 hj'.symm
    exact ⟨job', hj', he⟩
  have hforth : ∀ (j : JobId) (job : WorkerJob), b.jobs[j]? = some job →
      ∃ job', m[j]? = some job' ∧ job'.account = job.account := by
    intro j job hj
    have hj' := hm j
    rw [hj] at hj'
    obtain ⟨job', hj', he⟩ := Option.map_eq_some_iff.1 hj'
    exact ⟨job', hj', he⟩
  have hsum : ∀ w : WorkerJob → Nat, total m (fun job => w job.account) = total b.jobs fun job => w job.account :=
    fun w => total_congr hm
  constructor
  case keyed =>
    intro j job hj
    obtain ⟨job', hj', he⟩ := hback j job hj
    exact (congrArg WorkerJob.id he).symm.trans (h.keyed j job' hj')
  case below =>
    intro j job hj
    obtain ⟨job', hj', -⟩ := hback j job hj
    exact h.below j job' hj'
  case ops => exact fun cls => (h.ops cls).trans (hsum (WorkerJob.opOf cls)).symm
  case bytes => exact fun cls => (h.bytes cls).trans (hsum (WorkerJob.bytesOf cls)).symm
  case reserved => exact h.reserved.trans (hsum WorkerJob.reserved).symm
  case dispatched => exact h.dispatched.trans (hsum WorkerJob.busy).symm
  case inner =>
    intro i j
    rw [h.inner]
    constructor
    · rintro ⟨job, hj, hs⟩
      obtain ⟨job', hj', he⟩ := hforth j job hj
      exact ⟨job', hj', (congrArg WorkerJob.status he).trans hs⟩
    · rintro ⟨job, hj, hs⟩
      obtain ⟨job', hj', he⟩ := hback j job hj
      exact ⟨job', hj', (congrArg WorkerJob.status he).trans hs⟩
  case stores =>
    intro k j
    rw [h.stores]
    constructor
    · rintro ⟨job, hj, hs, hk⟩
      obtain ⟨job', hj', he⟩ := hforth j job hj
      exact ⟨job', hj', (congrArg WorkerJob.kind he).trans hs, (congrArg WorkerJob.key he).trans hk⟩
    · rintro ⟨job, hj, hs, hk⟩
      obtain ⟨job', hj', he⟩ := hback j job hj
      exact ⟨job', hj', (congrArg WorkerJob.kind he).trans hs, (congrArg WorkerJob.key he).trans hk⟩
  case tabled =>
    intro j
    rw [h.tabled]
    have hmap : ∀ o : Option WorkerJob, o.bind WorkerJob.entry = (o.map WorkerJob.account).bind WorkerJob.entry := by
      intro o
      cases o with
      | none => rfl
      | some job => rfl
    rw [hmap, hmap m[j]?, hm]
  case attached => exact h.attached
  case loaded =>
    intro j job p hj hp
    obtain ⟨job', hj', he⟩ := hback j job hj
    obtain ⟨hs, hk⟩ := h.loaded j job' p hj' ((congrArg WorkerJob.payload he).trans hp)
    have hkind : job'.account.kind = job.account.kind := congrArg WorkerJob.kind he
    exact ⟨(congrArg WorkerJob.status he).symm.trans hs, hk.trans hkind⟩
  case handed =>
    intro g hg
    obtain ⟨hlt, hlike⟩ := h.handed g hg
    refine ⟨hlt, fun job hj => ?_⟩
    obtain ⟨job', hj', he⟩ := hback g.id job hj
    obtain ⟨hk, hy⟩ := hlike job' hj'
    have hkind : job'.account.kind = job.account.kind := congrArg WorkerJob.kind he
    have hkey : job'.account.key = job.account.key := congrArg WorkerJob.key he
    exact ⟨hk.trans hkind, hy.trans hkey⟩
  case marked =>
    intro j job hj hcan
    rcases hc j job hj hcan with hs | hi | ⟨job', hj', hcan'⟩
    · exact Or.inl hs
    · exact Or.inr hi
    · obtain ⟨job'', hj'', he⟩ := hback j job hj
      rw [hj'] at hj''
      cases hj''
      rcases h.marked j job' hj' hcan' with hs | hi
      · exact Or.inl hs
      · exact Or.inr ((congrArg WorkerJob.interested he).symm.trans hi)

/-! ## A job ends, a job opens -/

theorem ends (h : Balanced b) (hj : b.jobs[j]? = some job) : Balanced (b.closes j job) := by
  have hid := h.keyed j job hj
  have hget : ∀ (k : JobId) (rec : WorkerJob), (b.closes j job).jobs[k]? = some rec → j ≠ k ∧ b.jobs[k]? = some rec := by
    intro k rec hk
    have hk : (b.jobs.erase j)[k]? = some rec := hk
    rw [get_erase] at hk
    split_ifs at hk with he
    exact ⟨he, hk⟩
  have hother : ∀ k : JobId, j ≠ k → (b.closes j job).jobs[k]? = b.jobs[k]? := by
    intro k hk
    show (b.jobs.erase j)[k]? = _
    rw [get_erase, if_neg hk]
  have hself : (b.closes j job).jobs[j]? = none := by
    show (b.jobs.erase j)[j]? = none
    rw [get_erase, if_pos rfl]
  have hsum : ∀ w : WorkerJob → Nat, total b.jobs w = w job + total (b.closes j job).jobs w := fun w => total_erase hj
  constructor
  case keyed => exact fun k rec hk => h.keyed k rec (hget k rec hk).2
  case below => exact fun k rec hk => h.below k rec (hget k rec hk).2
  case ops =>
    intro cls
    have hs := hsum (WorkerJob.opOf cls)
    rw [← h.ops] at hs
    unfold WorkerJob.opOf at hs ⊢
    show Function.update b.ops job.cls (b.ops job.cls - 1) cls = _
    by_cases hc : job.cls = cls
    · rw [← hc, Function.update_self]
      rw [if_pos hc, ← hc] at hs
      omega
    · rw [Function.update_of_ne (Ne.symm hc)]
      rw [if_neg hc] at hs
      omega
  case bytes =>
    intro cls
    have hs := hsum (WorkerJob.bytesOf cls)
    rw [← h.bytes] at hs
    unfold WorkerJob.bytesOf at hs ⊢
    show Function.update b.bytes job.cls (b.bytes job.cls - job.bytes) cls = _
    by_cases hc : job.cls = cls
    · rw [← hc, Function.update_self]
      rw [if_pos hc, ← hc] at hs
      omega
    · rw [Function.update_of_ne (Ne.symm hc)]
      rw [if_neg hc] at hs
      omega
  case reserved =>
    have hs := hsum WorkerJob.reserved
    rw [← h.reserved] at hs
    show b.reserved - job.reserved = _
    omega
  case dispatched =>
    have hs := hsum WorkerJob.busy
    rw [← h.dispatched] at hs
    show (if job.status = .queued then b.dispatched else b.dispatched - 1) = _
    have hb : job.busy = if job.status = .queued then 0 else 1 := rfl
    rw [hb] at hs
    split_ifs at hs ⊢ <;> omega
  case inner =>
    intro i k
    have hown : ∀ i : JobId, b.byInner[i]? = some j ↔ job.inner? = some i := by
      intro i
      rw [h.inner, hj]
      unfold WorkerJob.inner?
      cases hs : job.status <;> simp [hs]
    have herase : (b.closes j job).byInner[i]? = some k ↔ j ≠ k ∧ b.byInner[i]? = some k := by
      rw [← get_erase_own hown]
      unfold Books.closes WorkerJob.inner?
      dsimp only
      cases hs : job.status with
      | queued => rfl
      | dispatching => rfl
      | dispatched i' =>
        have hmine : b.byInner[i']? = some job.id := by
          rw [hid]
          exact (h.inner i' j).2 ⟨job, hj, hs⟩
        dsimp only [Option.elim_some]
        rw [if_pos hmine]
    rw [herase, h.inner]
    constructor
    · rintro ⟨hk, rec, hr, hs⟩
      exact ⟨rec, (hother k hk).trans hr, hs⟩
    · rintro ⟨rec, hr, hs⟩
      obtain ⟨hk, hr⟩ := hget k rec hr
      exact ⟨hk, rec, hr, hs⟩
  case stores =>
    intro key k
    have hown : ∀ key : ChunkKey, b.storeByKey[key]? = some j ↔ job.stored? = some key := by
      intro key
      rw [h.stores, hj]
      unfold WorkerJob.stored?
      split_ifs with hs <;> simp [hs]
    have herase : (b.closes j job).storeByKey[key]? = some k ↔ j ≠ k ∧ b.storeByKey[key]? = some k := by
      rw [← get_erase_own hown]
      unfold Books.closes WorkerJob.stored?
      dsimp only
      by_cases hs : job.kind = .store
      · have hmine : b.storeByKey[job.key]? = some job.id := by
          rw [hid]
          exact (h.stores job.key j).2 ⟨job, hj, hs, rfl⟩
        rw [if_pos ⟨hs, hmine⟩, if_pos hs]
        rfl
      · rw [if_neg (fun hc => hs hc.1), if_neg hs]
        rfl
    rw [herase, h.stores]
    constructor
    · rintro ⟨hk, rec, hr, hs⟩
      exact ⟨rec, (hother k hk).trans hr, hs⟩
    · rintro ⟨rec, hr, hs⟩
      obtain ⟨hk, hr⟩ := hget k rec hr
      exact ⟨hk, rec, hr, hs⟩
  case tabled =>
    intro k
    show (if job.kind = .flush then b.coalesce else b.coalesce.close job.id).jobs[k]? = _
    rw [hid, jobs_close_of_entry (h.entry hj)]
    by_cases hk : j = k
    · subst hk
      rw [if_pos rfl, hself]
      rfl
    · rw [if_neg hk, hother k hk, h.tabled]
  case attached =>
    show (if job.kind = .flush then b.coalesce else b.coalesce.close job.id).attachedTotal =
      total (if job.kind = .flush then b.coalesce else b.coalesce.close job.id).jobs _
    by_cases hf : job.kind = .flush
    · rw [if_pos hf]
      exact h.attached
    · obtain ⟨share, hs⟩ := share_of_kind hf
      have he : b.coalesce.jobs[j]? = some ⟨share, job.key, job.interested⟩ := by
        rw [h.entry hj]
        unfold WorkerJob.entry
        rw [hs]
        rfl
      have hsum := total_erase (w := fun e : CoalesceEntry => e.waiters - 1) he
      rw [← h.attached] at hsum
      rw [if_neg hf, hid]
      unfold CoalesceTable.close
      rw [he]
      dsimp only at hsum ⊢
      omega
  case loaded => exact fun k rec p hk hp => h.loaded k rec p (hget k rec hk).2 hp
  case handed =>
    intro g hg
    obtain ⟨hlt, hlike⟩ := h.handed g hg
    exact ⟨hlt, fun rec hk => hlike rec (hget _ rec hk).2⟩
  case marked => exact fun k rec hk hc => h.marked k rec (hget k rec hk).2 hc

theorem opens (h : Balanced b) (ho : Opens b b') : Balanced b' := by
  obtain ⟨job, hnew, -, hkey⟩ := ho
  have hfree : b.jobs[b.next]? = none := by
    cases hn : b.jobs[b.next]? with
    | none => rfl
    | some job' => exact absurd (h.below _ _ hn) (Nat.lt_irrefl _)
  have hget : ∀ (k : JobId) (rec : WorkerJob), (b.opens job).jobs[k]? = some rec →
      (b.next = k ∧ rec = job) ∨ (b.next ≠ k ∧ b.jobs[k]? = some rec) := by
    intro k rec hk
    have hk : (b.jobs.insert b.next job)[k]? = some rec := hk
    rw [get_insert] at hk
    split_ifs at hk with he
    · cases hk
      exact Or.inl ⟨he, rfl⟩
    · exact Or.inr ⟨he, hk⟩
  have hself : (b.opens job).jobs[b.next]? = some job := by
    show (b.jobs.insert b.next job)[b.next]? = _
    rw [get_insert, if_pos rfl]
  have hother : ∀ k : JobId, b.next ≠ k → (b.opens job).jobs[k]? = b.jobs[k]? := by
    intro k hk
    show (b.jobs.insert b.next job)[k]? = _
    rw [get_insert, if_neg hk]
  have hsum : ∀ w : WorkerJob → Nat, total (b.opens job).jobs w = total b.jobs w + w job :=
    fun w => total_insert_new hfree
  have hone : job.interested = 1 := by
    unfold WorkerJob.interested
    rw [hnew.waiters]
    rfl
  have hjobs : (b.opens job).coalesce.jobs =
      job.share.elim b.coalesce.jobs fun share => b.coalesce.jobs.insert b.next ⟨share, job.key, 1⟩ := by
    show (job.share.elim b.coalesce _).jobs = _
    cases job.share with
    | none => rfl
    | some share => rfl
  have hout : b.coalesce.jobs[b.next]? = none := by
    rw [h.tabled, hfree]
    rfl
  constructor
  case keyed =>
    intro k rec hk
    rcases hget k rec hk with ⟨rfl, rfl⟩ | ⟨-, hk⟩
    · exact hnew.id
    · exact h.keyed k rec hk
  case below =>
    intro k rec hk
    rcases hget k rec hk with ⟨rfl, rfl⟩ | ⟨-, hk⟩
    · exact Nat.lt_succ_self _
    · exact Nat.lt_succ_of_lt (h.below k rec hk)
  case ops =>
    intro cls
    rw [hsum, ← h.ops]
    show Function.update b.ops job.cls (b.ops job.cls + 1) cls = _
    unfold WorkerJob.opOf
    by_cases hc : job.cls = cls
    · rw [← hc, Function.update_self, if_pos rfl]
    · rw [Function.update_of_ne (Ne.symm hc), if_neg hc]
      rfl
  case bytes =>
    intro cls
    rw [hsum, ← h.bytes]
    show Function.update b.bytes job.cls (b.bytes job.cls + job.bytes) cls = _
    unfold WorkerJob.bytesOf
    by_cases hc : job.cls = cls
    · rw [← hc, Function.update_self, if_pos rfl]
    · rw [Function.update_of_ne (Ne.symm hc), if_neg hc]
      rfl
  case reserved =>
    rw [hsum, ← h.reserved]
    rfl
  case dispatched =>
    rw [hsum, ← h.dispatched]
    unfold WorkerJob.busy
    rw [if_pos hnew.status]
    rfl
  case inner =>
    intro i k
    show b.byInner[i]? = some k ↔ _
    rw [h.inner]
    by_cases hk : b.next = k
    · subst hk
      rw [hfree, hself]
      simp [hnew.status]
    · rw [hother k hk]
  case stores =>
    intro key k
    show (if job.kind = .store then b.storeByKey.insert job.key b.next else b.storeByKey)[key]? = some k ↔ _
    by_cases hs : job.kind = .store
    · rw [if_pos hs, get_insert]
      split_ifs with he
      · subst he
        constructor
        · intro hk
          cases hk
          exact ⟨job, hself, hs, rfl⟩
        · rintro ⟨rec, hr, hrs, hrk⟩
          rcases hget k rec hr with ⟨rfl, -⟩ | ⟨-, hr⟩
          · rfl
          · have hin := (h.stores job.key k).2 ⟨rec, hr, hrs, hrk⟩
            rw [hkey hs] at hin
            cases hin
      · rw [h.stores]
        by_cases hk : b.next = k
        · subst hk
          rw [hfree, hself]
          simp [he]
        · rw [hother k hk]
    · rw [if_neg hs, h.stores]
      by_cases hk : b.next = k
      · subst hk
        rw [hfree, hself]
        simp [hs]
      · rw [hother k hk]
  case tabled =>
    intro k
    rw [hjobs]
    by_cases hk : b.next = k
    · subst hk
      rw [hself]
      show _ = job.entry
      unfold WorkerJob.entry
      cases job.share with
      | none => exact hout
      | some share =>
        show (b.coalesce.jobs.insert b.next _)[b.next]? = _
        rw [get_insert, if_pos rfl, hone]
        rfl
    · rw [hother k hk, ← h.tabled]
      cases job.share with
      | none => rfl
      | some share =>
        show (b.coalesce.jobs.insert b.next _)[k]? = _
        rw [get_insert, if_neg hk]
  case attached =>
    rw [hjobs]
    have hsame : (b.opens job).coalesce.attachedTotal = b.coalesce.attachedTotal := by
      show (job.share.elim b.coalesce _).attachedTotal = _
      cases job.share with
      | none => rfl
      | some share => rfl
    rw [hsame, h.attached]
    cases job.share with
    | none => rfl
    | some share =>
      show _ = total (b.coalesce.jobs.insert b.next _) _
      rw [total_insert_new hout]
      rfl
  case loaded =>
    intro k rec p hk hp
    rcases hget k rec hk with ⟨rfl, rfl⟩ | ⟨-, hk⟩
    · obtain ⟨p', hp', hpk⟩ := hnew.payload
      rw [hp] at hp'
      cases hp'
      exact ⟨hnew.status, hpk⟩
    · exact h.loaded k rec p hk hp
  case handed =>
    intro g hg
    obtain ⟨hlt, hlike⟩ := h.handed g hg
    refine ⟨Nat.lt_succ_of_lt hlt, fun rec hk => ?_⟩
    rcases hget _ rec hk with ⟨he, -⟩ | ⟨-, hk⟩
    · exact absurd he (Nat.ne_of_gt hlt)
    · exact hlike rec hk
  case marked =>
    intro k rec hk hc
    rcases hget k rec hk with ⟨rfl, rfl⟩ | ⟨-, hk⟩
    · rw [hnew.cancelling] at hc
      cases hc
    · exact h.marked k rec hk hc

/-! ## Every move -/

variable {P : Books → WorkerJob → Prop}

theorem move (h : Balanced b) (hm : Move P b b') : Balanced b' := by
  cases hm with
  | joins j job inc t hj hk hc hi hroom ht => exact h.joins hj hk hc ht inc
  | withdraws j job inc ws hj hk hw hp => exact h.withdraws hj hk hw
  | revises m hm hc => exact h.revises hm hc
  | lends j job cls payload hj hl => exact h.lends hj hl cls
  | reports j job stage hj hk hs hp => exact h.reports hj stage
  | ends j job hj hp => exact h.ends hj
  | polls n => exact { h with }
  | shuts => exact { h with marked := fun _ _ _ _ => Or.inl rfl }
  | hands l hl => exact { h with handed := fun g hg => h.handed g (hl g hg) }

/-- Where the books balance, a move takes nothing off a counter that is not there. -/
theorem exact (h : Balanced b) (hm : Move P b b') : Move Books.Covers b b' := by
  cases hm with
  | joins j job inc t hj hk hc hi hroom ht => exact .joins b j job inc t hj hk hc hi hroom ht
  | withdraws j job inc ws hj hk hw hp => exact .withdraws b j job inc ws hj hk hw (h.covers hj)
  | revises m hm hc => exact .revises b m hm hc
  | lends j job cls payload hj hl => exact .lends b j job cls payload hj hl
  | reports j job stage hj hk hs hp => exact .reports b j job stage hj hk hs (h.covers hj)
  | ends j job hj hp => exact .ends b j job hj (h.covers hj)
  | polls n => exact .polls b n
  | shuts => exact .shuts b
  | hands l hl => exact .hands b l hl

theorem moves (h : Balanced b) (hm : Moves b b') : Balanced b' ∧ Relation.ReflTransGen (Move Books.Covers) b b' := by
  induction hm with
  | refl => exact ⟨h, .refl⟩
  | tail _ hstep ih => exact ⟨ih.1.move hstep, ih.2.tail (ih.1.exact hstep)⟩

theorem start (cfg : WorkerConfig) : Balanced (books (.new cfg)) where
  keyed := fun j job hj => by cases hj
  below := fun j job hj => by cases hj
  ops := fun cls => by cases cls <;> rfl
  bytes := fun cls => by cases cls <;> rfl
  reserved := rfl
  dispatched := rfl
  inner := fun i j => by
    constructor
    · intro h
      cases h
    · rintro ⟨job, hj, -⟩
      cases hj
  stores := fun k j => by
    constructor
    · intro h
      cases h
    · rintro ⟨job, hj, -⟩
      cases hj
  tabled := fun j => rfl
  attached := rfl
  loaded := fun j job p hj => by cases hj
  handed := fun g hg => absurd hg List.not_mem_nil
  marked := fun j job hj => by cases hj

end Balanced

end SovereignCore.Store
