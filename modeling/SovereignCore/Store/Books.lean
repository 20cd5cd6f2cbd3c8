import Mathlib
import SovereignCore.Store.Terminals

/-!
# The worker's books

The other half of the worker's state: the counters, the maps from a key and from a job of the store to the worker's
job, the coalescing table, and how many completions wait to be polled. A call either opens one job or changes the books
by a chain of elementary moves; so does the worker thread, and it enters the store's ids of the jobs it submitted.

* `Books`, `books` : the view;
* `Opens`, `Assigns`, `Move` : the changes;
* `endJob_moves` to `reapOne_moves` : the moves that each function of the state makes.
-/

namespace SovereignCore.Store

open Std Table

def WorkerJob.share (j : WorkerJob) : Option Share :=
  match j.kind with
  | .load => some .load
  | .store => some .store
  | .flush => none

def WorkerJob.interested (j : WorkerJob) : Nat := j.waiters.countP fun w => !w.detached

def WorkerJob.slots (j : WorkerJob) : Nat := (j.waiters.length - 1) * State.slotsPer j.kind

def WorkerJob.account (j : WorkerJob) : WorkerJob := { j with cancelling := false, leaseBack := none, orphaned := none }

/-- A job as the calls open it. -/
structure WorkerJob.Fresh (id : JobId) (j : WorkerJob) : Prop where
  id : j.id = id
  status : j.status = .queued
  waiters : j.waiters = [{ inc := j.inc }]
  cancelling : j.cancelling = false
  progressSeen : j.progressSeen = false
  payload : ∃ p, j.payload = some p ∧ p.kind = j.kind

structure Books where
  cfg : WorkerConfig
  next : JobId
  ops : Class → Nat
  bytes : Class → Nat
  reserved : Nat
  dispatched : Nat
  jobs : ExtTreeMap JobId WorkerJob
  byInner : ExtTreeMap JobId JobId
  storeByKey : ExtTreeMap ChunkKey JobId
  coalesce : CoalesceTable
  handed : List HandedJob
  unread : Nat
  /-- `shutdown` or `drop` has begun. -/
  shut : Bool

def books (s : State) : Books where
  cfg := s.cfg
  next := s.nextJob
  ops := fun c => match c with
    | .restore => s.restoreOps
    | .park => s.parkOps
  bytes := fun c => match c with
    | .restore => s.restoreBytes
    | .park => s.parkBytes
  reserved := s.reservedBytes
  dispatched := s.dispatchedCount
  jobs := s.jobs
  byInner := s.byInner
  storeByKey := s.storeByKey
  coalesce := s.coalesce
  handed := s.handed
  unread := s.completions.length
  shut := s.innerShutdownRequested

namespace Books

variable (b : Books)

def capacity : Nat := 3 * (b.cfg.maxRestoreOps + b.cfg.maxParkOps)

def taken : Nat := b.unread + 3 * b.jobs.size + total b.jobs WorkerJob.slots

def opens (job : WorkerJob) : Books :=
  { b with
    next := b.next + 1
    ops := Function.update b.ops job.cls (b.ops job.cls + 1)
    bytes := Function.update b.bytes job.cls (b.bytes job.cls + job.bytes)
    reserved := b.reserved + job.reserved
    jobs := b.jobs.insert b.next job
    storeByKey := if job.kind = .store then b.storeByKey.insert job.key b.next else b.storeByKey
    coalesce := job.share.elim b.coalesce fun share => b.coalesce.open share job.key b.next }

/-- The job gives back what it held, and each of its riders gets a terminal. -/
def closes (j : JobId) (job : WorkerJob) : Books :=
  { b with
    ops := Function.update b.ops job.cls (b.ops job.cls - 1)
    bytes := Function.update b.bytes job.cls (b.bytes job.cls - job.bytes)
    reserved := b.reserved - job.reserved
    dispatched := if job.status = .queued then b.dispatched else b.dispatched - 1
    jobs := b.jobs.erase j
    byInner := match job.status with
      | .dispatched i => if b.byInner[i]? = some job.id then b.byInner.erase i else b.byInner
      | _ => b.byInner
    storeByKey :=
      if job.kind = .store ∧ b.storeByKey[job.key]? = some job.id then b.storeByKey.erase job.key else b.storeByKey
    coalesce := if job.kind = .flush then b.coalesce else b.coalesce.close job.id
    unread := b.unread + (State.riders job).length }

def assigns (j : JobId) (job : WorkerJob) (i : JobId) : Books :=
  { b with
    jobs := b.jobs.insert j { job with status := .dispatched i }
    byInner := b.byInner.insert i j }

/-- A progress report: the riders hear of it, and a completed store returns its reservation. -/
def reports (j : JobId) (job : WorkerJob) (stage : JobStage) : Books :=
  let done := JobStage.completed.rank ≤ stage.rank
  { b with
    reserved := if done then b.reserved - job.reserved else b.reserved
    jobs := b.jobs.insert j
      { job with progressSeen := true, stage := stage, reserved := if done then 0 else job.reserved }
    unread := b.unread + job.waiters.length }

end Books

/-- A call opens a job. -/
inductive Opens (b : Books) : Books → Prop
  | mk (job : WorkerJob) (hnew : job.Fresh b.next) (hroom : b.taken + 3 ≤ b.capacity)
      (hkey : job.kind = .store → b.storeByKey[job.key]? = none) : Opens b (b.opens job)

/-- The store takes a job, under an id that no open job has. -/
inductive Assigns (b : Books) : Books → Prop
  | mk (j : JobId) (job : WorkerJob) (i : JobId) (hj : b.jobs[j]? = some job) (hs : job.status = .dispatching)
      (hi : b.byInner[i]? = none) : Assigns b (b.assigns j job i)

/-- An elementary change of the books. `P` is asked of the job wherever a counter is decreased for it. -/
inductive Move (P : Books → WorkerJob → Prop) : Books → Books → Prop
  | joins (b : Books) (j : JobId) (job : WorkerJob) (inc : Incarnation) (t : CoalesceTable)
      (hj : b.jobs[j]? = some job) (hk : job.kind ≠ .flush) (hc : job.cancelling = false)
      (hi : ∀ w ∈ job.waiters, w.inc ≠ inc) (hroom : b.taken + State.slotsPer job.kind ≤ b.capacity)
      (ht : b.coalesce.attach j = .ok t) :
      Move P b { b with
        coalesce := t
        jobs := b.jobs.insert j { job with waiters := job.waiters ++ [{ inc := inc }] } }
  | withdraws (b : Books) (j : JobId) (job : WorkerJob) (inc : Incarnation) (ws : List Waiter)
      (hj : b.jobs[j]? = some job) (hk : job.kind ≠ .flush) (hw : State.detachWaiter inc job.waiters = some ws)
      (hp : P b job) :
      Move P b { b with
        coalesce := (b.coalesce.detach j).1
        jobs := b.jobs.insert j { job with waiters := ws } }
  /-- Flags of jobs that no account reads. A job is marked for a cancel when nobody wants it or at shutdown. -/
  | revises (b : Books) (m : ExtTreeMap JobId WorkerJob)
      (h : ∀ j : JobId, m[j]?.map WorkerJob.account = b.jobs[j]?.map WorkerJob.account)
      (hc : ∀ (j : JobId) (job : WorkerJob), m[j]? = some job → job.cancelling = true →
        b.shut = true ∨ job.interested = 0 ∨ ∃ job', b.jobs[j]? = some job' ∧ job'.cancelling = true) :
      Move P b { b with jobs := m }
  | lends (b : Books) (j : JobId) (job : WorkerJob) (cls : Class) (payload : Payload) (hj : b.jobs[j]? = some job)
      (hl : job.payload = some payload) :
      Move P b { b with
        jobs := b.jobs.insert job.id (State.lent job payload)
        dispatched := b.dispatched + 1
        handed := b.handed ++ [⟨job.id, cls, job.inc, job.key, payload⟩] }
  | reports (b : Books) (j : JobId) (job : WorkerJob) (stage : JobStage) (hj : b.jobs[j]? = some job)
      (hk : job.kind = .store) (hs : job.progressSeen = false) (hp : P b job) : Move P b (b.reports j job stage)
  | ends (b : Books) (j : JobId) (job : WorkerJob) (hj : b.jobs[j]? = some job) (hp : P b job) :
      Move P b (b.closes j job)
  | polls (b : Books) (n : Nat) : Move P b { b with unread := b.unread - n }
  | shuts (b : Books) : Move P b { b with shut := true }
  | hands (b : Books) (l : List HandedJob) (h : ∀ x ∈ l, x ∈ b.handed) : Move P b { b with handed := l }

/-- A chain of moves. -/
abbrev Moves : Books → Books → Prop := Relation.ReflTransGen (Move fun _ _ => True)

def Turned (b b' : Books) : Prop := Opens b b' ∨ Assigns b b' ∨ Moves b b'

/-! ## Ending jobs -/

section Ends

variable (s : State)

theorem books_finishJob (job : WorkerJob) (j : JobId) (t : Terminal) (st : JobStage) (p : PublishOutcome) :
    books ({ s with jobs := s.jobs.erase j }.finishJob job t st p) = (books s).closes j job := by
  have hcredits : ∀ s : State, books (s.returnCredits job) = { books s with
      ops := Function.update (books s).ops job.cls ((books s).ops job.cls - 1)
      bytes := Function.update (books s).bytes job.cls ((books s).bytes job.cls - job.bytes)
      reserved := (books s).reserved - job.reserved } := by
    intro s
    unfold State.returnCredits books
    cases job.cls with
    | restore =>
      simp only [Books.mk.injEq, and_true, true_and]
      constructor <;> funext c <;> cases c <;> rfl
    | park =>
      simp only [Books.mk.injEq, and_true, true_and]
      constructor <;> funext c <;> cases c <;> rfl
  have hslot : ∀ s : State, books (s.returnSlot job) = { books s with
      dispatched := if job.status = .queued then (books s).dispatched else (books s).dispatched - 1
      byInner := match job.status with
        | .dispatched i => if (books s).byInner[i]? = some job.id then (books s).byInner.erase i else (books s).byInner
        | _ => (books s).byInner } := by
    intro s
    unfold State.returnSlot
    cases job.status with
    | queued => rfl
    | dispatching => rfl
    | dispatched i => rfl
  have hkey : ∀ s : State, books (s.releaseKey job) = { books s with
      storeByKey := if job.kind = .store ∧ (books s).storeByKey[job.key]? = some job.id
        then (books s).storeByKey.erase job.key else (books s).storeByKey
      coalesce := if job.kind = .flush then (books s).coalesce else (books s).coalesce.close job.id } := by
    intro s
    unfold State.releaseKey
    dsimp only
    by_cases hf : job.kind = .flush
    · rw [if_neg (not_not.2 hf), if_pos hf, hf]
      rfl
    · rw [if_pos hf, if_neg hf]
      dsimp only
      by_cases hs : job.kind = .store ∧ s.storeByKey[job.key]? = some job.id
      · have hb : job.kind = .store ∧ (books s).storeByKey[job.key]? = some job.id := hs
        rw [if_pos hs, if_pos hb]
        rfl
      · have hb : ¬ (job.kind = .store ∧ (books s).storeByKey[job.key]? = some job.id) := hs
        rw [if_neg hs, if_neg hb]
        rfl
  have hcount : ∀ s : State, books (s.countEnd job t st) = books s := by
    intro s
    unfold State.countEnd
    dsimp only
    split_ifs <;> rfl
  have hguard : ∀ s : State, books (if State.adopts job t = true then s
      else { s with graveyard := s.graveyard ++ (State.guardOf job).toList }) = books s := by
    intro s
    split_ifs <;> rfl
  have hsent : ∀ (s : State) (cs : List Completion), books { s with completions := s.completions ++ cs } =
      { books s with unread := (books s).unread + cs.length } := by
    intro s cs
    unfold books
    simp
  unfold State.finishJob
  rw [hsent, hguard, hcount, hkey, hslot, hcredits, List.length_map]
  rfl

theorem endJob_moves (j : JobId) (f : WorkerJob → Terminal) : Moves (books s) (books (s.endJob j f)) := by
  unfold State.endJob
  cases hj : s.jobs[j]? with
  | none => exact .refl
  | some job =>
    dsimp only
    rw [books_finishJob]
    exact .single (.ends _ j job hj trivial)

theorem shut_endJob (j : JobId) (f : WorkerJob → Terminal) :
    (s.endJob j f).innerShutdownRequested = s.innerShutdownRequested := by
  unfold State.endJob
  cases hj : s.jobs[j]? with
  | none => rfl
  | some job => exact congrArg Books.shut (books_finishJob s job j (f job) job.stage .notApplicable)

theorem endJobs_moves (f : WorkerJob → Terminal) (ids : List JobId) :
    Moves (books s) (books (ids.foldl (fun s id => s.endJob id f) s)) := by
  induction ids generalizing s with
  | nil => exact .refl
  | cons j ids ih => exact (endJob_moves s j f).trans (ih _)

theorem reapOrphans_moves : Moves (books s) (books s.reapOrphans) := endJobs_moves s _ _

theorem poll_moves (max : Nat) : Moves (books s) (books (s.poll max).2) := by
  refine (reapOrphans_moves s).tail ?_
  have heq : books (s.poll max).2 = { books s.reapOrphans with unread := (books s.reapOrphans).unread - max } := by
    unfold State.poll books
    simp
  rw [heq]
  exact .polls _ max

theorem map_moves (f : JobId → WorkerJob → WorkerJob) (hf : ∀ j job, (f j job).account = job.account)
    (hc : ∀ j job, (f j job).cancelling = true → s.innerShutdownRequested = true ∨ job.cancelling = true) :
    Moves (books s) (books { s with jobs := s.jobs.map f }) := by
  refine .single (.revises _ (s.jobs.map f) (fun j => ?_) fun j job hj hcan => ?_)
  · rw [ExtTreeMap.getElem?_map]
    show _ = s.jobs[j]?.map WorkerJob.account
    cases s.jobs[j]? with
    | none => rfl
    | some job =>
      show some _ = some _
      rw [hf]
  · rw [ExtTreeMap.getElem?_map] at hj
    obtain ⟨job', hj', rfl⟩ := Option.map_eq_some_iff.1 hj
    rcases hc j job' hcan with h | h
    · exact Or.inl h
    · exact Or.inr (Or.inr ⟨job', hj', h⟩)

theorem returnLeases_moves (ids : List JobId) : Moves (books s) (books (s.returnLeases ids)) := by
  refine map_moves s _ (fun j job => ?_) fun j job h => ?_
  · split_ifs <;> rfl
  · split_ifs at h
    · exact Or.inr h
    · exact Or.inr h

theorem orphanAll_moves : Moves (books s) (books s.orphanAll) := by
  have horphan : Moves (books s) (books s.orphanJobs) := map_moves s _ (fun _ _ => rfl) fun _ _ h => Or.inr h
  exact horphan.trans (reapOrphans_moves s.orphanJobs)

theorem panic_moves : Moves (books s) (books s.panic) := by
  refine Relation.ReflTransGen.head (.hands (books s) [] fun x hx => absurd hx List.not_mem_nil) ?_
  exact returnLeases_moves { s with panicked := true, closed := true, restoreQueue := [], parkQueue := [], handed := [] }
    (s.handed.map HandedJob.id)

theorem shut_endJobs (f : WorkerJob → Terminal) (ids : List JobId) :
    (ids.foldl (fun s id => s.endJob id f) s).innerShutdownRequested = s.innerShutdownRequested := by
  induction ids generalizing s with
  | nil => rfl
  | cons j ids ih => exact (ih _).trans (shut_endJob s j f)

theorem shut_beginShutdown (drop : Bool) : (s.beginShutdown drop).1.innerShutdownRequested = true :=
  shut_endJobs _ _ _

theorem cancelUnstarted_moves (h : s.innerShutdownRequested = true) :
    Moves (books s) (books s.cancelUnstarted.1) := by
  unfold State.cancelUnstarted
  dsimp only
  have hends := endJobs_moves { s with restoreQueue := [], parkQueue := [], handed := [] } (fun _ => .cancelled)
    (s.restoreQueue ++ s.parkQueue ++ s.handed.map HandedJob.id)
  have hstill := (shut_endJobs { s with restoreQueue := [], parkQueue := [], handed := [] } (fun _ => .cancelled)
    (s.restoreQueue ++ s.parkQueue ++ s.handed.map HandedJob.id)).trans h
  generalize List.foldl _ _ _ = s' at hends hstill ⊢
  refine Relation.ReflTransGen.head (.hands (books s) [] fun x hx => absurd hx List.not_mem_nil) (hends.trans ?_)
  refine map_moves s' _ (fun j job => ?_) fun j job _ => Or.inl hstill
  unfold State.markCancel
  split_ifs <;> rfl

theorem beginShutdown_moves (drop : Bool) : Moves (books s) (books (s.beginShutdown drop).1) := by
  unfold State.beginShutdown
  refine Relation.ReflTransGen.head (.shuts (books s)) ?_
  exact cancelUnstarted_moves { s with
    workerDropped := s.workerDropped || drop, closed := true, innerShutdownRequested := true,
    shutdownPublishedBefore := if drop then s.shutdownPublishedBefore
      else s.shutdownPublishedBefore.or (some s.publishedTotal) } rfl

theorem cancelRefused_moves (j : JobId) : Moves (books s) (books (s.cancelRefused j)) := by
  unfold State.cancelRefused
  refine .single (.revises _ (s.jobs.modify j _) (fun k => ?_) fun k job hk hcan => ?_)
  · rw [get_modify]
    show _ = s.jobs[k]?.map WorkerJob.account
    split_ifs
    · cases s.jobs[k]? with
      | none => rfl
      | some job => rfl
    · rfl
  · rw [get_modify] at hk
    split_ifs at hk
    · obtain ⟨job', -, rfl⟩ := Option.map_eq_some_iff.1 hk
      cases hcan
    · exact Or.inr (Or.inr ⟨job, hk, hcan⟩)

end Ends

/-! ## Dispatch -/

section Dispatching

variable {s s' : State} {cls : Class} {j : JobId}

theorem books_nextClass (h : s.nextClass = some (cls, s')) : books s' = books s := by
  unfold State.nextClass at h
  split at h
  · cases h
  · cases h
    rfl
  · cases h
    rfl
  · split_ifs at h
    · cases h
      rfl
    · cases h
      rfl

theorem books_popQueue (h : s.popQueue cls = some (j, s')) : books s' = books s := by
  unfold State.popQueue at h
  split at h
  · split at h
    · cases h
    · cases h
      rfl
  · split at h
    · cases h
    · cases h
      rfl

theorem books_handed_none (s : State) :
    books { s with handed := s.handed ++ (none : Option HandedJob).toList } = books s := by
  simp [books]

theorem popLoop_moves (n : Nat) (s : State) : Moves (books s)
    (books { (State.popLoop n s).2 with handed := (State.popLoop n s).2.handed ++ (State.popLoop n s).1.toList }) := by
  induction n generalizing s with
  | zero => rw [State.popLoop, books_handed_none]
  | succ n ih =>
    rw [State.popLoop]
    cases hnc : s.nextClass with
    | none =>
      dsimp only
      rw [books_handed_none]
    | some r =>
      obtain ⟨cls, s₁⟩ := r
      dsimp only
      rw [← books_nextClass hnc]
      cases hpq : s₁.popQueue cls with
      | none =>
        dsimp only
        rw [books_handed_none]
      | some r =>
        obtain ⟨id, s₂⟩ := r
        dsimp only
        rw [← books_popQueue hpq]
        cases hj : s₂.jobs[id]? with
        | none => exact ih s₂
        | some job =>
          dsimp only
          cases hp : job.payload with
          | none =>
            dsimp only
            rw [books_handed_none]
          | some payload => exact .single (.lends _ id job cls payload hj hp)

theorem handOverLoop_moves (n : Nat) (s : State) : Moves (books s) (books (State.handOverLoop n s)) := by
  induction n generalizing s with
  | zero => exact .refl
  | succ n ih =>
    have hpop : Moves (books s) (books { s.popNextToDispatch.2 with
        handed := s.popNextToDispatch.2.handed ++ s.popNextToDispatch.1.toList }) := by
      unfold State.popNextToDispatch
      split_ifs
      · rw [books_handed_none]
      · rw [books_handed_none]
      · exact popLoop_moves _ s
    rw [State.handOverLoop]
    cases hp : s.popNextToDispatch with
    | mk o s₁ =>
      rw [hp] at hpop
      cases o with
      | none =>
        rw [books_handed_none] at hpop
        exact hpop
      | some h => exact hpop.trans (ih _)

theorem handOver_moves (s : State) : Moves (books s) (books s.handOver) := handOverLoop_moves _ s

theorem takeHanded_moves {h : HandedJob} (ht : s.takeHanded = some (h, s')) :
    h ∈ s.handOver.handed ∧ Moves (books s) (books s') := by
  unfold State.takeHanded at ht
  dsimp only at ht
  split at ht
  · cases ht
  · rename_i h' rest hh
    cases ht
    refine ⟨by simp [hh], (handOver_moves s).tail (.hands _ rest fun x hx => ?_)⟩
    show x ∈ s.handOver.handed
    rw [hh]
    exact List.mem_cons_of_mem _ hx

end Dispatching

/-! ## The calls -/

section Client

variable {s s' : State} {job id : JobId} {inc : Incarnation} {st : StoreState} {len : Option Nat} {key : ChunkKey}
variable {e : ChunkHeader} {dst : PinnedDest} {t : LoadTicket}

/-- A call that takes on a request opens a job for it or lets it ride on one that is still wanted. -/
inductive Admits (s : State) (j : JobId) (s' : State) : Prop
  | opens (hj : j = s.nextJob) (h : Opens (books s) (books s'))
  | rides (job : WorkerJob) (hj : s.jobs[j]? = some job)
      (hi : 0 < job.interested ∨ ∃ t, s.coalesce.attach j = .ok t) (h : Moves (books s) (books s'))

theorem tryAttach_admits (h : s.tryAttach job inc = .ok s') : Admits s job s' := by
  unfold State.tryAttach at h
  cases hj : s.jobs[job]? with
  | none =>
    rw [hj] at h
    cases h
  | some j =>
    rw [hj] at h
    dsimp only at h
    split_ifs at h with hk hi hroom
    rw [not_or] at hk
    cases ht : s.coalesce.attach job with
    | error r =>
      rw [ht] at h
      cases r with
      | noSuchJob => cases h
      | jobFull => cases h
      | totalFull => cases h
    | ok t =>
      rw [ht] at h
      cases h
      exact .rides j hj (Or.inr ⟨t, ht⟩)
        (.single (.joins _ job j inc t hj hk.1 (by simpa using hk.2) (by simpa using hi) (Nat.not_lt.1 hroom) ht))

theorem room_of_creditCheck {cls : Class} {n : Nat} {u : Unit} (h : s.creditCheck cls n = .ok u) :
    (books s).taken + 3 ≤ (books s).capacity := by
  unfold State.creditCheck at h
  dsimp only at h
  split_ifs at h with hfull
  rw [not_or, not_or] at hfull
  exact Nat.not_lt.1 hfull.2.2

theorem openLoad_opens (hroom : (books s).taken + 3 ≤ (books s).capacity) (len : Nat) :
    Opens (books s) (books (s.openLoad key len e dst inc).2) := by
  have hopens := Opens.mk (b := books s)
    { id := s.nextJob, cls := .restore, kind := .load, inc := inc, key := key, bytes := len + headerRegion,
      payloadLen := len, reserved := 0, payload := some (.load e dst), waiters := [{ inc := inc }] }
    ⟨rfl, rfl, rfl, rfl, rfl, _, rfl, rfl⟩ hroom (fun h => by cases h)
  convert hopens using 1
  unfold State.openLoad Books.opens books
  simp only [Books.mk.injEq, and_true, true_and]
  refine ⟨?_, ?_, rfl, rfl, rfl⟩ <;> funext c <;> cases c <;> rfl

theorem openStore_opens {src : PinnedSource} (hroom : (books s).taken + 3 ≤ (books s).capacity)
    (hkey : s.storeByKey[e.chunkKey]? = none) : Opens (books s) (books (s.openStore e src inc).2) := by
  have hopens := Opens.mk (b := books s)
    { id := s.nextJob, cls := .park, kind := .store, inc := inc, key := e.chunkKey, bytes := e.payloadLen + headerRegion,
      payloadLen := e.payloadLen, reserved := e.payloadLen + headerRegion, payload := some (.store e src),
      waiters := [{ inc := inc }] }
    ⟨rfl, rfl, rfl, rfl, rfl, _, rfl, rfl⟩ hroom (fun _ => hkey)
  convert hopens using 1
  unfold State.openStore Books.opens books
  simp only [Books.mk.injEq, and_true, true_and]
  refine ⟨?_, ?_, rfl, rfl⟩ <;> funext c <;> cases c <;> rfl

theorem openFlush_opens (hroom : (books s).taken + 3 ≤ (books s).capacity) :
    Opens (books s) (books (s.openFlush inc).2) := by
  have hopens := Opens.mk (b := books s)
    { id := s.nextJob, cls := .park, kind := .flush, inc := inc, key := 0, bytes := 0, payloadLen := 0, reserved := 0,
      payload := some .flush, waiters := [{ inc := inc }] }
    ⟨rfl, rfl, rfl, rfl, rfl, _, rfl, rfl⟩ hroom (fun h => by cases h)
  convert hopens using 1
  unfold State.openFlush Books.opens books
  simp only [Books.mk.injEq, and_true, true_and]
  refine ⟨?_, ?_, rfl, rfl, rfl⟩ <;> funext c <;> cases c <;> rfl

theorem submitLoad_admits (h : s.submitLoad st len key e dst inc = .ok (id, s')) : Admits s id s' := by
  obtain ⟨_, _, h⟩ := Result.bind_ok.1 h
  obtain ⟨n, _, h⟩ := Result.bind_ok.1 h
  obtain ⟨_, hc, h⟩ := Result.bind_ok.1 h
  cases h
  exact .opens rfl (openLoad_opens (room_of_creditCheck hc) n)

theorem submitFlush_admits (h : s.submitFlush st inc = .ok (id, s')) : Admits s id s' := by
  obtain ⟨_, _, h⟩ := Result.bind_ok.1 h
  obtain ⟨_, hc, h⟩ := Result.bind_ok.1 h
  cases h
  exact .opens rfl (openFlush_opens (room_of_creditCheck hc))

theorem attachLoad_admits (h : s.attachLoad st key inc = .ok (some (t, s'))) : Admits s t.job s' := by
  obtain ⟨_, _, h⟩ := Result.bind_ok.1 h
  cases hf : s.coalesce.find .load key with
  | none =>
    rw [hf] at h
    cases h
  | some j =>
    rw [hf] at h
    obtain ⟨s₁, ht, h⟩ := Result.bind_ok.1 h
    cases h
    exact tryAttach_admits ht

theorem submitLoadCoalesced_admits (h : s.submitLoadCoalesced st len key e dst inc = .ok (t, s')) :
    Admits s t.job s' := by
  obtain ⟨o, ho, h⟩ := Result.bind_ok.1 h
  cases o with
  | some r =>
    cases h
    exact attachLoad_admits ho
  | none =>
    obtain ⟨n, _, h⟩ := Result.bind_ok.1 h
    obtain ⟨_, hc, h⟩ := Result.bind_ok.1 h
    cases h
    exact .opens rfl (openLoad_opens (room_of_creditCheck hc) n)

theorem joinStore_admits (h : s.joinStore job key inc = .ok (id, s')) : Admits s id s' := by
  unfold State.joinStore at h
  dsimp only at h
  split_ifs at h with h1 h2
  · cases h
    obtain ⟨j, hj, hw⟩ := (Option.any_eq_true _ _).1 (Bool.and_eq_true_iff.1 h1).2
    obtain ⟨w, hwm, hwi⟩ := List.any_eq_true.1 hw
    rw [Bool.and_eq_true_iff] at hwi
    exact .rides j hj (Or.inl (List.countP_pos_iff.2 ⟨w, hwm, hwi.2⟩)) .refl
  · split at h
    · rename_i s₁ hs₁
      cases h
      exact tryAttach_admits hs₁
    · cases h

theorem submitStore_admits {ns : NamespaceId} {src : PinnedSource} (h : s.submitStore ns st e src inc = .ok (id, s')) :
    Admits s id s' := by
  obtain ⟨_, _, h⟩ := Result.bind_ok.1 h
  obtain ⟨_, _, h⟩ := Result.bind_ok.1 h
  cases hk : s.storeByKey[e.chunkKey]? with
  | some j =>
    rw [hk] at h
    exact joinStore_admits h
  | none =>
    rw [hk] at h
    obtain ⟨_, hc, h⟩ := Result.bind_ok.1 h
    cases h
    exact .opens rfl (openStore_opens (room_of_creditCheck hc) hk)

theorem attachWaiter_admits (h : s.attachWaiter job inc = .ok s') : Admits s job s' := by
  unfold State.attachWaiter at h
  split_ifs at h
  exact tryAttach_admits h

end Client

/-! ## Cancelling -/

section Cancel

variable {s : State} {j : JobId} {job : WorkerJob} {inc : Incarnation} {ws ws' : List Waiter}

/-- The state once a rider has withdrawn, before the job is looked at. -/
def State.withdrawn (s : State) (j : JobId) (job : WorkerJob) (ws : List Waiter) : State :=
  { s with jobs := s.jobs.insert j { job with waiters := ws }, coalesce := (s.coalesce.detach j).1 }

def State.marked (s : State) (j : JobId) (job : WorkerJob) : State :=
  { s with jobs := s.jobs.insert j { job with cancelling := true } }

/-- What a cancel of one rider does. -/
inductive CancelCase (s : State) (j : JobId) (inc : Incarnation) : Except CancelOutcome JobId × State → Prop
  | nothing (h : ∀ job, s.jobs[j]? = some job → job.kind ≠ .flush → State.detachWaiter inc job.waiters = none) :
      CancelCase s j inc (.error .tooLate, s)
  | others (job : WorkerJob) (ws : List Waiter) (n : Nat) (hj : s.jobs[j]? = some job) (hk : job.kind ≠ .flush)
      (hw : State.detachWaiter inc job.waiters = some ws) (hn : (s.coalesce.detach j).2 = .remaining n) :
      CancelCase s j inc (.error .tooLate, s.withdrawn j job ws)
  | inSubmit (job : WorkerJob) (ws : List Waiter) (hj : s.jobs[j]? = some job) (hk : job.kind ≠ .flush)
      (hw : State.detachWaiter inc job.waiters = some ws) (hn : ∀ n, (s.coalesce.detach j).2 ≠ .remaining n)
      (hs : job.status = .dispatching) :
      CancelCase s j inc (.error .tooLate, (s.withdrawn j job ws).marked j { job with waiters := ws })
  | inQueue (job : WorkerJob) (ws : List Waiter) (hj : s.jobs[j]? = some job) (hk : job.kind ≠ .flush)
      (hw : State.detachWaiter inc job.waiters = some ws) (hn : ∀ n, (s.coalesce.detach j).2 ≠ .remaining n)
      (hs : job.status = .queued) :
      CancelCase s j inc (.error .cancelled,
        ((s.withdrawn j job ws).unqueue { job with waiters := ws }).endJob j fun _ => .cancelled)
  | inStore (job : WorkerJob) (ws : List Waiter) (i : JobId) (hj : s.jobs[j]? = some job) (hk : job.kind ≠ .flush)
      (hw : State.detachWaiter inc job.waiters = some ws) (hn : ∀ n, (s.coalesce.detach j).2 ≠ .remaining n)
      (hs : job.status = .dispatched i) :
      CancelCase s j inc (.ok i, (s.withdrawn j job ws).marked j { job with waiters := ws })

theorem cancelWaiter_cases (s : State) (j : JobId) (inc : Incarnation) : CancelCase s j inc (s.cancelWaiter j inc) := by
  unfold State.cancelWaiter
  cases hj : s.jobs[j]? with
  | none => exact .nothing fun job h => by rw [hj] at h; cases h
  | some job =>
    dsimp only
    split_ifs with hk
    · exact .nothing fun job' h hk' => by
        rw [hj] at h
        cases h
        exact absurd hk hk'
    · cases hd : State.detachWaiter inc job.waiters with
      | none =>
        exact .nothing fun job' h _ => by
          rw [hj] at h
          cases h
          exact hd
      | some ws =>
        dsimp only
        split
        · rename_i n hn
          exact .others job ws n hj hk hd hn
        · rename_i hn
          split
          · rename_i hs
            exact .inSubmit job ws hj hk hd hn hs
          · rename_i hs
            exact .inQueue job ws hj hk hd hn hs
          · rename_i i hs
            exact .inStore job ws i hj hk hd hn hs

theorem interested_detachWaiter (h : State.detachWaiter inc ws = some ws') :
    ws.countP (fun w => !w.detached) = ws'.countP (fun w => !w.detached) + 1 := by
  induction ws generalizing ws' with
  | nil => cases h
  | cons w ws ih =>
    rw [State.detachWaiter] at h
    split_ifs at h with hw
    · cases h
      simp [hw.2]
    · obtain ⟨ws₁, h₁, rfl⟩ := Option.map_eq_some_iff.1 h
      rw [List.countP_cons, List.countP_cons, ih h₁]
      omega

def WorkerJob.entry (j : WorkerJob) : Option CoalesceEntry := j.share.map fun share => ⟨share, j.key, j.interested⟩

theorem share_of_kind (h : job.kind ≠ .flush) : ∃ share, job.share = some share := by
  unfold WorkerJob.share
  cases hk : job.kind with
  | store => exact ⟨_, rfl⟩
  | load => exact ⟨_, rfl⟩
  | flush => exact absurd hk h

/-- Where the table's line is right, no other rider is left once the table answers so. -/
theorem interested_last (hj : s.coalesce.jobs[j]? = job.entry) (hk : job.kind ≠ .flush)
    (hw : State.detachWaiter inc job.waiters = some ws) (hn : ∀ n, (s.coalesce.detach j).2 ≠ .remaining n) :
    ({ job with waiters := ws } : WorkerJob).interested = 0 := by
  obtain ⟨share, hs⟩ := share_of_kind hk
  have hcount : job.interested = ({ job with waiters := ws } : WorkerJob).interested + 1 := interested_detachWaiter hw
  unfold WorkerJob.entry at hj
  rw [hs] at hj
  unfold CoalesceTable.detach at hn
  rw [hj] at hn
  dsimp only [Option.map_some] at hn
  split_ifs at hn with h1
  · omega
  · exact absurd rfl (hn _)

theorem books_unqueue (s : State) (job : WorkerJob) : books (s.unqueue job) = books s := by
  unfold State.unqueue
  cases job.cls with
  | restore => rfl
  | park => rfl

theorem marked_moves (hj : s.jobs[j]? = some job) (hi : job.interested = 0) :
    Moves (books s) (books (s.marked j job)) := by
  refine .single (.revises _ (s.jobs.insert j { job with cancelling := true }) (fun k => ?_) fun k job' hk hcan => ?_)
  · rw [get_insert]
    split_ifs with h
    · subst h
      show _ = s.jobs[j]?.map WorkerJob.account
      rw [hj]
      rfl
    · rfl
  · rw [get_insert] at hk
    split_ifs at hk
    · cases hk
      exact Or.inr (Or.inl hi)
    · exact Or.inr (Or.inr ⟨job', hk, hcan⟩)

theorem cancelWaiter_moves (htab : ∀ job, s.jobs[j]? = some job → s.coalesce.jobs[j]? = job.entry) :
    Moves (books s) (books (s.cancelWaiter j inc).2) := by
  have hwithdraw : ∀ job ws, s.jobs[j]? = some job → job.kind ≠ .flush → State.detachWaiter inc job.waiters = some ws →
      Moves (books s) (books (s.withdrawn j job ws)) :=
    fun job ws hj hk hw => .single (.withdraws _ j job inc ws hj hk hw trivial)
  have hself : ∀ job ws, (s.withdrawn j job ws).jobs[j]? = some { job with waiters := ws } := by
    intro job ws
    show (s.jobs.insert j _)[j]? = _
    rw [get_insert, if_pos rfl]
  generalize hr : s.cancelWaiter j inc = r
  have hcase := cancelWaiter_cases s j inc
  rw [hr] at hcase
  cases hcase with
  | nothing h => exact .refl
  | others job ws n hj hk hw hn => exact hwithdraw job ws hj hk hw
  | inSubmit job ws hj hk hw hn hs =>
    exact (hwithdraw job ws hj hk hw).trans (marked_moves (hself job ws) (interested_last (htab job hj) hk hw hn))
  | inQueue job ws hj hk hw hn hs =>
    refine (hwithdraw job ws hj hk hw).trans ?_
    rw [← books_unqueue _ { job with waiters := ws }]
    exact endJob_moves _ j _
  | inStore job ws i hj hk hw hn hs =>
    exact (hwithdraw job ws hj hk hw).trans (marked_moves (hself job ws) (interested_last (htab job hj) hk hw hn))

end Cancel

/-! ## The worker thread -/

section Thread

variable {s : State} {j : JobId}

/-- The store refused the job, or the job is gone, or it has its id now. -/
theorem register_moves {res : Except PlatformError JobId} (h : ∀ i, res = .ok i → s.byInner[i]? = none) :
    Moves (books s) (books (s.register j res).1) ∨
    ∃ job i, res = .ok i ∧ s.jobs[j]? = some job ∧ books (s.register j res).1 = (books s).assigns j job i := by
  unfold State.register
  cases res with
  | error e => exact Or.inl (endJob_moves s j _)
  | ok i =>
    dsimp only
    have hi := h i rfl
    cases hj : s.jobs[j]? with
    | none => exact Or.inl .refl
    | some job =>
      dsimp only
      rw [hi]
      exact Or.inr ⟨job, i, rfl, rfl, rfl⟩

theorem reapOne_moves {c : Completion} (h : c.terminal = none → ∀ j job, s.byInner[c.job]? = some j →
    s.jobs[j]? = some job → job.kind = .store) : Moves (books s) (books (s.reapOne c)) := by
  unfold State.reapOne
  cases ho : s.byInner[c.job]? with
  | none => exact .refl
  | some j =>
    dsimp only
    cases hj : s.jobs[j]? with
    | none => exact .refl
    | some job =>
      dsimp only
      by_cases hinc : job.inc ≠ c.incarnation
      · rw [if_pos hinc]
      · rw [if_neg hinc]
        cases ht : c.terminal with
        | some terminal =>
          dsimp only
          rw [books_finishJob]
          exact .single (.ends _ j job hj trivial)
        | none =>
          dsimp only
          by_cases hstale : job.progressSeen = true ∨ c.stage.rank ≤ job.stage.rank
          · rw [if_pos hstale]
          · rw [if_neg hstale]
            have hk := h ht j job ho hj
            rw [not_or] at hstale
            have hmove := Move.reports (P := fun _ _ => True) (books s) j job c.stage hj hk (by simpa using hstale.1) trivial
            refine .single ?_
            convert hmove using 1
            unfold Books.reports books
            simp [hk]

end Thread

end SovereignCore.Store
