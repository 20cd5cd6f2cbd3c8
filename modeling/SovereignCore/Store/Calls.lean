import Mathlib
import SovereignCore.Store.Worker
import SovereignCore.Lib.Rides

/-!
# The storage worker's calls, its thread and the store behind it

The calls of `StorageWorker` and the body of `worker_loop`, cut where the lock is released or the inner store is
called. What the inner store answers is not decided here: `Inner` is what it owes, and its moves are those its contract
allows (one terminal per accepted job, with the opener's token; at most one progress report before it, for stores only;
a store of a key that is in flight may be merged into the job that stores it).

* `State.submitStore`, `State.submitLoad`, `State.submitLoadCoalesced`, `State.submitFlush`, `State.attachWaiter`,
  `State.cancelWaiter`, `State.poll` : the calls;
* `State.register`, `State.reap` : what the worker thread does with the store's answers;
* `System`, `Step` : the worker, its thread, the inner store and the callers.
-/

namespace SovereignCore.Store

open Std

def headerRegion : Nat := 4096

def maxSegments : Nat := 119

def validateStoreHeader (ns : NamespaceId) (header : ChunkHeader) (src : PinnedSource) : Except PlatformError Unit :=
  if header.namespaceId ≠ ns ∨ header.payloadLen = 0 ∨ src.totalBytes ≠ some header.payloadLen ∨ header.blockSize = 0 ∨
      src.blockCount = 0 ∨ maxSegments < src.blockCount then .error .invalidLayout
  else
    let full := (src.blockCount - 1) * header.blockSize
    let tail := header.tokenCount - full
    if full ≤ header.tokenCount ∧ 1 ≤ tail ∧ tail ≤ header.blockSize ∧ tail = src.tailValidTokens then .ok ()
    else .error .invalidLayout

def validateLoadDest (key : ChunkKey) (payloadLen : Option Nat) (expect : ChunkHeader) (dst : PinnedDest) :
    Except PlatformError Nat :=
  match payloadLen with
  | none => .error (.objectNotFound key)
  | some len =>
    if expect.chunkKey ≠ key ∨ expect.payloadLen ≠ len ∨ dst.totalBytes ≠ some len ∨ dst.blockBytes = 0 then
      .error .invalidLayout
    else .ok len

/-- How a coalesced load was placed. -/
inductive LoadTicket
  | started (job : JobId)
  | attached (job : JobId)
  deriving DecidableEq

def LoadTicket.job : LoadTicket → JobId
  | started j => j
  | attached j => j

namespace State

variable (s : State)

/-! ## Submitting -/

def openLoad (key : ChunkKey) (len : Nat) (expect : ChunkHeader) (dst : PinnedDest) (inc : Incarnation) :
    JobId × State :=
  let id := s.nextJob
  let bytes := len + headerRegion
  let job : WorkerJob := {
    id := id, cls := .restore, kind := .load, inc := inc, key := key, bytes := bytes, payloadLen := len, reserved := 0,
    payload := some (.load expect dst), waiters := [{ inc := inc }] }
  (id, { s with
    nextJob := id + 1
    restoreOps := s.restoreOps + 1
    restoreBytes := s.restoreBytes + bytes
    restoreQueue := s.restoreQueue ++ [id]
    coalesce := s.coalesce.open .load key id
    jobs := s.jobs.insert id job })

/-- The locked part of `submit_load`; `payloadLen` is what the store's index answered. -/
def submitLoad (store : StoreState) (payloadLen : Option Nat) (key : ChunkKey) (expect : ChunkHeader)
    (dst : PinnedDest) (inc : Incarnation) : Except PlatformError (JobId × State) := do
  s.checkStoreState store false
  let len ← validateLoadDest key payloadLen expect dst
  s.creditCheck .restore (len + headerRegion)
  .ok (s.openLoad key len expect dst inc)

/-- The fast path of `submit_load_coalesced`: join a load of the key, if there is one. -/
def attachLoad (store : StoreState) (key : ChunkKey) (inc : Incarnation) :
    Except PlatformError (Option (LoadTicket × State)) := do
  s.checkStoreState store false
  match s.coalesce.find .load key with
  | none => .ok none
  | some job =>
    let s ← s.tryAttach job inc
    .ok (some (.attached job, s))

/-- The second locked part of `submit_load_coalesced`: the key may have a load by now. -/
def submitLoadCoalesced (store : StoreState) (payloadLen : Option Nat) (key : ChunkKey) (expect : ChunkHeader)
    (dst : PinnedDest) (inc : Incarnation) : Except PlatformError (LoadTicket × State) := do
  match ← s.attachLoad store key inc with
  | some r => .ok r
  | none =>
    let len ← validateLoadDest key payloadLen expect dst
    s.creditCheck .restore (len + headerRegion)
    let (id, s) := s.openLoad key len expect dst inc
    .ok (.started id, s)

/-- A store of a key that has a live store job joins it or is told to retry. -/
def joinStore (existing : JobId) (key : ChunkKey) (inc : Incarnation) : Except PlatformError (JobId × State) :=
  let ok := s.jobs[existing]?.any fun j => !j.cancelling
  let already := s.jobs[existing]?.any fun j => j.waiters.any fun w => w.inc = inc && !w.detached
  if ok && already then .ok (existing, s)
  else if ok ∧ s.coalesce.find .store key = some existing then
    match s.tryAttach existing inc with
    | .ok s => .ok (existing, s)
    | .error _ => .error .queueFull
  else .error .queueFull

def openStore (header : ChunkHeader) (src : PinnedSource) (inc : Incarnation) : JobId × State :=
  let id := s.nextJob
  let key := header.chunkKey
  let bytes := header.payloadLen + headerRegion
  let job : WorkerJob := {
    id := id, cls := .park, kind := .store, inc := inc, key := key, bytes := bytes, payloadLen := header.payloadLen,
    reserved := bytes, payload := some (.store header src), waiters := [{ inc := inc }] }
  (id, { s with
    nextJob := id + 1
    parkOps := s.parkOps + 1
    parkBytes := s.parkBytes + bytes
    reservedBytes := s.reservedBytes + bytes
    parkQueue := s.parkQueue ++ [id]
    coalesce := s.coalesce.open .store key id
    storeByKey := s.storeByKey.insert key id
    jobs := s.jobs.insert id job })

/-- The locked part of `submit_store`. -/
def submitStore (ns : NamespaceId) (store : StoreState) (header : ChunkHeader) (src : PinnedSource)
    (inc : Incarnation) : Except PlatformError (JobId × State) := do
  s.checkStoreState store true
  validateStoreHeader ns header src
  match s.storeByKey[header.chunkKey]? with
  | some existing => s.joinStore existing header.chunkKey inc
  | none =>
    s.creditCheck .park (header.payloadLen + headerRegion)
    .ok (s.openStore header src inc)

def openFlush (inc : Incarnation) : JobId × State :=
  let id := s.nextJob
  let job : WorkerJob := {
    id := id, cls := .park, kind := .flush, inc := inc, key := 0, bytes := 0, payloadLen := 0, reserved := 0,
    payload := some .flush, waiters := [{ inc := inc }] }
  (id, { s with
    nextJob := id + 1
    parkOps := s.parkOps + 1
    parkQueue := s.parkQueue ++ [id]
    jobs := s.jobs.insert id job })

def submitFlush (store : StoreState) (inc : Incarnation) : Except PlatformError (JobId × State) := do
  s.checkStoreState store false
  s.creditCheck .park 0
  .ok (s.openFlush inc)

def attachWaiter (job : JobId) (inc : Incarnation) : Except PlatformError State :=
  if s.jobs[job]?.any fun j => j.kind = .load && !j.cancelling then s.tryAttach job inc
  else .error (.taskRejected "not an in-flight load")

/-! ## Polling and cancelling -/

def poll (max : Nat) : List Completion × State :=
  let s := s.reapOrphans
  (s.completions.take max, { s with completions := s.completions.drop max })

def detachWaiter (inc : Incarnation) : List Waiter → Option (List Waiter)
  | [] => none
  | w :: ws =>
    if w.inc = inc ∧ w.detached = false then some ({ w with detached := true } :: ws)
    else (detachWaiter inc ws).map (w :: ·)

def unqueue (j : WorkerJob) : State :=
  match j.cls with
  | .restore => { s with restoreQueue := s.restoreQueue.filter (· ≠ j.id) }
  | .park => { s with parkQueue := s.parkQueue.filter (· ≠ j.id) }

/-- The locked part of `cancel_waiter`: an outcome, or the store's job to cancel. -/
def cancelWaiter (job : JobId) (inc : Incarnation) : Except CancelOutcome JobId × State :=
  match s.jobs[job]? with
  | none => (.error .tooLate, s)
  | some j =>
    if j.kind = .flush then (.error .tooLate, s)
    else
      match detachWaiter inc j.waiters with
      | none => (.error .tooLate, s)
      | some waiters =>
        let j := { j with waiters := waiters }
        let (table, left) := s.coalesce.detach job
        let s := { s with jobs := s.jobs.insert job j, coalesce := table }
        match left with
        | .remaining _ => (.error .tooLate, s)
        | _ =>
          match j.status with
          | .dispatching => (.error .tooLate, { s with jobs := s.jobs.insert job { j with cancelling := true } })
          | .queued => (.error .cancelled, (s.unqueue j).endJob job fun _ => .cancelled)
          | .dispatched inner => (.ok inner, { s with jobs := s.jobs.insert job { j with cancelling := true } })

def cancelRefused (job : JobId) : State := { s with jobs := s.jobs.modify job fun j => { j with cancelling := false } }

/-- The first locked part of `shutdown` and of `drop`. -/
def beginShutdown (drop : Bool) : State × List HandedJob × List (JobId × JobId) :=
  let before := if drop then s.shutdownPublishedBefore else s.shutdownPublishedBefore.or (some s.publishedTotal)
  { s with
    workerDropped := s.workerDropped || drop
    closed := true
    innerShutdownRequested := true
    shutdownPublishedBefore := before }.cancelUnstarted

/-! ## The worker thread -/

def takeHanded : Option (HandedJob × State) :=
  let s := s.handOver
  match s.handed with
  | [] => none
  | h :: rest => some (h, { s with handed := rest })

/-- The store's answer to a submit. The answer here is the store's job to cancel, when a cancel came meanwhile. -/
def register (id : JobId) (res : Except PlatformError JobId) : State × Option JobId :=
  match res with
  | .error e => (s.endJob id fun _ => .failed e, none)
  | .ok inner =>
    match s.jobs[id]? with
    | none => (s, none)
    | some job =>
      let job := { job with status := .dispatched inner }
      if s.byInner[inner]?.any fun o => o ≠ id then
        -- the store merged this job into another live one
        ({ s with jobs := s.jobs.insert id { job with orphaned := some (.hardwareFault "store merged two jobs") } },
          none)
      else
        ({ s with jobs := s.jobs.insert id job, byInner := s.byInner.insert inner id },
          if job.cancelling then some inner else none)

def reapOne (c : Completion) : State :=
  match s.byInner[c.job]? with
  | none => s
  | some id =>
    match s.jobs[id]? with
    | none => s
    | some job =>
      if job.inc ≠ c.incarnation then s
      else
        match c.terminal with
        | none =>
          if job.progressSeen ∨ c.stage.rank ≤ job.stage.rank then s
          else
            let done := JobStage.completed.rank ≤ c.stage.rank ∧ job.kind = .store
            let job' : WorkerJob :=
              { job with progressSeen := true, stage := c.stage, reserved := if done then 0 else job.reserved }
            { s with
              reservedBytes := if done then s.reservedBytes - job.reserved else s.reservedBytes
              jobs := s.jobs.insert id job'
              completions := s.completions ++ job.waiters.map fun w =>
                { job := id, incarnation := w.inc, key := job.key, stage := c.stage, terminal := none,
                  publish := c.publish, bytes := c.bytes, holder := none } }
        | some terminal => { s with jobs := s.jobs.erase id }.finishJob job terminal c.stage c.publish

def reap (comps : List Completion) : State := comps.foldl reapOne s

def returnLeases (ids : List JobId) : State :=
  { s with jobs := s.jobs.map fun id j =>
    if id ∈ ids ∧ j.leaseBack = some false then { j with leaseBack := some true } else j }

/-- The worker thread panicked: intake is closed and the jobs that the store never got are dropped. -/
def panic : State :=
  { s with panicked := true, closed := true, restoreQueue := [], parkQueue := [], handed := [] }.returnLeases
    (s.handed.map HandedJob.id)

def orphanJobs : State :=
  let fail (j : WorkerJob) : WorkerJob := { j with orphaned := some (.hardwareFault "storage worker panicked") }
  { s with jobs := s.jobs.map fun _ j => fail j }

def orphanAll : State := s.orphanJobs.reapOrphans

end State

/-! ## The store behind the worker -/

/-- A job that the store accepted and has not ended. -/
structure InnerJob where
  id : JobId
  opener : JobId
  inc : Incarnation
  kind : JobKind
  key : ChunkKey
  progressed : Bool := false

structure Inner where
  live : List InnerJob := []
  issued : List JobId := []

def Payload.kind : Payload → JobKind
  | .store _ _ => .store
  | .load _ _ => .load
  | .flush => .flush

/-- What the store may answer to a submit. -/
inductive Inner.Takes (n : Inner) (h : HandedJob) : Except PlatformError JobId → Inner → Prop
  | refused (e : PlatformError) : Takes n h (.error e) n
  | accepted (id : JobId) (hid : id ∉ n.issued) :
      Takes n h (.ok id) ⟨⟨id, h.id, h.inc, h.payload.kind, h.key, false⟩ :: n.live, id :: n.issued⟩
  /-- A store of a key that is already in flight returns the existing job's id. -/
  | merged (j : InnerJob) (hj : j ∈ n.live) (hs : j.kind = .store) (hk : j.key = h.key) (hp : h.payload.kind = .store) :
      Takes n h (.ok j.id) n

/-- What one call of the store's `poll` may return. -/
inductive Inner.Answers : Inner → List Completion → Inner → Prop
  | nil (n : Inner) : Answers n [] n
  | progress (pre post : List InnerJob) (j : InnerJob) (issued : List JobId) (c : Completion) (cs : List Completion)
      (n : Inner) (hs : j.kind = .store) (hp : j.progressed = false) (hj : c.job = j.id) (hi : c.incarnation = j.inc)
      (ht : c.terminal = none) (h : Answers ⟨pre ++ { j with progressed := true } :: post, issued⟩ cs n) :
      Answers ⟨pre ++ j :: post, issued⟩ (c :: cs) n
  | terminal (pre post : List InnerJob) (j : InnerJob) (issued : List JobId) (c : Completion) (cs : List Completion)
      (n : Inner) (hj : c.job = j.id) (hi : c.incarnation = j.inc) (ht : c.terminal.isSome = true)
      (h : Answers ⟨pre ++ post, issued⟩ cs n) : Answers ⟨pre ++ j :: post, issued⟩ (c :: cs) n

/-! ## The system -/

/-- Where the worker thread is. -/
inductive Thread
  | looping
  | holding (h : HandedJob)
  | answered (id : JobId) (res : Except PlatformError JobId)
  | cancelling (id inner : JobId)
  | reaping (comps : List Completion)
  | unwinding
  | exited

structure System where
  state : State
  thread : Thread := .looping
  inner : Inner := {}
  asked : List (JobId × JobId) := []
  accepted : List (JobId × Incarnation) := []
  polled : List Completion := []

inductive Step : System → System → Prop
  | submitStore (y : System) (ns : NamespaceId) (store : StoreState) (header : ChunkHeader) (src : PinnedSource)
      (inc : Incarnation) (id : JobId) (s : State) (h : y.state.submitStore ns store header src inc = .ok (id, s)) :
      Step y { y with state := s, accepted := (id, inc) :: y.accepted }
  | submitLoad (y : System) (store : StoreState) (len : Option Nat) (key : ChunkKey) (expect : ChunkHeader)
      (dst : PinnedDest) (inc : Incarnation) (id : JobId) (s : State)
      (h : y.state.submitLoad store len key expect dst inc = .ok (id, s)) :
      Step y { y with state := s, accepted := (id, inc) :: y.accepted }
  | attachLoad (y : System) (store : StoreState) (key : ChunkKey) (inc : Incarnation) (t : LoadTicket) (s : State)
      (h : y.state.attachLoad store key inc = .ok (some (t, s))) :
      Step y { y with state := s, accepted := (t.job, inc) :: y.accepted }
  | submitLoadCoalesced (y : System) (store : StoreState) (len : Option Nat) (key : ChunkKey) (expect : ChunkHeader)
      (dst : PinnedDest) (inc : Incarnation) (t : LoadTicket) (s : State)
      (h : y.state.submitLoadCoalesced store len key expect dst inc = .ok (t, s)) :
      Step y { y with state := s, accepted := (t.job, inc) :: y.accepted }
  | submitFlush (y : System) (store : StoreState) (inc : Incarnation) (id : JobId) (s : State)
      (h : y.state.submitFlush store inc = .ok (id, s)) :
      Step y { y with state := s, accepted := (id, inc) :: y.accepted }
  | attachWaiter (y : System) (job : JobId) (inc : Incarnation) (s : State)
      (h : y.state.attachWaiter job inc = .ok s) :
      Step y { y with state := s, accepted := (job, inc) :: y.accepted }
  | poll (y : System) (max : Nat) :
      Step y { y with state := (y.state.poll max).2, polled := y.polled ++ (y.state.poll max).1 }
  | cancelWaiter (y : System) (job : JobId) (inc : Incarnation) :
      Step y { y with
        state := (y.state.cancelWaiter job inc).2
        asked := ((y.state.cancelWaiter job inc).1.toOption.map fun i => (job, i)).toList ++ y.asked }
  | cancelAnswered (y : System) (pre post : List (JobId × JobId)) (job inner : JobId) (out : CancelOutcome)
      (h : y.asked = pre ++ (job, inner) :: post) :
      Step y { y with
        state := if out = .tooLate then y.state.cancelRefused job else y.state
        asked := pre ++ post }
  | pauseDispatch (y : System) : Step y { y with state := { y.state with paused := true } }
  | resumeDispatch (y : System) : Step y { y with state := { y.state with paused := false }.handOver }
  /-- `shutdown` begins, or the worker's handle is dropped. -/
  | beginShutdown (y : System) (drop : Bool) :
      Step y { y with
        state := (y.state.beginShutdown drop).1
        asked := (y.state.beginShutdown drop).2.2 ++ y.asked }
  /-- A round of the waiting loop of `shutdown`, or the end of a round of the worker's loop. -/
  | reapOrphans (y : System) : Step y { y with state := y.state.reapOrphans }
  | take (y : System) (h : HandedJob) (s : State) (ht : y.thread = .looping) (hs : y.state.takeHanded = some (h, s)) :
      Step y { y with state := s, thread := .holding h }
  | idle (y : System) (ht : y.thread = .looping) : Step y { y with state := y.state.handOver }
  | submit (y : System) (h : HandedJob) (res : Except PlatformError JobId) (n : Inner) (ht : y.thread = .holding h)
      (hn : y.inner.Takes h res n) : Step y { y with inner := n, thread := .answered h.id res }
  | register (y : System) (id : JobId) (res : Except PlatformError JobId) (ht : y.thread = .answered id res) :
      Step y { y with
        state := (y.state.register id res).1
        thread := match (y.state.register id res).2 with
          | some inner => .cancelling id inner
          | none => .looping }
  | forwarded (y : System) (id inner : JobId) (out : CancelOutcome) (ht : y.thread = .cancelling id inner) :
      Step y { y with
        state := if out = .tooLate then y.state.cancelRefused id else y.state
        thread := .looping }
  | innerShutdown (y : System) (ht : y.thread = .looping) (h : y.state.innerShutdownRequested = true) :
      Step y { y with state := { y.state with innerShutdownCalled := true } }
  | innerPoll (y : System) (comps : List Completion) (n : Inner) (ht : y.thread = .looping)
      (hn : y.inner.Answers comps n) : Step y { y with inner := n, thread := .reaping comps }
  | reap (y : System) (comps : List Completion) (ht : y.thread = .reaping comps) :
      Step y { y with state := y.state.reap comps, thread := .looping }
  | exit (y : System) (ht : y.thread = .looping) (hd : y.state.workerDropped = true)
      (hc : y.state.reapOrphans.dispatchedCount = 0) : Step y { y with state := y.state.reapOrphans, thread := .exited }
  | panic (y : System) (ht : y.thread ≠ .exited) (hu : y.thread ≠ .unwinding) :
      Step y { y with state := y.state.panic, thread := .unwinding }
  | orphanAll (y : System) (ht : y.thread = .unwinding) :
      Step y { y with state := y.state.orphanAll, thread := .exited }
  | leaseBack (y : System) (id : JobId) : Step y { y with state := y.state.returnLeases [id] }

def System.new (cfg : WorkerConfig) : System := { state := .new cfg }

abbrev Run := Relation.ReflTransGen Step

end SovereignCore.Store
