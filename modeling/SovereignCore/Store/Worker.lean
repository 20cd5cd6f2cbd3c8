import SovereignCore.Lib.Table
import SovereignCore.Lib.Result

/-!
# The storage worker's state

The state behind the lock of `StorageWorker` (`worker.rs`), with the coalescing table it keeps inside it
(`coalesce.rs`): jobs from submit to their terminal, the two intake queues, the hand-over slot, the completion queue.
Every function here is one that runs under the lock. Times and counters that only feed statistics are left out.

* `CoalesceTable` : who rides on which job;
* `WorkerJob`, `State` : a job, and everything behind the lock;
* `State.finishJob`, `State.reapOrphans`, `State.cancelUnstarted` : the ways a job ends;
* `State.popNextToDispatch`, `State.handOver` : dispatch by credits.
-/

namespace SovereignCore.Store

open Std

/-! ## The store contract's types -/

/-- Never reused within a store's lifetime. -/
abbrev JobId := Nat

abbrev ChunkKey := BitVec 256

instance : TransOrd ChunkKey := inferInstance

abbrev NamespaceId := BitVec 256

inductive PlatformError
  | outOfMemory
  | deviceUnavailable
  | invalidLayout
  | queueFull
  | queueEmpty
  | taskRejected (why : String)
  | objectNotFound (key : ChunkKey)
  | accessDenied
  | hardwareFault (why : String)
  | unsupportedOperation
  deriving DecidableEq, Repr

/-- The caller's token: a sequence id and its residency epoch. -/
structure Incarnation where
  seqId : UInt64
  epoch : UInt32
  deriving DecidableEq, Repr

inductive JobStage
  | submitted
  | completed
  | published
  | durable
  deriving DecidableEq, Repr

def JobStage.rank : JobStage → Nat
  | submitted => 0
  | completed => 1
  | published => 2
  | durable => 3

inductive PublishOutcome
  | notApplicable
  | durable
  | indeterminate
  deriving DecidableEq, Repr

inductive StoreState
  | recovering
  | open
  | degraded
  | failed
  deriving DecidableEq, Repr

inductive Terminal
  | done (stage : JobStage)
  | failed (e : PlatformError)
  | cancelled
  deriving DecidableEq, Repr

inductive CancelOutcome
  | cancelled
  | tooLate
  deriving DecidableEq, Repr

/-- Keeps a holder table alive; dropping it frees the table and its generation. -/
structure HolderGuard where
  holder : UInt64
  generation : UInt32
  deriving DecidableEq, Repr

structure Completion where
  job : JobId
  incarnation : Incarnation
  key : ChunkKey
  stage : JobStage
  /-- `none`: a progress report. `some`: the one terminal completion. -/
  terminal : Option Terminal
  publish : PublishOutcome
  bytes : Nat
  holder : Option HolderGuard
  deriving DecidableEq

/-- The header fields that admission reads. -/
structure ChunkHeader where
  chunkKey : ChunkKey
  namespaceId : NamespaceId
  payloadLen : Nat
  blockSize : Nat
  tokenCount : Nat
  deriving DecidableEq

/-- Pinned pool blocks to read: their bytes, `none` on overflow. -/
structure PinnedSource where
  totalBytes : Option Nat
  blockCount : Nat
  tailValidTokens : Nat
  guard : HolderGuard
  deriving DecidableEq

/-- Pinned pool blocks to write. -/
structure PinnedDest where
  totalBytes : Option Nat
  blockBytes : Nat
  guard : HolderGuard
  deriving DecidableEq

/-! ## Coalescing -/

inductive Share
  | load
  | store
  deriving DecidableEq

inductive AttachRefused
  | noSuchJob
  | jobFull
  | totalFull
  deriving DecidableEq

inductive Detach
  | unknown
  | remaining (n : Nat)
  | last
  deriving DecidableEq

structure CoalesceEntry where
  share : Share
  key : ChunkKey
  waiters : Nat

/-- Key to job bookkeeping, with per-job and total waiter bounds. -/
structure CoalesceTable where
  maxWaitersPerJob : Nat
  maxWaitersTotal : Nat
  byKey : Share → ExtTreeMap ChunkKey JobId := fun _ => ∅
  jobs : ExtTreeMap JobId CoalesceEntry := ∅
  attachedTotal : Nat := 0

namespace CoalesceTable

variable (t : CoalesceTable)

/-- `job` owns the key, with its opener as waiter 1. A job with waiters that already owns the key stays its target. -/
def «open» (share : Share) (key : ChunkKey) (job : JobId) : CoalesceTable :=
  let taken := ((t.byKey share)[key]?.bind fun j => t.jobs[j]?).any fun e => 0 < e.waiters
  let byKey := if taken then t.byKey else Function.update t.byKey share ((t.byKey share).insert key job)
  { t with byKey := byKey, jobs := t.jobs.insert job ⟨share, key, 1⟩ }

def find (share : Share) (key : ChunkKey) : Option JobId :=
  (t.byKey share)[key]?.filter fun job => t.jobs[job]?.any fun e => 0 < e.waiters

def attach (job : JobId) : Except AttachRefused CoalesceTable :=
  match t.jobs[job]? with
  | none => .error .noSuchJob
  | some e =>
    if e.waiters = 0 then .error .noSuchJob
    else if t.maxWaitersPerJob ≤ e.waiters then .error .jobFull
    else if t.maxWaitersTotal ≤ t.attachedTotal then .error .totalFull
    else .ok { t with
      jobs := t.jobs.insert job { e with waiters := e.waiters + 1 }
      attachedTotal := t.attachedTotal + 1 }

def detach (job : JobId) : CoalesceTable × Detach :=
  match t.jobs[job]? with
  | none => (t, .unknown)
  | some e =>
    if e.waiters ≤ 1 then ({ t with jobs := t.jobs.insert job { e with waiters := 0 } }, .last)
    else
      ({ t with
        jobs := t.jobs.insert job { e with waiters := e.waiters - 1 }
        attachedTotal := t.attachedTotal - 1 }, .remaining (e.waiters - 1))

def close (job : JobId) : CoalesceTable :=
  match t.jobs[job]? with
  | none => t
  | some e =>
    let byKey :=
      if (t.byKey e.share)[e.key]? = some job then Function.update t.byKey e.share ((t.byKey e.share).erase e.key)
      else t.byKey
    { t with byKey := byKey, jobs := t.jobs.erase job, attachedTotal := t.attachedTotal - (e.waiters - 1) }

end CoalesceTable

/-! ## Jobs -/

/-- The two intake classes; a flush counts as a park. -/
inductive Class
  | restore
  | park
  deriving DecidableEq, Repr

inductive JobKind
  | store
  | load
  | flush
  deriving DecidableEq, Repr

inductive Payload
  | store (header : ChunkHeader) (src : PinnedSource)
  | load (expect : ChunkHeader) (dst : PinnedDest)
  | flush

/-- The caller's own guard of the blocks, kept by the worker while the store has a lease on them. -/
def Payload.guard : Payload → Option HolderGuard
  | store _ src => some src.guard
  | load _ dst => some dst.guard
  | flush => none

inductive Status
  | queued
  | dispatching
  | dispatched (inner : JobId)
  deriving DecidableEq, Repr

/-- One request riding a job; `detached` once it cancelled its interest. -/
structure Waiter where
  inc : Incarnation
  detached : Bool := false
  deriving DecidableEq

structure WorkerJob where
  id : JobId
  cls : Class
  kind : JobKind
  inc : Incarnation
  key : ChunkKey
  bytes : Nat
  payloadLen : Nat
  reserved : Nat
  stage : JobStage := .submitted
  status : Status := .queued
  cancelling : Bool := false
  payload : Option Payload
  progressSeen : Bool := false
  waiters : List Waiter
  landing : Option HolderGuard := none
  leaseBack : Option Bool := none
  /-- The job lost its link to the store. It ends with this failure once the store gave the lease back. -/
  orphaned : Option PlatformError := none

def WorkerJob.storeHoldsLease (j : WorkerJob) : Bool := j.leaseBack = some false

/-- A job between the queues and the store. -/
structure HandedJob where
  id : JobId
  cls : Class
  inc : Incarnation
  key : ChunkKey
  payload : Payload

/-- An entry of `dispatch_log`, with whether a job of the other class waited then (not in the source). -/
structure DispatchEntry where
  id : JobId
  cls : Class
  otherWaits : Bool
  deriving DecidableEq

structure WorkerConfig where
  maxRestoreOps : Nat := 48
  maxParkOps : Nat := 64
  maxInflightBytes : Nat := 256 * 2 ^ 20
  maxWaitersPerJob : Nat := 16
  maxWaitersTotal : Nat := 1024
  dispatchDepth : Nat := 4
  startPaused : Bool := false

structure State where
  cfg : WorkerConfig
  paused : Bool
  closed : Bool := false
  workerDropped : Bool := false
  panicked : Bool := false
  nextJob : JobId := 1
  restoreQueue : List JobId := []
  parkQueue : List JobId := []
  restoreCredits : Nat := 3
  restoreOps : Nat := 0
  parkOps : Nat := 0
  restoreBytes : Nat := 0
  parkBytes : Nat := 0
  reservedBytes : Nat := 0
  dispatchedCount : Nat := 0
  jobs : ExtTreeMap JobId WorkerJob := ∅
  byInner : ExtTreeMap JobId JobId := ∅
  storeByKey : ExtTreeMap ChunkKey JobId := ∅
  coalesce : CoalesceTable
  completions : List Completion := []
  handed : List HandedJob := []
  dispatchLog : List DispatchEntry := []
  publishedTotal : Nat := 0
  shutdownCancelled : Nat := 0
  shutdownPublishedBefore : Option Nat := none
  innerShutdownRequested : Bool := false
  innerShutdownCalled : Bool := false
  graveyard : List HolderGuard := []

namespace State

def new (cfg : WorkerConfig) : State where
  cfg := cfg
  paused := cfg.startPaused
  coalesce := { maxWaitersPerJob := cfg.maxWaitersPerJob, maxWaitersTotal := cfg.maxWaitersTotal }

variable (s : State)

/-! ## Admission -/

def completionCapacity : Nat := 3 * (s.cfg.maxRestoreOps + s.cfg.maxParkOps)

def parkByteLimit : Nat := s.cfg.maxInflightBytes / 4

def restoreByteLimit : Nat := s.cfg.maxInflightBytes - s.parkByteLimit

def checkStoreState (storeState : StoreState) (needsOpen : Bool) : Except PlatformError Unit :=
  if s.closed || s.panicked then .error .deviceUnavailable
  else if storeState = .recovering then .error .queueFull
  else if storeState = .failed ∨ (needsOpen = true ∧ storeState = .degraded) then .error .deviceUnavailable
  else .ok ()

/-- Completion slots held for the riders of a job beyond its opener. -/
def slotsPer (kind : JobKind) : Nat := if kind = .store then 2 else 1

def waiterSlots : Nat := ((Table.values s.jobs).map fun j => (j.waiters.length - 1) * slotsPer j.kind).sum

/-- Add `inc` as a waiter of `job`. -/
def tryAttach (job : JobId) (inc : Incarnation) : Except PlatformError State :=
  match s.jobs[job]? with
  | none => .error (.taskRejected "not an in-flight load")
  | some j =>
    if j.kind = .flush ∨ j.cancelling = true then .error (.taskRejected "not an in-flight load")
    else if j.waiters.any fun w => w.inc = inc then .error (.taskRejected "incarnation already waits on this job")
    else if s.completionCapacity < s.completions.length + 3 * s.jobs.size + s.waiterSlots + slotsPer j.kind then
      .error .queueFull
    else
      match s.coalesce.attach job with
      | .ok t =>
        .ok { s with coalesce := t, jobs := s.jobs.insert job { j with waiters := j.waiters ++ [{ inc := inc }] } }
      | .error .jobFull => .error .queueFull
      | .error .totalFull => .error .queueFull
      | .error .noSuchJob => .error (.taskRejected "not an in-flight load")

def creditCheck (cls : Class) (bytes : Nat) : Except PlatformError Unit :=
  let (ops, maxOps, used, limit) := match cls with
    | .park => (s.parkOps, s.cfg.maxParkOps, s.parkBytes, s.parkByteLimit)
    | .restore => (s.restoreOps, s.cfg.maxRestoreOps, s.restoreBytes, s.restoreByteLimit)
  if maxOps ≤ ops ∨ limit < used + bytes ∨
      s.completionCapacity < s.completions.length + 3 * s.jobs.size + s.waiterSlots + 3 then .error .queueFull
  else .ok ()

/-! ## Ending a job -/

def riders (job : WorkerJob) : List Waiter := if job.waiters.isEmpty then [{ inc := job.inc }] else job.waiters

def returnCredits (job : WorkerJob) : State :=
  let s := match job.cls with
    | .park => { s with parkOps := s.parkOps - 1, parkBytes := s.parkBytes - job.bytes }
    | .restore => { s with restoreOps := s.restoreOps - 1, restoreBytes := s.restoreBytes - job.bytes }
  { s with reservedBytes := s.reservedBytes - job.reserved }

def returnSlot (job : WorkerJob) : State :=
  match job.status with
  | .queued => s
  | .dispatching => { s with dispatchedCount := s.dispatchedCount - 1 }
  | .dispatched inner =>
    let byInner := if s.byInner[inner]? = some job.id then s.byInner.erase inner else s.byInner
    { s with dispatchedCount := s.dispatchedCount - 1, byInner := byInner }

def releaseKey (job : WorkerJob) : State :=
  let s := if job.kind ≠ .flush then { s with coalesce := s.coalesce.close job.id } else s
  if job.kind = .store ∧ s.storeByKey[job.key]? = some job.id then { s with storeByKey := s.storeByKey.erase job.key }
  else s

def countEnd (job : WorkerJob) (terminal : Terminal) (stage : JobStage) : State :=
  let s :=
    if (stage = .published ∨ stage = .durable) ∧ job.kind = .store then { s with publishedTotal := s.publishedTotal + 1 }
    else s
  if terminal = .cancelled ∧ s.closed = true then { s with shutdownCancelled := s.shutdownCancelled + 1 } else s

def guardOf (job : WorkerJob) : Option HolderGuard := job.landing.or (job.payload.bind Payload.guard)

/-- A completed load hands the guard back with its terminals; any other terminal releases it. -/
def adopts (job : WorkerJob) (terminal : Terminal) : Bool :=
  job.kind = .load && (match terminal with | .done _ => true | _ => false)

/-- End a job that was taken out of the table: give back what it held and send each rider its terminal. -/
def finishJob (job : WorkerJob) (terminal : Terminal) (stage : JobStage) (publish : PublishOutcome) : State :=
  let s := (((s.returnCredits job).returnSlot job).releaseKey job).countEnd job terminal stage
  let s := if adopts job terminal then s else { s with graveyard := s.graveyard ++ (guardOf job).toList }
  { s with completions := s.completions ++ (riders job).map fun w =>
    { job := job.id, incarnation := w.inc, key := job.key, stage := stage, terminal := some terminal, publish := publish,
      bytes := job.payloadLen, holder := if adopts job terminal then guardOf job else none } }

/-- Take the job out of the table and end it; nothing when it is not there. -/
def endJob (id : JobId) (terminal : WorkerJob → Terminal) : State :=
  match s.jobs[id]? with
  | none => s
  | some job => { s with jobs := s.jobs.erase id }.finishJob job (terminal job) job.stage .notApplicable

def reapable : List JobId :=
  ((Table.values s.jobs).filter fun j => j.orphaned.isSome && !j.storeHoldsLease).map WorkerJob.id

def reapOrphans : State :=
  s.reapable.foldl (fun s id => s.endJob id fun job => .failed (job.orphaned.getD (.hardwareFault ""))) s

def cancellable (j : WorkerJob) : Bool :=
  (match j.kind with
    | .flush => false
    | .load => true
    | .store => j.stage.rank < JobStage.completed.rank) && !j.cancelling && j.orphaned.isNone

/-- Mark the job so that its cancel is forwarded, when it is inside or beyond the submit call. -/
def markCancel (j : WorkerJob) : WorkerJob :=
  if cancellable j && j.status ≠ .queued then { j with cancelling := true } else j

def toCancel : List (JobId × JobId) :=
  (Table.values s.jobs).filterMap fun j =>
    match j.status with
    | .dispatched inner => if cancellable j then some (j.id, inner) else none
    | _ => none

/-- Shutdown and drop: cancel every job the store has not been given yet and mark the others. The answer is the handed
payloads, to be dropped outside the lock, and the jobs to cancel in the store. -/
def cancelUnstarted : State × List HandedJob × List (JobId × JobId) :=
  let ids := s.restoreQueue ++ s.parkQueue ++ s.handed.map HandedJob.id
  let handed := s.handed
  let s := { s with restoreQueue := [], parkQueue := [], handed := [] }
  let s := ids.foldl (fun s id => s.endJob id fun _ => .cancelled) s
  ({ s with jobs := s.jobs.map fun _ j => markCancel j }, handed, s.toCancel)

/-! ## Dispatch -/

/-- The class to serve next: three restores for each park while both wait. -/
def nextClass : Option (Class × State) :=
  match s.restoreQueue, s.parkQueue with
  | [], [] => none
  | _ :: _, [] => some (.restore, s)
  | [], _ :: _ => some (.park, { s with restoreCredits := 3 })
  | _ :: _, _ :: _ =>
    if 0 < s.restoreCredits then some (.restore, { s with restoreCredits := s.restoreCredits - 1 })
    else some (.park, { s with restoreCredits := 3 })

def popQueue (cls : Class) : Option (JobId × State) :=
  match cls with
  | .restore =>
    match s.restoreQueue with
    | [] => none
    | id :: rest => some (id, { s with restoreQueue := rest })
  | .park =>
    match s.parkQueue with
    | [] => none
    | id :: rest => some (id, { s with parkQueue := rest })

/-- The job inside the submit call: the store has a lease on its blocks, the worker keeps the caller's guard. -/
def lent (job : WorkerJob) (payload : Payload) : WorkerJob :=
  match payload.guard with
  | some g => { job with payload := none, status := .dispatching, landing := some g, leaseBack := some false }
  | none => { job with payload := none, status := .dispatching }

def otherWaits (cls : Class) : Bool :=
  match cls with
  | .restore => !s.parkQueue.isEmpty
  | .park => !s.restoreQueue.isEmpty

def lend (job : WorkerJob) (cls : Class) (payload : Payload) : HandedJob × State :=
  (⟨job.id, cls, job.inc, job.key, payload⟩,
    { s with
      jobs := s.jobs.insert job.id (lent job payload)
      dispatchedCount := s.dispatchedCount + 1
      dispatchLog := s.dispatchLog ++ [⟨job.id, cls, s.otherWaits cls⟩] })

/-- The loop of `pop_next_to_dispatch`; every round takes one id from a queue. -/
def popLoop : Nat → State → Option HandedJob × State
  | 0, s => (none, s)
  | n + 1, s =>
    match s.nextClass with
    | none => (none, s)
    | some (cls, s) =>
      match s.popQueue cls with
      | none => (none, s)
      | some (id, s) =>
        match s.jobs[id]? with
        | none => popLoop n s
        | some job =>
          match job.payload with
          | none => (none, s)
          | some payload =>
            let (h, s) := s.lend job cls payload
            (some h, s)

def waitingJobs : Nat := s.restoreQueue.length + s.parkQueue.length

def popNextToDispatch : Option HandedJob × State :=
  if s.paused || s.closed || s.panicked then (none, s)
  else if max s.cfg.dispatchDepth 1 ≤ s.dispatchedCount then (none, s)
  else popLoop s.waitingJobs s

def handOverLoop : Nat → State → State
  | 0, s => s
  | n + 1, s =>
    match s.popNextToDispatch with
    | (none, s) => s
    | (some h, s) => handOverLoop n { s with handed := s.handed ++ [h] }

/-- Move queued jobs into the hand-over slot, as many as the dispatch depth allows. -/
def handOver : State := handOverLoop (s.waitingJobs + 1) s

end State

end SovereignCore.Store
