import Mathlib
import SovereignCore.HostFs.Config
import SovereignCore.HostFs.Index

/-!
# The host store behind its lock

The state behind the lock of `HostFsStore` and everything that runs under it (`host_fs.rs`): admission, the ends of a
job, cancellation, pins, deletes. Statistics, reports, times that only feed them, and the holder guards are left out.

* `Job`, `Inner` : a job, and everything behind the lock;
* `Event` : what happened, for the statements about runs (not in the source);
* `Inner.finish`, `Inner.markCrashed`, `Inner.settleVictims` : how a job ends;
* `Inner.submitStore`, `submitLoad`, `submitFlush`, `cancel`, `pin`, `delete`, … : the calls.
-/

namespace SovereignCore.HostFs

open Store Std Result

/-! ## Files -/

/-- A name in one of the 256 shard directories. -/
structure Path where
  shard : UInt8
  name : List UInt8
  deriving DecidableEq, Repr

inductive FileKind
  | regular
  | symlink
  | other
  deriving DecidableEq, Repr

/-- What stands at a path. -/
structure Node where
  kind : FileKind
  ours : Bool
  bytes : List UInt8
  origin : Option (ChunkHeader × List (List UInt8)) := none
  unreadable : Bool := false
  deriving DecidableEq

/-- The tree under `objects/`. -/
abbrev Disk := Path → Option Node

def hexDigit (n : Nat) : UInt8 := if n < 10 then .ofNat (48 + n) else .ofNat (87 + n)

def hexEncode (bs : List UInt8) : List UInt8 := bs.flatMap fun b => [hexDigit (b.toNat / 16), hexDigit (b.toNat % 16)]

/-- `.kvc`. -/
def kvcSuffix : List UInt8 := [46, 107, 118, 99]

def objectPathFor (k : ChunkKey) : Path where
  shard := (bytes32 k).headD 0
  name := hexEncode (bytes32 k) ++ kvcSuffix

def hexVal (d : UInt8) : Option Nat :=
  if 48 ≤ d ∧ d ≤ 57 then some (d.toNat - 48) else if 97 ≤ d ∧ d ≤ 102 then some (d.toNat - 87) else none

def hexDecode : List UInt8 → Option (List UInt8)
  | [] => some []
  | [_] => none
  | hi :: lo :: l => do
    let h ← hexVal hi
    let l' ← hexVal lo
    let rest ← hexDecode l
    return .ofNat (16 * h + l') :: rest

/-- The key of an object file: 64 lowercase digits and `.kvc`, in the shard of its first byte. -/
def parseKvcFilename (name : List UInt8) (shard : UInt8) : Option ChunkKey :=
  let hex := name.take (name.length - 4)
  if name.drop (name.length - 4) ≠ kvcSuffix ∨ hex.length ≠ 64 then none
  else
    match hexDecode hex with
    | none => none
    | some bs => if bs.headD 0 ≠ shard then none else some (BitVec.ofNat 256 (Wire.beValue bs))

/-! ## Jobs -/

/-- Pinned pool blocks to read, with their bytes. -/
structure PinnedSource where
  blockBytes : UInt64
  blocks : List (List UInt8)
  tailValidTokens : UInt32
  sized : ∀ b ∈ blocks, b.length = blockBytes.toNat

/-- Pinned pool blocks to write, by number. -/
structure PinnedDest where
  blockBytes : UInt64
  blocks : List Nat
  deriving DecidableEq

/-- The bytes of `n` blocks; `none` on overflow. -/
def totalBytes (n : Nat) (blockBytes : UInt64) : Option Nat :=
  if n * blockBytes.toNat < 2 ^ 64 then some (n * blockBytes.toNat) else none

inductive Kind
  | store
  | load
  | flush
  | noop
  deriving DecidableEq, Repr

inductive Phase
  | queued
  | writing
  | syncing
  | publishing
  | reading
  | flushing
  deriving DecidableEq, Repr

structure Job where
  id : JobId
  kind : Kind
  inc : Incarnation
  key : ChunkKey
  park : Bool
  bytes : Nat := 0
  payloadLen : Nat := 0
  reserved : Nat := 0
  stage : JobStage := .submitted
  phase : Phase := .queued
  inStep : Bool := false
  cancelling : Bool := false
  crashed : Bool := false
  header : Option ChunkHeader := none
  src : Option PinnedSource := none
  dst : Option PinnedDest := none
  attached : Nat := 0
  busyHeld : Bool := false
  victims : List ChunkKey := []

structure Unlink where
  key : ChunkKey
  evict : Bool
  /-- The store job that chose the object; not in the source. -/
  chosenBy : Option JobId
  deriving DecidableEq

/-- What happened to the store since it was opened. -/
inductive Event
  | accepted (id : JobId) (kind : Kind) (key : ChunkKey)
  /-- The answer `Cancelled` of a cancel. -/
  | cancelled (id : JobId)
  | ended (id : JobId) (key : ChunkKey) (terminal : Terminal)
  | wrote (id : JobId) (i : Nat)
  /-- The job's file was renamed to its object path: its size on disk, and what the job had reserved. -/
  | published (id : JobId) (key : ChunkKey) (phys reserved : Nat)
  | victim (id : JobId) (key : ChunkKey)
  | unlinked (path : Path) (node : Node) (chosenBy : Option JobId)
  | unlinkFailed (key : ChunkKey)
  | recovered (used objects : Nat)
  /-- The worker picked a job of this class while a job of the other class waited or did not. -/
  | picked (id : JobId) (park otherWaits : Bool)

structure Inner where
  cfg : HostFsConfig
  state : StoreState
  closed : Bool := false
  nextJob : JobId := 1
  nextPin : Nat := 1
  lastClockNs : Nat := 0
  index : Index := {}
  unindexedBytes : Nat := 0
  unindexedObjects : Nat := 0
  stuckBytes : Nat := 0
  recoveryStuck : Bool := false
  recoveryDone : Bool := false
  purgeWalking : Bool := false
  purging : Option ChunkKey := none
  purgePending : Bool := false
  purgeEvictQuota : Bool := false
  reserved : Nat := 0
  jobs : ExtTreeMap JobId Job := ∅
  inflightStore : ExtTreeMap ChunkKey JobId := ∅
  unlinks : List Unlink := []
  pins : ExtTreeMap Nat (List ChunkKey) := ∅
  restoreOps : Nat := 0
  parkOps : Nat := 0
  restoreBytes : Nat := 0
  parkBytes : Nat := 0
  restoreStreak : Nat := 0
  attachedTotal : Nat := 0
  queue : List Completion := []
  allocUnit : Nat
  history : List Event := []

namespace Inner

variable (g : Inner)

/-! ## Capacity -/

def usedBytes : Nat := g.index.totalBytes + g.unindexedBytes + g.stuckBytes

def storeReservations : Nat :=
  ((Table.values g.jobs).filter fun j => j.kind = .store && 0 < j.reserved && !j.crashed).length

def bytesAfter : Nat := g.usedBytes - g.index.evictingBytes + g.reserved

def countAfter : Nat := g.index.map.size - g.index.evictingCount + g.storeReservations

def completionCapacity : Nat := 3 * (g.cfg.maxRestoreOps + g.cfg.maxParkOps)

def parkByteLimit : Nat := g.cfg.maxInflightBytes / 4

def restoreByteLimit : Nat := g.cfg.maxInflightBytes - g.parkByteLimit

def setDegraded : Inner := if g.state = .open then { g with state := .degraded } else g

/-- A time later than all before, at least `floor`; `now` is what the system clock answered. -/
def nextTimestampNs (floor now : Nat) : Nat × Inner :=
  let t := max (max now floor) (g.lastClockNs + 1)
  (t, { g with lastClockNs := t })

def gate (needsOpen : Bool) : Except PlatformError Unit :=
  if g.state = .recovering then .error .queueFull
  else if g.closed = true ∨ g.state = .failed ∨ (needsOpen = true ∧ g.state = .degraded) then .error .deviceUnavailable
  else .ok ()

def activeJobCount : Nat := ((Table.values g.jobs).filter fun j => !j.crashed).length

def creditCheck (park : Bool) (bytes : Nat) : Except PlatformError Unit :=
  let (ops, maxOps, used, limit) :=
    if park then (g.parkOps, g.cfg.maxParkOps, g.parkBytes, g.parkByteLimit)
    else (g.restoreOps, g.cfg.maxRestoreOps, g.restoreBytes, g.restoreByteLimit)
  if maxOps ≤ ops ∨ limit < used + bytes ∨ g.completionCapacity < g.queue.length + 3 * g.activeJobCount + 3 then
    .error .queueFull
  else .ok ()

/-! ## Ending a job -/

def note (e : Event) : Inner := { g with history := g.history ++ [e] }

/-- Queue the unlinks of a store's victims when its object is durable, otherwise return them to service. -/
def settleVictims (job : Job) (durable : Bool) : Inner :=
  if durable then { g with unlinks := g.unlinks ++ job.victims.map fun v => ⟨v, true, some job.id⟩ }
  else { g with index := job.victims.foldl Index.clearEvicting g.index }

/-- An ending job gives back its credits, its reservation and its waiters. -/
def giveCredits (job : Job) : Inner :=
  let g :=
    if job.park then { g with parkOps := g.parkOps - 1, parkBytes := g.parkBytes - job.bytes }
    else { g with restoreOps := g.restoreOps - 1, restoreBytes := g.restoreBytes - job.bytes }
  { g with reserved := g.reserved - job.reserved, attachedTotal := g.attachedTotal - job.attached }

/-- An ending store gives back its key, unless another store of the key has taken it over. -/
def giveKey (job : Job) : Inner :=
  if g.inflightStore[job.key]? = some job.id then { g with inflightStore := g.inflightStore.erase job.key } else g

def giveBusy (job : Job) : Inner := if job.busyHeld then { g with index := g.index.busyDec job.key } else g

def giveBack (job : Job) (durable : Bool) : Inner :=
  let g := g.giveCredits job
  let g := if job.kind = .store then (g.settleVictims job durable).giveKey job else g
  g.giveBusy job

def isDone : Terminal → Bool
  | .done _ => true
  | _ => false

/-- End a job that was taken out of the table, with its one terminal completion. -/
def finish (job : Job) (terminal : Terminal) (stage : JobStage) (publish : PublishOutcome) : Inner :=
  let g := g.giveBack job (publish = .durable && isDone terminal)
  let c : Completion :=
    { job := job.id, incarnation := job.inc, key := job.key, stage, terminal := some terminal, publish,
      bytes := job.payloadLen, holder := none }
  { g with queue := g.queue ++ [c], history := g.history ++ [.ended job.id job.key terminal] }

def failJob (job : Job) (e : PlatformError) : Inner := g.finish job (.failed e) job.stage .notApplicable

def markCrashed (job : Job) : Inner := g.giveBack job false

/-- Take the job out of the table and go on with it; nothing when it is not there. -/
def takeJob (id : JobId) (f : Inner → Job → Inner) : Inner :=
  match g.jobs[id]? with
  | none => g
  | some job => f { g with jobs := g.jobs.erase id } job

def cancelJob (id : JobId) : Inner := g.takeJob id fun g job => g.finish job .cancelled job.stage .notApplicable

def reapable : List JobId :=
  ((Table.values g.jobs).filter fun j => j.cancelling && !j.inStep && !j.crashed).map Job.id

def reapCancels : Inner := g.reapable.foldl cancelJob g

/-! ## Submitting -/

/-- The checks of a store's source against its header. -/
def checkSource (header : ChunkHeader) (src : PinnedSource) : Except PlatformError Unit :=
  if totalBytes src.blocks.length src.blockBytes ≠ some header.payloadLen.toNat ∨ src.blocks.length = 0 ∨
      maxSegments < src.blocks.length ∨ src.blockBytes ≠ g.cfg.layout.blockStride then .error .invalidLayout
  else
    let full := (src.blocks.length - 1) * header.blockSize.toNat
    if full ≤ header.tokenCount.toNat ∧ 1 ≤ header.tokenCount.toNat - full ∧
        header.tokenCount.toNat - full ≤ header.blockSize.toNat ∧
        header.tokenCount.toNat - full = src.tailValidTokens.toNat then .ok ()
    else .error .invalidLayout

/-- The entry that a load or a store of `k` finds: not marked, not of another namespace. -/
def serving (k : ChunkKey) : Option IndexEntry := (g.index.get k).filter fun e => !e.evicting && !e.foreign

def accept (job : Job) : Inner :=
  { g with nextJob := g.nextJob + 1, jobs := g.jobs.insert job.id job,
           history := g.history ++ [.accepted job.id job.kind job.key] }

/-- `n.next_multiple_of(unit)`. -/
def roundUp (n unit : Nat) : Nat := (n + unit - 1) / unit * unit

def joins (k : ChunkKey) : Option JobId :=
  g.inflightStore[k]?.filter fun id => g.jobs[id]?.any fun j => !j.cancelling && !j.crashed

def submitStore (header : ChunkHeader) (src : PinnedSource) (inc : Incarnation) :
    Except PlatformError (JobId × Inner) := do
  g.gate true
  g.cfg.checkHeader header
  g.checkSource header src
  let k := header.chunkKey
  match g.joins k with
  | some id => return (id, g)
  | none =>
    -- a key whose file is being unlinked is refused until the unlink returns
    if g.purging = some k ∨ (g.index.get k).any (·.evicting) then .error .queueFull else
    if (g.serving k).isSome then do
      g.creditCheck true 0
      let id := g.nextJob
      return (id, { g with parkOps := g.parkOps + 1 }.accept { id, kind := .noop, inc, key := k, park := true })
    else do
      let bytes := roundUp (header.payloadLen.toNat + headerRegionLen) g.allocUnit
      g.creditCheck true bytes
      let (eb, en) := if g.purgePending then (0, 0) else g.index.evictable
      if g.cfg.quotaBytes + eb < g.bytesAfter + bytes ∨ g.cfg.maxObjects + en < g.countAfter + 1 then
        .error .outOfMemory else
      let id := g.nextJob
      let g := { g with
        parkOps := g.parkOps + 1, parkBytes := g.parkBytes + bytes, reserved := g.reserved + bytes
        inflightStore := g.inflightStore.insert k id }
      return (id, g.accept { id, kind := .store, inc, key := k, park := true, bytes, payloadLen := header.payloadLen.toNat,
                             reserved := bytes, header := some header, src := some src })

def submitLoad (key : ChunkKey) (expect : ChunkHeader) (dst : PinnedDest) (inc : Incarnation) :
    Except PlatformError (JobId × Inner) := do
  g.gate false
  match g.serving key with
  | none => .error (.objectNotFound key)
  | some entry =>
    if expect.chunkKey ≠ key then .error .invalidLayout else
    g.cfg.checkHeader expect
    if entry.payloadLen ≠ expect.payloadLen.toNat ∨
        totalBytes dst.blocks.length dst.blockBytes ≠ some expect.payloadLen.toNat ∨
        dst.blockBytes ≠ g.cfg.layout.blockStride then .error .invalidLayout else
    g.creditCheck false entry.physBytes
    let id := g.nextJob
    let g := { g with
      index := (g.index.busyInc key).getD g.index
      restoreOps := g.restoreOps + 1, restoreBytes := g.restoreBytes + entry.physBytes }
    return (id, g.accept { id, kind := .load, inc, key, park := false, bytes := entry.physBytes,
                           payloadLen := expect.payloadLen.toNat, header := some expect, dst := some dst,
                           busyHeld := true })

def submitFlush (inc : Incarnation) : Except PlatformError (JobId × Inner) := do
  g.gate false
  g.creditCheck true 0
  let id := g.nextJob
  return (id, { g with parkOps := g.parkOps + 1 }.accept { id, kind := .flush, inc, key := 0, park := true })

/-! ## The other calls -/

def attachWaiter (id : JobId) : Except PlatformError Inner :=
  match g.jobs[id]? with
  | none => .error (.taskRejected "not an in-flight load")
  | some j =>
    if ¬ (j.kind = .load ∧ j.cancelling = false ∧ j.crashed = false) then
      .error (.taskRejected "not an in-flight load")
    else if g.cfg.maxWaitersPerJob ≤ 1 + j.attached ∨ g.cfg.maxWaitersTotal ≤ g.attachedTotal then .error .queueFull
    else .ok { g with jobs := g.jobs.insert id { j with attached := j.attached + 1 }, attachedTotal := g.attachedTotal + 1 }

def poll (max : Nat) : Inner := { g with queue := g.queue.drop max }

/-- A flush, a deduplicated store and a store past its write can not be cancelled. -/
def cancellable (j : Job) : Bool :=
  match j.kind, j.phase with
  | .flush, _ | .noop, _ | .store, .syncing | .store, .publishing => false
  | _, _ => true

def cancel (id : JobId) : CancelOutcome × Inner :=
  match g.jobs[id]? with
  | none => (.tooLate, g)
  | some j =>
    if j.crashed then (.tooLate, g)
    else if j.cancelling then (.cancelled, g.note (.cancelled id))
    else if cancellable j then
      (.cancelled, { g with jobs := g.jobs.insert id { j with cancelling := true } }.note (.cancelled id))
    else (.tooLate, g)

def pin (keys : List ChunkKey) : Except PlatformError (Nat × Inner) :=
  if g.state = .recovering then .error .queueFull
  else if g.state = .failed ∨ g.closed = true then .error .deviceUnavailable
  else if g.cfg.maxRestoreOps ≤ g.pins.size then .error .queueFull
  else
    match keys.find? fun k => (g.serving k).isNone with
    | some k => .error (.objectNotFound k)
    | none => .ok (g.nextPin, { g with
        nextPin := g.nextPin + 1
        index := keys.foldl (fun x k => (x.busyInc k).getD x) g.index
        pins := g.pins.insert g.nextPin keys })

def unpin (token : Nat) : Inner :=
  match g.pins[token]? with
  | none => g
  | some keys => { g with pins := g.pins.erase token, index := keys.foldl Index.busyDec g.index }

def deleteOne (k : ChunkKey) : Inner :=
  if g.index.isBusy k || g.inflightStore.contains k then g
  else
    match g.index.markEvicting k with
    | none => g
    | some index => { g with index, unlinks := g.unlinks ++ [⟨k, false, none⟩] }

def delete (keys : List ChunkKey) : Inner :=
  if g.state = .recovering ∨ g.state = .failed then g else keys.foldl deleteOne g

/-- Ask for a purge of unindexed files and of what is over the quota. -/
def requestPurge : Inner :=
  { g with
    purgePending := true
    purgeWalking := 0 < g.unindexedObjects
    purgeEvictQuota := g.cfg.quotaBytes < g.usedBytes }

def marked (j : Job) : Job := if !j.crashed && cancellable j then { j with cancelling := true } else j

/-- Shutdown: close the intake and mark every job that can be cancelled. -/
def closeIntake : Inner := reapCancels { g with closed := true, jobs := g.jobs.map fun _ j => marked j }

end Inner

end SovereignCore.HostFs
