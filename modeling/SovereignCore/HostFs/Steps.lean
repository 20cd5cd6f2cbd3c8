import Mathlib
import SovereignCore.HostFs.Inner

/-!
# The steps of the host store

`HostFsStore` as a state machine: the state behind the lock, the tree under `objects/`, and where the worker stands.
A step is one call, one entry of the recovery walk, or one move of the worker: a lock section, or what it does to a
file between two of them. What the file system, the clock, the random source and the fault hook answer is an input.

Temporary files belong to their job until the rename and are carried by the worker's task. The order in which a
directory is listed is an input. One thread runs the worker's moves.

* `Task` : where `pump_one` and what it calls stand;
* `work` : the worker's move; `workStore`, `workLoad`, `workPurge`, … : by task;
* `recoverEntry`, `recover` : the recovery walk;
* `Step`, `step`, `run` : the whole machine; `Meets`, `run_inv` : runs whose steps are of a kind, and what they keep.
-/

namespace SovereignCore.HostFs

open Store Std Result

/-! ## State -/

/-- Where the worker stands. -/
inductive Task
  | free
  | nextUnlink
  | nextPurge
  | nextJob
  | unlink (u : Unlink)
  | unlinked (u : Unlink) (ok : Bool)
  | purgeList
  | purgeLook (path : Path) (key : ChunkKey)
  | purgeUnlink (path : Path) (key : ChunkKey)
  /-- The purge unlink returned: the bytes it freed, nothing to free, or an error. -/
  | purged (outcome : Except Unit (Option Nat))
  | purgeEvict
  | evict (victim : ChunkKey)
  | evicted (victim : ChunkKey) (ok : Bool)
  | noop (id : JobId)
  | store (id : JobId)
  | seal (id : JobId) (key : ChunkKey) (file : List UInt8)
  | written (id : JobId) (key : ChunkKey) (file : List UInt8)
  | sync (id : JobId) (key : ChunkKey) (file : List UInt8)
  | synced (id : JobId) (key : ChunkKey) (file : List UInt8)
  | rename (id : JobId) (key : ChunkKey) (file : List UInt8)
  | renamed (id : JobId) (key : ChunkKey) (phys mtime : Nat)
  | syncDir (id : JobId) (key : ChunkKey) (phys mtime : Nat)
  | indeterminate (id : JobId) (key : ChunkKey) (phys mtime : Nat) (e : PlatformError)
  | insert (id : JobId) (key : ChunkKey) (phys mtime : Nat)
  | load (id : JobId)
  | read (id : JobId) (key : ChunkKey) (expect : ChunkHeader)
  | missing (id : JobId) (key : ChunkKey)
  | corrupt (id : JobId) (key : ChunkKey)
  /-- Segment `i` is next to be written. -/
  | landing (id : JobId) (key : ChunkKey) (region payload : List UInt8) (i : Nat)
  | landed (id : JobId) (key : ChunkKey)
  | flush (id : JobId)
  | flushing (id : JobId)
  | flushed (id : JobId) (res : Except PlatformError Unit)
  | ending (id : JobId) (e : PlatformError) (degrade : Bool)
  | crashing (id : JobId)

/-- What was stored and loaded, since the directory was first opened. -/
inductive Log
  | stored (key : ChunkKey) (header : ChunkHeader) (blocks : List (List UInt8))
  | loaded (key : ChunkKey) (expect : ChunkHeader) (dst : PinnedDest) (out : List (List UInt8))
  deriving DecidableEq

structure HostFsStore where
  inner : Inner
  disk : Disk
  task : Task := .free
  pool : Nat → List UInt8
  listed : List Path := []
  log : List Log := []

/-- What the world answered to a move. -/
inductive Answer
  | ok
  | fail (e : PlatformError)
  | crash
  | nonce (n : List UInt8)
  /-- Done, and this is what `stat` says. -/
  | stat (phys mtime : Nat)
  | clock (now : Nat)
  /-- Whether the reads of a file went well, and whether an unlink after that does. -/
  | file (reads unlinks : Bool)
  | listed (path : Path)
  | listEnd

namespace HostFsStore

variable (P : Primitives) (s : HostFsStore)

def locked (g : Inner) (task : Task) : HostFsStore := { s with inner := g, task }

def unlinkPath (path : Path) (chosenBy : Option JobId) : HostFsStore :=
  match s.disk path with
  | none => s
  | some node =>
    { s with disk := Function.update s.disk path none, inner := s.inner.note (.unlinked path node chosenBy) }

/-! ## `pump_one` -/

def nextOf (g : Inner) (park : Bool) : Option Job :=
  (Table.values g.jobs).find? fun j =>
    j.park = park && !j.cancelling && !j.inStep && !j.crashed && j.phase = .queued

def pickJob (g : Inner) : Option (Job × Inner) :=
  match nextOf g false, nextOf g true with
  | some r, some p =>
    if g.restoreStreak < 3 then
      some (r, { g with restoreStreak := g.restoreStreak + 1 }.note (.picked r.id false true))
    else some (p, { g with restoreStreak := 0 }.note (.picked p.id true true))
  | some r, none => some (r, { g with restoreStreak := g.restoreStreak + 1 }.note (.picked r.id false false))
  | none, some p => some (p, { g with restoreStreak := 0 }.note (.picked p.id true false))
  | none, none => none

/-- The lock sections of `pump_one`. -/
def workPump : Task → Option HostFsStore
  | .free =>
    if s.inner.reapable.isEmpty then some { s with task := .nextUnlink }
    else some (s.locked s.inner.reapCancels .free)
  | .nextUnlink =>
    match s.inner.unlinks with
    | [] => some { s with task := .nextPurge }
    | u :: rest => some (s.locked { s.inner with unlinks := rest } (.unlink u))
  | .nextPurge =>
    let g := s.inner
    if !g.purgePending || !g.recoveryDone || g.state = .failed then some { s with task := .nextJob }
    else some { s with task := if g.purgeWalking then .purgeList else .purgeEvict }
  | .nextJob =>
    match pickJob s.inner with
    | none => some { s with task := .free }
    | some (j, g) =>
      some (s.locked g (match j.kind with
        | .noop => .noop j.id
        | .store => .store j.id
        | .load => .load j.id
        | .flush => .flush j.id))
  | .noop id =>
    some (s.locked (s.inner.takeJob id fun g job =>
      g.finish { job with stage := .durable } (.done .durable) .durable .notApplicable) .free)
  | _ => none

/-! ## Unlinks and the purge -/

/-- `run_one_unlink`. -/
def workUnlink : Task → Answer → Option HostFsStore
  | .unlink u, .ok => some { s.unlinkPath (objectPathFor u.key) u.chosenBy with task := .unlinked u true }
  | .unlink u, .fail _ => some (s.locked (s.inner.note (.unlinkFailed u.key)) (.unlinked u false))
  | .unlink _, .crash => some { s with task := .free }
  | .unlinked u true, .ok => some (s.locked { s.inner with index := s.inner.index.remove u.key } .free)
  | .unlinked u false, .ok => some (s.locked { s.inner with index := s.inner.index.clearEvicting u.key } .free)
  | _, _ => none

def stopPurge (g : Inner) : Inner := { g with purgePending := false, purgeWalking := false, purgeEvictQuota := false }

def overNineTenths (g : Inner) : Bool := g.cfg.quotaBytes * 9 < g.usedBytes * 10

/-- The purge: a walk that unlinks unindexed object files, then evictions down to nine tenths of the quota. -/
def workPurge : Task → Answer → Option HostFsStore
  | .purgeList, .listEnd =>
    let g := { s.inner with unindexedObjects := 0, unindexedBytes := 0, purgeWalking := false }
    some (s.locked (if g.purgeEvictQuota then g else { g with purgePending := false }) .free)
  | .purgeList, .fail _ => some (s.locked (stopPurge s.inner) .free)
  | .purgeList, .listed path =>
    match parseKvcFilename path.name path.shard with
    | none => some { s with task := .free }
    | some key => some { s with task := .purgeLook path key }
  | .purgeLook path key, .ok =>
    if (s.inner.index.get key).isSome || s.inner.inflightStore.contains key then some { s with task := .free }
    else some (s.locked { s.inner with purging := some key } (.purgeUnlink path key))
  | .purgeUnlink path _, .stat phys _ =>
    match s.disk path with
    | none => some { s with task := .purged (.ok none) }
    | some _ => some { s.unlinkPath path none with task := .purged (.ok (some phys)) }
  | .purgeUnlink _ _, .fail _ => some { s with task := .purged (.error ()) }
  | .purged outcome, .ok =>
    let g := { s.inner with purging := none }
    some (s.locked (match outcome with
      | .ok (some phys) =>
        { g with unindexedObjects := g.unindexedObjects - 1, unindexedBytes := g.unindexedBytes - phys }
      | .ok none => g
      | .error () => stopPurge g) .free)
  | .purgeEvict, .ok =>
    let g := s.inner
    let give := s.locked { g with purgePending := false, purgeEvictQuota := false } .nextJob
    if g.purgeEvictQuota && overNineTenths g then
      match g.index.pickVictim with
      | none => some give
      | some victim => some (s.locked { g with index := (g.index.markEvicting victim).getD g.index } (.evict victim))
    else some give
  | .evict victim, .ok => some { s.unlinkPath (objectPathFor victim) none with task := .evicted victim true }
  | .evict victim, .fail _ => some (s.locked (s.inner.note (.unlinkFailed victim)) (.evicted victim false))
  | .evicted victim ok, .ok =>
    let g := s.inner
    let g :=
      if ok then { g with index := g.index.remove victim }
      else { g with index := g.index.clearEvicting victim, purgePending := false, purgeEvictQuota := false }
    some (s.locked (if overNineTenths g then g else { g with purgePending := false, purgeEvictQuota := false }) .free)
  | _, _ => none

/-! ## Store jobs -/

def needsRoom (g : Inner) : Bool := g.cfg.quotaBytes < g.bytesAfter || g.cfg.maxObjects < g.countAfter

def addVictim (g : Inner) (id : JobId) (v : ChunkKey) : Inner :=
  { g with
    index := (g.index.markEvicting v).getD g.index
    jobs := g.jobs.modify id fun j => { j with victims := j.victims ++ [v] }
    history := g.history ++ [.victim id v] }

/-- Mark victims until there is room. Every round has one candidate less, so as many rounds as there are candidates are
enough; the flag says whether there is room in the end. -/
def makeRoom (id : JobId) : Nat → Inner → Inner × Bool
  | 0, g => (g, !needsRoom g)
  | n + 1, g =>
    if !needsRoom g then (g, true)
    else
      match if g.purgePending then none else g.index.pickVictim with
      | none => (g, false)
      | some v => makeRoom id n (addVictim g id v)

/-- The blocks as they are stored: unused token rows of the last one are zero. -/
def storedBlocks (c : HostFsConfig) (src : PinnedSource) : List (List UInt8) :=
  if src.tailValidTokens.toNat < c.blockSize.toNat then
    src.blocks.dropLast ++ (src.blocks.getLast?.map fun b => c.zeroTailBlock b src.tailValidTokens.toNat).toList
  else src.blocks

def chunkFile (header : ChunkHeader) (blocks : List (List UInt8)) : Except KvError (List UInt8) := do
  let digests := blocks.map P.sha
  let region ← RecordHeader.encodeRegion P ⟨header, payloadRoot P digests⟩ digests
  return region ++ blocks.flatten

/-- The start of a store job. The flag says whether the source is still held. -/
def startStore (g : Inner) (id : JobId) (held : Bool) : Inner × Task :=
  match g.jobs[id]? with
  | none => (g, .free)
  | some job =>
    if job.cancelling then (g.cancelJob id, .free)
    else
      let (g, room) := makeRoom id g.index.candidates.length g
      if !room then (g.takeJob id fun g job => g.failJob job .outOfMemory, .free)
      else
        match job.header, job.src with
        | some header, some src =>
          if !held then (g.takeJob id fun g job => g.failJob job .invalidLayout, .free)
          else
            match chunkFile P header (storedBlocks g.cfg src) with
            | .error _ => (g.takeJob id fun g job => g.failJob job .invalidLayout, .free)
            | .ok file =>
              ({ g with jobs := g.jobs.modify id fun j => { j with phase := .writing, inStep := true } },
                .seal id job.key file)
        | _, _ => (g, .free)

/-- The write of the temporary file returned: a job that was cancelled ends here. -/
def afterWrite (g : Inner) (id : JobId) (key : ChunkKey) (file : List UInt8) : Inner × Task :=
  match g.jobs[id]? with
  | none => (g, .free)
  | some job =>
    if job.cancelling then (g.cancelJob id, .free)
    else ({ g with jobs := g.jobs.insert id { job with phase := .syncing } }, .sync id key file)

/-- The temporary file is synced: the job reports that it is complete. -/
def afterSync (g : Inner) (id : JobId) : Inner :=
  match g.jobs[id]? with
  | none => g
  | some job =>
    let c : Completion :=
      { job := job.id, incarnation := job.inc, key := job.key, stage := .completed, terminal := none,
        publish := .notApplicable, bytes := job.payloadLen, holder := none }
    { g with jobs := g.jobs.insert id { job with stage := .completed, phase := .publishing }, queue := g.queue ++ [c] }

/-- The job's file takes its place; what it was written from is remembered. -/
def renameTo (id : JobId) (key : ChunkKey) (file : List UInt8) (phys : Nat) : HostFsStore :=
  let origin := s.inner.jobs[id]?.bind fun j => j.header.bind fun h => j.src.map fun src => (h, src.blocks)
  { s with
    disk := Function.update s.disk (objectPathFor key) (some { kind := .regular, ours := true, bytes := file, origin })
    inner := s.inner.note (.published id key phys ((s.inner.jobs[id]?.map Job.reserved).getD 0))
    log := s.log ++ (origin.map fun o => .stored key o.1 o.2).toList }

def publish (g : Inner) (id : JobId) (key : ChunkKey) (phys mtime now : Nat) (terminal : Terminal) (stage : JobStage)
    (outcome : PublishOutcome) : Inner :=
  let (t, g) := g.nextTimestampNs mtime now
  g.takeJob id fun g job =>
    let entry : IndexEntry :=
      { physBytes := phys, mtimeNs := t, payloadLen := job.payloadLen, indeterminate := outcome = .indeterminate }
    let g := { g with index := g.index.insert key entry }
    g.finish job terminal stage outcome

/-- `execute_store_job`. -/
def workStore : Task → Answer → Option HostFsStore
  | .store id, .file held _ => some (s.locked (startStore P s.inner id held).1 (startStore P s.inner id held).2)
  | .seal id key file, .nonce n =>
    match sealFile P (some n) file with
    | .error _ => some { s with task := .ending id (.hardwareFault "seal failed") false }
    | .ok file => some { s with task := .written id key file }
  | .seal id _ _, .fail e => some { s with task := .ending id e false }
  | .written id key file, .ok => some (s.locked (afterWrite s.inner id key file).1 (afterWrite s.inner id key file).2)
  | .sync id key file, .ok => some { s with task := .synced id key file }
  | .sync id _ _, .fail e => some { s with task := .ending id e true }
  | .synced id key file, .ok => some (s.locked (afterSync s.inner id) (.rename id key file))
  | .rename id key file, .stat phys mtime => some { s.renameTo id key file phys with task := .renamed id key phys mtime }
  | .rename id _ _, .fail e => some { s with task := .ending id e false }
  | .renamed id key phys mtime, .ok =>
    some (s.locked { s.inner with jobs := s.inner.jobs.modify id fun j => { j with stage := .published } }
      (.syncDir id key phys mtime))
  | .syncDir id key phys mtime, .ok => some { s with task := .insert id key phys mtime }
  | .syncDir id key phys mtime, .fail e => some { s with task := .indeterminate id key phys mtime e }
  | .indeterminate id key phys mtime e, .clock now =>
    some (s.locked (publish s.inner.setDegraded id key phys mtime now (.failed e) .published .indeterminate) .free)
  | .insert id key phys mtime, .clock now =>
    some (s.locked (publish s.inner id key phys mtime now (.done .durable) .durable .durable) .free)
  | .seal id _ _, .crash | .sync id _ _, .crash | .rename id _ _, .crash | .syncDir id _ _ _, .crash
  | .insert id _ _ _, .crash => some { s with task := .crashing id }
  | .ending id e degrade, .ok =>
    let g := if degrade then s.inner.setDegraded else s.inner
    some (s.locked (g.takeJob id fun g job => g.failJob job e) .free)
  | .crashing id, .ok => some (s.locked (s.inner.takeJob id Inner.markCrashed) .free)
  | _, _ => none

/-! ## Load jobs -/

def startLoad (g : Inner) (id : JobId) : Inner × Task :=
  match g.jobs[id]? with
  | none => (g, .free)
  | some job =>
    if job.cancelling then (g.cancelJob id, .free)
    else
      match job.header with
      | none => (g, .free)
      | some expect =>
        ({ g with jobs := g.jobs.insert id { job with phase := .reading, inStep := true } }, .read id job.key expect)

def readFile (c : HostFsConfig) (expect : ChunkHeader) (bytes : List UInt8) : Option (List UInt8 × List UInt8) :=
  let region := bytes.take headerRegionLen
  if bytes.length < headerRegionLen then none
  else
    match validateRecord P region bytes.length expect c.layout.blockStride with
    | .error _ => none
    | .ok _ =>
      match openPayload P region (slice bytes headerRegionLen expect.payloadLen.toNat) with
      | .error _ => none
      | .ok payload => some (region, payload)

def refuse (id : JobId) (key : ChunkKey) (unlinks : Bool) : HostFsStore :=
  { (if unlinks then s.unlinkPath (objectPathFor key) none else s) with task := .corrupt id key }

/-- The job of an object that is gone, or refused: its entry leaves the index. -/
def loseObject (g : Inner) (id : JobId) (key : ChunkKey) (e : PlatformError) : Inner :=
  g.takeJob id fun g job =>
    let g := if job.busyHeld then { g with index := g.index.busyDec key } else g
    let g := { g with index := g.index.remove key }
    g.failJob { job with busyHeld := false } e

/-- Segment `i` of a payload. -/
def segment (c : HostFsConfig) (payload : List UInt8) (i : Nat) : List UInt8 :=
  slice payload (i * c.layout.blockStride.toNat) c.layout.blockStride.toNat

/-- Segment `i` goes to block `i` of the destination. -/
def landSegment (id : JobId) (key : ChunkKey) (region payload : List UInt8) (i : Nat) : Option HostFsStore :=
  match s.inner.jobs[id]?.bind Job.dst with
  | none => none
  | some dst =>
    let data := segment s.inner.cfg payload i
    match dst.blocks[i]? with
    | none => some { s with task := .ending id .invalidLayout false }
    | some b =>
      if data.length ≠ dst.blockBytes.toNat then some { s with task := .ending id .invalidLayout false }
      else some { s with
        pool := Function.update s.pool b data
        inner := s.inner.note (.wrote id i)
        task := .landing id key region payload (i + 1) }

def landedLog (id : JobId) (key : ChunkKey) : List Log :=
  (s.inner.jobs[id]?.bind fun j => j.header.bind fun h => j.dst.map fun dst =>
    Log.loaded key h dst (dst.blocks.map s.pool)).toList

/-- `execute_load_job`. -/
def workLoad : Task → Answer → Option HostFsStore
  | .load id, .ok => some (s.locked (startLoad s.inner id).1 (startLoad s.inner id).2)
  | .read id _ _, .crash => some { s with task := .crashing id }
  | .read id _ _, .fail e => some { s with task := .ending id e false }
  | .read id key expect, .file reads unlinks =>
    match s.disk (objectPathFor key) with
    | none => some { s with task := .missing id key }
    | some node =>
      if ¬ (node.kind = .regular ∧ node.ours = true) then some { s with task := .missing id key }
      else if !reads then some (s.refuse id key unlinks)
      else
        match readFile P s.inner.cfg expect node.bytes with
        | none => some (s.refuse id key unlinks)
        | some (region, payload) => some { s with task := .landing id key region payload 0 }
  | .missing id key, .ok => some (s.locked (loseObject s.inner id key (.objectNotFound key)) .free)
  | .corrupt id key, .ok => some (s.locked (loseObject s.inner id key .invalidLayout) .free)
  | .landing id key region payload i, .file held unlinks =>
    let n := payload.length / s.inner.cfg.layout.blockStride.toNat
    if n ≤ i then some { s with task := .landed id key }
    else if bytes32 (P.sha (segment s.inner.cfg payload i)) ≠ slice region (headerLen + 32 * i) 32 then
      some (s.refuse id key unlinks)
    else if !held then some { s with task := .ending id .invalidLayout false }
    else s.landSegment id key region payload i
  | .landed id key, .clock now =>
    let (t, g) := s.inner.nextTimestampNs 0 now
    let g := { g with index := g.index.touch key t }
    let g := g.takeJob id fun g job =>
      g.finish { job with stage := .completed } (.done .completed) .completed .notApplicable
    some { s.locked g .free with log := s.log ++ s.landedLog id key }
  | _, _ => none

/-! ## Flush jobs -/

/-- `execute_flush_job`. -/
def workFlush : Task → Answer → Option HostFsStore
  | .flush id, .ok =>
    match s.inner.jobs[id]? with
    | none => some { s with task := .free }
    | some job =>
      some (s.locked { s.inner with jobs := s.inner.jobs.insert id { job with phase := .flushing, inStep := true } }
        (.flushing id))
  | .flushing id, .ok => some { s with task := .flushed id (.ok ()) }
  | .flushing id, .fail e => some { s with task := .flushed id (.error e) }
  | .flushing id, .crash => some { s with task := .crashing id }
  | .flushed id (.ok ()), .ok =>
    some (s.locked (s.inner.takeJob id fun g job =>
      g.finish { job with stage := .durable } (.done .durable) .durable .durable) .free)
  | .flushed id (.error e), .ok =>
    some (s.locked (s.inner.setDegraded.takeJob id fun g job => g.failJob job e) .free)
  | _, _ => none

def work (a : Answer) : Option HostFsStore :=
  match s.task with
  | .free | .nextUnlink | .nextPurge | .nextJob | .noop _ => s.workPump s.task
  | .unlink _ | .unlinked _ _ => s.workUnlink s.task a
  | .purgeList | .purgeLook _ _ | .purgeUnlink _ _ | .purged _ | .purgeEvict | .evict _ | .evicted _ _ =>
    s.workPurge s.task a
  | .store _ | .seal _ _ _ | .written _ _ _ | .sync _ _ _ | .synced _ _ _ | .rename _ _ _ | .renamed _ _ _ _
  | .syncDir _ _ _ _ | .indeterminate _ _ _ _ _ | .insert _ _ _ _ | .ending _ _ _ | .crashing _ =>
    s.workStore P s.task a
  | .load _ | .read _ _ _ | .missing _ _ | .corrupt _ _ | .landing _ _ _ _ _ | .landed _ _ => s.workLoad P s.task a
  | .flush _ | .flushing _ | .flushed _ _ => s.workFlush s.task a

/-! ## Recovery -/

/-- What the file system answered while recovery looked at one entry. -/
structure EntryAnswer where
  phys : Nat := 0
  mtime : Nat := 0
  statOk : Bool := true
  openOk : Bool := true
  readOk : Bool := true
  unlinkOk : Bool := true

/-- One entry of the recovery walk, and how the walk ends. -/
inductive Found
  | tmp
  | tmpStuck (phys : Nat)
  | entry (path : Path) (a : EntryAnswer)
  | listError
  | done

def Found.again (listed : List Path) : Found → Bool
  | .entry path _ => path ∈ listed
  | _ => false

def failRecovery (g : Inner) : Inner := { g with state := .failed, recoveryDone := false }

def unindexed (g : Inner) (phys : Nat) : Inner :=
  { g with unindexedObjects := g.unindexedObjects + 1, unindexedBytes := g.unindexedBytes + phys }

def stuck (g : Inner) : Inner := { g with recoveryStuck := true }

def countUnreadable (path : Path) (node : Node) (phys : Nat) : HostFsStore :=
  { s with disk := Function.update s.disk path (some { node with unreadable := true }),
           inner := stuck (unindexed s.inner phys) }

def indexRecovered (g : Inner) (key : ChunkKey) (a : EntryAnswer) (payloadLen : Nat) (foreign : Bool) : Inner :=
  { g with
    lastClockNs := max g.lastClockNs a.mtime
    index := g.index.insert key { physBytes := a.phys, mtimeNs := a.mtime, payloadLen, foreign } }

/-- `recover_entry` and `apply_recovered` for an entry of a shard. -/
def recoverEntry (path : Path) (a : EntryAnswer) : HostFsStore :=
  if !a.statOk then { s with inner := failRecovery s.inner }
  else
    match s.disk path with
    | none => s
    | some node =>
      match parseKvcFilename path.name path.shard with
      | none => s
      | some key =>
        if ¬ (node.kind = .regular ∧ node.ours = true) then s
        else if s.inner.cfg.maxObjects ≤ s.inner.index.map.size then { s with inner := unindexed s.inner a.phys }
        else if !a.openOk then s.countUnreadable path node a.phys
        else if headerRegionLen ≤ node.bytes.length ∧ a.readOk = false then s.countUnreadable path node a.phys
        else
          let header :=
            if node.bytes.length < headerRegionLen then .corrupt
            else classifyRecoveredHeader P (node.bytes.take headerRegionLen) node.bytes.length key s.inner.cfg
          match header with
          | .ours payloadLen => { s with inner := indexRecovered s.inner key a payloadLen false }
          | .foreign payloadLen => { s with inner := indexRecovered s.inner key a payloadLen true }
          | .corrupt =>
            if a.unlinkOk then s.unlinkPath path none else { s with inner := stuck (unindexed s.inner a.phys) }

/-- The end of the walk: admission opens, and a purge is asked for when something is unindexed or over the quota. -/
def recoveryEnd (g : Inner) : Inner :=
  let g := { g with recoveryDone := true }.note (.recovered g.usedBytes g.index.map.size)
  let g :=
    if g.state = .recovering then { g with state := if g.recoveryStuck then .degraded else .open } else g
  if g.cfg.purgeAfterRecovery && (0 < g.unindexedObjects || g.cfg.quotaBytes < g.usedBytes) then g.requestPurge else g

def recover : Found → HostFsStore
  | .tmp => s
  | .tmpStuck phys => { s with inner := stuck { s.inner with stuckBytes := s.inner.stuckBytes + phys } }
  | .entry path a => { s.recoverEntry P path a with listed := path :: s.listed }
  | .listError => { s with inner := failRecovery s.inner }
  | .done => { s with inner := recoveryEnd s.inner }

/-! ## Opening -/

/-- A store opened on a directory. The flag says whether its `STORE_ID` could be read; `allocUnit` is the block size that
`stat` answered. -/
def openAt (cfg : HostFsConfig) (disk : Disk) (pool : Nat → List UInt8) (log : List Log) (idOk : Bool)
    (allocUnit : Nat) : HostFsStore where
  inner := { cfg, state := if idOk then .recovering else .failed, allocUnit := max allocUnit 512 }
  disk path := (disk path).map fun node => { node with unreadable := false }
  pool := pool
  log := log

/-! ## The machine -/

inductive Step
  | submitStore (header : ChunkHeader) (src : PinnedSource) (inc : Incarnation)
  | submitLoad (key : ChunkKey) (expect : ChunkHeader) (dst : PinnedDest) (inc : Incarnation)
  | submitFlush (inc : Incarnation)
  | attachWaiter (id : JobId)
  | poll (max : Nat)
  | cancel (id : JobId)
  | pin (keys : List ChunkKey)
  | unpin (token : Nat)
  | delete (keys : List ChunkKey)
  | startPurge
  | shutdown
  | reap
  | recover (found : Found)
  | work (a : Answer)
  /-- The store is dropped, or its process dies, and the directory is opened again. -/
  | reopen (idOk : Bool) (allocUnit : Nat)

def orKeep {α ε : Type} (g : Inner) (f : α → Inner) : Except ε α → Inner
  | .ok a => f a
  | .error _ => g

/-- One step; `none` when the worker can not get this answer here, or recovery is over. -/
def step : Step → Option HostFsStore
  | .submitStore header src inc => some { s with inner := orKeep s.inner Prod.snd (s.inner.submitStore header src inc) }
  | .submitLoad key expect dst inc =>
    some { s with inner := orKeep s.inner Prod.snd (s.inner.submitLoad key expect dst inc) }
  | .submitFlush inc => some { s with inner := orKeep s.inner Prod.snd (s.inner.submitFlush inc) }
  | .attachWaiter id => some { s with inner := orKeep s.inner (fun g => g) (s.inner.attachWaiter id) }
  | .poll max => some { s with inner := s.inner.poll max }
  | .cancel id => some { s with inner := (s.inner.cancel id).2 }
  | .pin keys => some { s with inner := orKeep s.inner Prod.snd (s.inner.pin keys) }
  | .unpin token => some { s with inner := s.inner.unpin token }
  | .delete keys => some { s with inner := s.inner.delete keys }
  | .startPurge => some { s with inner := s.inner.requestPurge }
  | .shutdown => some { s with inner := s.inner.closeIntake }
  | .reap => some { s with inner := s.inner.reapCancels }
  | .recover found =>
    if s.inner.state = .failed ∨ s.inner.recoveryDone = true ∨ found.again s.listed = true then none
    else some (s.recover P found)
  | .work a => s.work P a
  | .reopen idOk allocUnit => some (openAt s.inner.cfg s.disk s.pool s.log idOk allocUnit)

def run (steps : List Step) (s : HostFsStore) : Option HostFsStore := steps.foldlM (fun s a => s.step P a) s

/-- Every step is as `C` asks of the state before it. -/
def Meets (C : HostFsStore → Step → Prop) : List Step → HostFsStore → Prop
  | [], _ => True
  | a :: steps, s => C s a ∧ ∀ s', s.step P a = some s' → Meets C steps s'

variable {P} {C : HostFsStore → Step → Prop} {J : HostFsStore → Prop} {s} {s' : HostFsStore} {steps : List Step}

theorem run_inv (hstep : ∀ s a s', J s → C s a → s.step P a = some s' → J s') (h0 : J s) (hc : Meets P C steps s)
    (h : run P steps s = some s') : J s' := by
  induction steps generalizing s with
  | nil =>
    obtain rfl := Option.some.inj h
    exact h0
  | cons a steps ih =>
    obtain ⟨s₁, hs, hrest⟩ := Option.bind_eq_some_iff.1 h
    exact ih (hstep s a s₁ h0 hc.1 hs) (hc.2 s₁ hs) hrest

end HostFsStore

end SovereignCore.HostFs
