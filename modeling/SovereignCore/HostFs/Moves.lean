import Mathlib
import SovereignCore.HostFs.Steps

/-!
# What a step of the host store can do

Every step of the host store is a chain of elementary moves on the part of the state that statements about runs read:
the index, the job table, the queued unlinks, the tree, the worker's task and what happened. An invariant of the moves is
an invariant of the runs.

* `View`, `HostFsStore.view` : the part;
* `Ending`, `Goes`, `Enters`, `Unlinks`, `Recovers` : how a job ends, where the worker goes without changing anything,
  how it moves a job on, what it unlinks, what the recovery walk does;
* `Move` : the moves;
* `step_moves` : a step is a chain of moves; `run_moves_inv` : what the moves of a kind keep.
-/

namespace SovereignCore.HostFs

open Store Std Result

structure View where
  cfg : HostFsConfig
  unit : Nat
  recovered : Bool
  admits : Bool
  next : JobId
  index : Index
  loose : Nat
  reserved : Nat
  jobs : ExtTreeMap JobId Job
  inflight : ExtTreeMap ChunkKey JobId
  unlinks : List Unlink
  streak : Nat
  history : List Event
  disk : Disk
  task : Task
  pool : Nat → List UInt8
  log : List Log

def HostFsStore.seen (s : HostFsStore) (g : Inner) (task : Task) : View where
  cfg := g.cfg
  unit := g.allocUnit
  recovered := g.recoveryDone
  admits := g.state ≠ .recovering ∧ g.state ≠ .failed
  next := g.nextJob
  index := g.index
  loose := g.unindexedBytes + g.stuckBytes
  reserved := g.reserved
  jobs := g.jobs
  inflight := g.inflightStore
  unlinks := g.unlinks
  streak := g.restoreStreak
  history := g.history
  disk := s.disk
  task := task
  pool := s.pool
  log := s.log

def HostFsStore.view (s : HostFsStore) : View := s.seen s.inner s.task

namespace View

variable (v : View)

def usedBytes : Nat := v.index.totalBytes + v.loose

def liveBytes : Nat := v.usedBytes - v.index.evictingBytes

def liveCount : Nat := v.index.map.size - v.index.evictingCount

def reservations : Nat := ((Table.values v.jobs).filter fun j => j.kind = .store && 0 < j.reserved && !j.crashed).length

def Room : Prop := v.liveBytes + v.reserved ≤ v.cfg.quotaBytes ∧ v.liveCount + v.reservations ≤ v.cfg.maxObjects

def note (e : Event) : View := { v with history := v.history ++ [e] }

def goto (t : Task) : View := { v with task := t }

def takes (id : JobId) : View := { v with jobs := v.jobs.erase id }

def settles (job : Job) (durable : Bool) : View :=
  if durable then { v with unlinks := v.unlinks ++ job.victims.map fun k => ⟨k, true, some job.id⟩ }
  else { v with index := job.victims.foldl Index.clearEvicting v.index }

def freesKey (job : Job) : View :=
  if v.inflight[job.key]? = some job.id then { v with inflight := v.inflight.erase job.key } else v

def freesBusy (job : Job) : View := if job.busyHeld then { v with index := v.index.busyDec job.key } else v

def gives (job : Job) (durable : Bool) : View :=
  let v := { v with reserved := v.reserved - job.reserved }
  let v := if job.kind = .store then (v.settles job durable).freesKey job else v
  v.freesBusy job

def ended (id : JobId) (job : Job) (terminal : Terminal) (durable : Bool) (t : Task) : View :=
  (((v.goto t).takes id).gives job durable).note (.ended job.id job.key terminal)

def published (id : JobId) (job : Job) (key : ChunkKey) (e : IndexEntry) (terminal : Terminal) (durable : Bool) : View :=
  { v with index := v.index.insert key e }.ended id job terminal durable .free

/-- The entry of a lost object leaves the index, and the load of it ends. -/
def lost (id : JobId) (job : Job) (key : ChunkKey) (e : PlatformError) : View :=
  let index := if job.busyHeld then v.index.busyDec key else v.index
  { v with index := index.remove key }.ended id { job with busyHeld := false } (.failed e) false .free

def unlinkPath (path : Path) (chosenBy : Option JobId) : View :=
  match v.disk path with
  | none => v
  | some node => { v with disk := Function.update v.disk path none }.note (.unlinked path node chosenBy)

def nextOf (park : Bool) : Option Job :=
  (Table.values v.jobs).find? fun j => j.park = park && !j.cancelling && !j.inStep && !j.crashed && j.phase = .queued

end View

theorem View.gives_eq (v : View) (job : Job) (durable : Bool) : v.gives job durable = { v with
    index := (v.gives job durable).index
    reserved := v.reserved - job.reserved
    inflight := (v.gives job durable).inflight
    unlinks := (v.gives job durable).unlinks } := by
  unfold gives freesBusy freesKey settles
  dsimp only
  split_ifs <;> rfl

theorem View.gives_jobs (v : View) (job : Job) (durable : Bool) : (v.gives job durable).jobs = v.jobs := by
  rw [gives_eq]

theorem View.ended_jobs (v : View) (id : JobId) (job : Job) (terminal : Terminal) (durable : Bool) (t : Task) :
    (v.ended id job terminal durable t).jobs = v.jobs.erase id := gives_jobs _ job durable

def View.Named (v : View) : Prop := ∀ (id : JobId) (j : Job), v.jobs[id]? = some j → j.id = id

/-! ## Parts of a move -/

/-- A job as the calls accept it. -/
structure Job.Fresh (v : View) (j : Job) : Prop where
  id : j.id = v.next
  waits : j.phase = .queued ∧ j.inStep = false ∧ j.cancelling = false ∧ j.crashed = false ∧ j.victims = []
  store : j.kind = .store → ∃ header src, j.header = some header ∧ j.src = some src ∧ j.key = header.chunkKey ∧
    j.reserved = Inner.roundUp (header.payloadLen.toNat + headerRegionLen) v.unit
  other : j.kind ≠ .store → j.reserved = 0
  /-- A store is accepted for a key that has no entry, or one of another namespace. -/
  room : j.kind = .store → ∀ e, v.index.get j.key = some e → e.evicting = false ∧ e.foreign = true
  admitted : v.admits = true

def Job.Alike (j j' : Job) : Prop :=
  ∃ b n, j' = { j with cancelling := b, attached := n } ∧ (j.cancelling = true → b = true) ∧
    (b = true → j.cancelling = true ∨ Inner.cancellable j = true)

/-- The index serves: a busy reference is taken or given back, or an object was used. -/
inductive Index.Serves (x : Index) : Index → Prop
  | inc (k : ChunkKey) (x' : Index) (h : x.busyInc k = some x') : Serves x x'
  | dec (k : ChunkKey) : Serves x (x.busyDec k)
  | touch (k : ChunkKey) (t : Nat) : Serves x (x.touch k t)

/-- How a job ends without an object: its terminal, whether its victims are unlinked, and where the worker goes. -/
inductive Ending (v : View) (id : JobId) (j : Job) : Terminal → Bool → Task → Prop
  | reaped (hc : j.cancelling = true) (hs : j.inStep = false) : Ending v id j .cancelled false v.task
  | stopped (ht : v.task = .store id ∨ v.task = .load id ∨ ∃ key file, v.task = .written id key file)
      (hc : j.cancelling = true) : Ending v id j .cancelled false .free
  /-- No room, a source that is gone, or a header that can not be encoded. -/
  | refused (e : PlatformError) (ht : v.task = .store id) : Ending v id j (.failed e) false .free
  | noop (ht : v.task = .noop id) : Ending v id j (.done .durable) false .free
  | failed (e : PlatformError) (degrade : Bool) (ht : v.task = .ending id e degrade) :
      Ending v id j (.failed e) false .free
  | landed (key : ChunkKey) (ht : v.task = .landed id key) : Ending v id j (.done .completed) false .free
  | flushed (ht : v.task = .flushed id (.ok ())) : Ending v id j (.done .durable) true .free
  | unflushed (e : PlatformError) (ht : v.task = .flushed id (.error e)) : Ending v id j (.failed e) false .free

def Task.bare : Task → Bool
  | .free | .nextUnlink | .nextPurge | .nextJob | .purgeList | .purgeEvict => true
  | _ => false

def Task.picked : Task → Option JobId
  | .noop id | .store id | .load id | .flush id => some id
  | _ => none

/-- The job that the worker is about to start, or that its step is of. -/
def Task.job : Task → Option JobId
  | .noop id | .store id | .load id | .flush id => some id
  | .seal id _ _ | .written id _ _ | .sync id _ _ | .synced id _ _ | .rename id _ _ => some id
  | .renamed id _ _ _ | .syncDir id _ _ _ | .indeterminate id _ _ _ _ | .insert id _ _ _ => some id
  | .read id _ _ | .missing id _ | .corrupt id _ | .landing id _ _ _ _ | .landed id _ => some id
  | .flushing id | .flushed id _ | .ending id _ _ | .crashing id => some id
  | _ => none

/-- Where the worker goes without changing anything. -/
inductive Goes (P : Primitives) (v : View) : Task → Task → Prop
  | rests (t t' : Task) (h : t.bare = true) (h' : t'.bare = true) : Goes P v t t'
  | misses (t : Task) (id : JobId) (h : t.picked = some id) (hj : v.jobs[id]? = none) : Goes P v t .free
  | missesWritten (id : JobId) (key : ChunkKey) (file : List UInt8) (hj : v.jobs[id]? = none) :
      Goes P v (.written id key file) .free
  | vacant (id : JobId) (key : ChunkKey) (file : List UInt8) (hj : v.jobs[id]? = none) :
      Goes P v (.synced id key file) (.rename id key file)
  | vacantDir (id : JobId) (key : ChunkKey) (phys m : Nat) (hj : v.jobs[id]? = none) :
      Goes P v (.renamed id key phys m) (.syncDir id key phys m)
  /-- A store or a load without its header, or without its source. -/
  | malformed (t : Task) (id : JobId) (j : Job) (h : t = .store id ∨ t = .load id) (hj : v.jobs[id]? = some j)
      (hm : j.header = none ∨ t = .store id ∧ j.src = none) : Goes P v t .free
  | unlinkCrash (u : Unlink) : Goes P v (.unlink u) .free
  | lists (path : Path) (key : ChunkKey) (h : parseKvcFilename path.name path.shard = some key) :
      Goes P v .purgeList (.purgeLook path key)
  | skips (path : Path) (key : ChunkKey) : Goes P v (.purgeLook path key) .free
  | looks (path : Path) (key : ChunkKey) (hx : v.index.get key = none) (hi : v.inflight[key]? = none) :
      Goes P v (.purgeLook path key) (.purgeUnlink path key)
  | purgeFails (path : Path) (key : ChunkKey) (r : Except Unit (Option Nat)) (hr : ∀ n, r ≠ .ok (some n)) :
      Goes P v (.purgeUnlink path key) (.purged r)
  | seals (id : JobId) (key : ChunkKey) (file file' n : List UInt8) (h : sealFile P (some n) file = .ok file') :
      Goes P v (.seal id key file) (.written id key file')
  | synced (id : JobId) (key : ChunkKey) (file : List UInt8) : Goes P v (.sync id key file) (.synced id key file)
  | syncedDir (id : JobId) (key : ChunkKey) (phys m : Nat) : Goes P v (.syncDir id key phys m) (.insert id key phys m)
  | unsynced (id : JobId) (key : ChunkKey) (phys m : Nat) (e : PlatformError) :
      Goes P v (.syncDir id key phys m) (.indeterminate id key phys m e)
  | misread (id : JobId) (key : ChunkKey) (expect : ChunkHeader) : Goes P v (.read id key expect) (.missing id key)
  | reads (id : JobId) (key : ChunkKey) (expect : ChunkHeader) (node : Node) (region payload : List UInt8)
      (hn : v.disk (objectPathFor key) = some node) (hr : node.kind = .regular ∧ node.ours = true)
      (h : HostFsStore.readFile P v.cfg expect node.bytes = some (region, payload)) :
      Goes P v (.read id key expect) (.landing id key region payload 0)
  | lands (id : JobId) (key : ChunkKey) (region payload : List UInt8) (i : Nat)
      (h : payload.length / v.cfg.layout.blockStride.toNat ≤ i) :
      Goes P v (.landing id key region payload i) (.landed id key)
  | rejects (t : Task) (id : JobId) (key : ChunkKey)
      (h : (∃ expect, t = .read id key expect) ∨ ∃ region payload i, t = .landing id key region payload i) :
      Goes P v t (.corrupt id key)
  | flushed (id : JobId) (r : Except PlatformError Unit) : Goes P v (.flushing id) (.flushed id r)
  | fails (t : Task) (id : JobId) (e : PlatformError) (degrade : Bool)
      (h : (∃ key file, t = .seal id key file ∨ t = .sync id key file ∨ t = .rename id key file) ∨
        (∃ key expect, t = .read id key expect) ∨ ∃ key region payload i, t = .landing id key region payload i) :
      Goes P v t (.ending id e degrade)
  | crashes (t : Task) (id : JobId)
      (h : (∃ key file, t = .seal id key file ∨ t = .sync id key file ∨ t = .rename id key file) ∨
        (∃ key phys m, t = .syncDir id key phys m ∨ t = .insert id key phys m) ∨
        (∃ key expect, t = .read id key expect) ∨ t = .flushing id) : Goes P v t (.crashing id)

/-- The step of a job begins, or goes on to another phase: the job then, and where the worker goes. -/
inductive Enters (P : Primitives) (v : View) (id : JobId) (j : Job) : Job → Task → Prop
  | store (header : ChunkHeader) (src : PinnedSource) (file : List UInt8) (ht : v.task = .store id)
      (hc : j.cancelling = false) (hroom : v.Room) (hh : j.header = some header) (hs : j.src = some src)
      (hf : HostFsStore.chunkFile P header (HostFsStore.storedBlocks v.cfg src) = .ok file) :
      Enters P v id j { j with phase := .writing, inStep := true } (.seal id j.key file)
  | written (key : ChunkKey) (file : List UInt8) (ht : v.task = .written id key file) (hc : j.cancelling = false) :
      Enters P v id j { j with phase := .syncing } (.sync id key file)
  | synced (key : ChunkKey) (file : List UInt8) (ht : v.task = .synced id key file) :
      Enters P v id j { j with stage := .completed, phase := .publishing } (.rename id key file)
  | renamed (key : ChunkKey) (phys m : Nat) (ht : v.task = .renamed id key phys m) :
      Enters P v id j { j with stage := .published } (.syncDir id key phys m)
  | load (expect : ChunkHeader) (ht : v.task = .load id) (hc : j.cancelling = false) (hh : j.header = some expect) :
      Enters P v id j { j with phase := .reading, inStep := true } (.read id j.key expect)
  | flush (ht : v.task = .flush id) : Enters P v id j { j with phase := .flushing, inStep := true } (.flushing id)

/-- What the worker unlinks, for whom, and where it goes. -/
inductive Unlinks (v : View) : Path → Option JobId → Task → Prop
  | queued (u : Unlink) (ht : v.task = .unlink u) : Unlinks v (objectPathFor u.key) u.chosenBy (.unlinked u true)
  | purge (path : Path) (key : ChunkKey) (phys : Nat) (ht : v.task = .purgeUnlink path key) :
      Unlinks v path none (.purged (.ok (some phys)))
  | evict (k : ChunkKey) (ht : v.task = .evict k) : Unlinks v (objectPathFor k) none (.evicted k true)
  | read (id : JobId) (key : ChunkKey) (expect : ChunkHeader) (node : Node) (ht : v.task = .read id key expect)
      (hn : v.disk (objectPathFor key) = some node) (hr : node.kind = .regular ∧ node.ours = true) :
      Unlinks v (objectPathFor key) none (.corrupt id key)
  | landing (id : JobId) (key : ChunkKey) (region payload : List UInt8) (i : Nat)
      (ht : v.task = .landing id key region payload i) : Unlinks v (objectPathFor key) none (.corrupt id key)

/-- What the recovery walk does. -/
inductive Recovers (v : View) : View → Prop
  | loose (n : Nat) : Recovers v { v with loose := v.loose + n }
  | unreadable (path : Path) (node : Node) (n : Nat) (hn : v.disk path = some node)
      (hr : node.kind = .regular ∧ node.ours = true) : Recovers v { v with
        disk := Function.update v.disk path (some { node with unreadable := true })
        loose := v.loose + n }
  | unlinks (path : Path) (node : Node) (hn : v.disk path = some node) (hr : node.kind = .regular ∧ node.ours = true) :
      Recovers v (v.unlinkPath path none)
  | indexes (k : ChunkKey) (e : IndexEntry) (he : e.evicting = false) :
      Recovers v { v with index := v.index.insert k e }
  | fails : Recovers v { v with admits := false }
  | done : Recovers v ({ v with recovered := true, admits := true }.note (.recovered v.usedBytes v.index.map.size))

/-- The next class, after as many restores as `streak` counts: whether it is a park, whether the other class waits, and
the count then. -/
inductive Picks (streak : Nat) : Bool → Bool → Nat → Prop
  | pass (h : streak < 3) : Picks streak false true (streak + 1)
  | turn (h : ¬ streak < 3) : Picks streak true true 0
  | restore : Picks streak false false (streak + 1)
  | park : Picks streak true false 0

def Task.start (j : Job) : Task :=
  match j.kind with
  | .noop => .noop j.id
  | .store => .store j.id
  | .load => .load j.id
  | .flush => .flush j.id

/-! ## Moves -/

inductive Move (P : Primitives) (v : View) : View → Prop
  | accepts (j : Job) (h : j.Fresh v) : Move P v ({ v with
      next := v.next + 1
      reserved := v.reserved + j.reserved
      inflight := if j.kind = Kind.store then v.inflight.insert j.key j.id else v.inflight
      jobs := v.jobs.insert j.id j }.note (.accepted j.id j.kind j.key))
  | cancels (id : JobId) (j : Job) (hj : v.jobs[id]? = some j) (hc : j.cancelling = true ∨ Inner.cancellable j = true) :
      Move P v ({ v with jobs := v.jobs.insert id { j with cancelling := true } }.note (.cancelled id))
  | alters (jobs : ExtTreeMap JobId Job) (F : JobId → Job → Job) (hget : ∀ id : JobId, jobs[id]? = v.jobs[id]?.map (F id))
      (hF : ∀ (id : JobId) (j : Job), v.jobs[id]? = some j → j.Alike (F id j)) : Move P v { v with jobs }
  | serves (x : Index) (h : v.index.Serves x) : Move P v { v with index := x }
  | deletes (k : ChunkKey) (x : Index) (hx : v.index.markEvicting k = some x) (hi : v.inflight[k]? = none) :
      Move P v { v with index := x, unlinks := v.unlinks ++ [⟨k, false, none⟩] }
  | ends (id : JobId) (j : Job) (terminal : Terminal) (durable : Bool) (t : Task) (hj : v.jobs[id]? = some j)
      (h : Ending v id j terminal durable t) : Move P v (v.ended id j terminal durable t)
  | crashes (id : JobId) (j : Job) (hj : v.jobs[id]? = some j) (ht : v.task = .crashing id) :
      Move P v (((v.goto .free).takes id).gives j false)
  | publishes (id : JobId) (j : Job) (key : ChunkKey) (phys m : Nat) (e : IndexEntry) (hj : v.jobs[id]? = some j)
      (ht : v.task = .insert id key phys m) (he : e.physBytes = phys ∧ e.evicting = false ∧ e.foreign = false)
      (hi : e.indeterminate = false) :
      Move P v (v.published id j key e (.done .durable) true)
  | publishesUnsynced (id : JobId) (j : Job) (key : ChunkKey) (phys m : Nat) (e : IndexEntry) (err : PlatformError)
      (hj : v.jobs[id]? = some j) (ht : v.task = .indeterminate id key phys m err)
      (he : e.physBytes = phys ∧ e.evicting = false ∧ e.foreign = false) (hi : e.indeterminate = true) :
      Move P v (v.published id j key e (.failed err) false)
  | loses (id : JobId) (j : Job) (key : ChunkKey) (e : PlatformError) (hj : v.jobs[id]? = some j)
      (ht : v.task = .missing id key ∨ v.task = .corrupt id key) : Move P v (v.lost id j key e)
  | absent (id : JobId) (hj : v.jobs[id]? = none) (ht : v.task.job = some id) : Move P v (v.goto .free)
  | marks (id : JobId) (j : Job) (k : ChunkKey) (x : Index) (hj : v.jobs[id]? = some j) (ht : v.task = .store id)
      (hc : j.cancelling = false) (hk : v.index.pickVictim = some k) (hx : v.index.markEvicting k = some x) :
      Move P v ({ v with index := x, jobs := v.jobs.insert id { j with victims := j.victims ++ [k] } }.note (.victim id k))
  | enters (id : JobId) (j j' : Job) (t : Task) (hj : v.jobs[id]? = some j) (h : Enters P v id j j' t) :
      Move P v ({ v with jobs := v.jobs.insert id j' }.goto t)
  | goes (t : Task) (h : Goes P v v.task t) : Move P v (v.goto t)
  | unlinks (path : Path) (chosenBy : Option JobId) (t : Task) (h : Unlinks v path chosenBy t) :
      Move P v ((v.unlinkPath path chosenBy).goto t)
  | unlinkFails (k : ChunkKey) (t : Task) (h : (∃ u, v.task = .unlink u ∧ u.key = k ∧ t = .unlinked u false) ∨
      v.task = .evict k ∧ t = .evicted k false) : Move P v ((v.note (.unlinkFailed k)).goto t)
  | drops (k : ChunkKey) (h : (∃ u, v.task = .unlinked u true ∧ u.key = k) ∨ v.task = .evicted k true) :
      Move P v ({ v with index := v.index.remove k }.goto .free)
  | returns (k : ChunkKey) (h : (∃ u, v.task = .unlinked u false ∧ u.key = k) ∨ v.task = .evicted k false) :
      Move P v ({ v with index := v.index.clearEvicting k }.goto .free)
  | evicts (k : ChunkKey) (x : Index) (ht : v.task = .purgeEvict) (hk : v.index.pickVictim = some k)
      (hx : v.index.markEvicting k = some x) : Move P v ({ v with index := x }.goto (.evict k))
  | pops (u : Unlink) (rest : List Unlink) (ht : v.task = .nextUnlink) (hu : v.unlinks = u :: rest) :
      Move P v ({ v with unlinks := rest }.goto (.unlink u))
  | picks (j : Job) (park w : Bool) (streak : Nat) (ht : v.task = .nextJob) (h : Picks v.streak park w streak)
      (hj : v.nextOf park = some j) :
      Move P v (({ v with streak }.note (.picked j.id park w)).goto (Task.start j))
  | frees (n : Nat) (hn : n ≤ v.loose) (ht : v.task = .purgeList ∨ ∃ r, v.task = .purged r) :
      Move P v ({ v with loose := n }.goto .free)
  | renames (id : JobId) (key : ChunkKey) (file : List UInt8) (phys m : Nat) (origin : Option (ChunkHeader × List (List UInt8)))
      (ht : v.task = .rename id key file)
      (ho : origin = v.jobs[id]?.bind fun j => j.header.bind fun h => j.src.map fun src => (h, src.blocks)) :
      Move P v (({ v with
        disk := Function.update v.disk (objectPathFor key) (some { kind := .regular, ours := true, bytes := file, origin })
        log := v.log ++ (origin.map fun (o : ChunkHeader × List (List UInt8)) => Log.stored key o.1 o.2).toList }.note
            (.published id key phys ((v.jobs[id]?.map Job.reserved).getD 0))).goto
          (.renamed id key phys m))
  | lands (id : JobId) (key : ChunkKey) (region payload data : List UInt8) (i b : Nat) (j : Job) (dst : PinnedDest)
      (ht : v.task = .landing id key region payload i) (hj : v.jobs[id]? = some j) (hd : j.dst = some dst)
      (hb : dst.blocks[i]? = some b) (hdata : data = HostFsStore.segment v.cfg payload i)
      (hsha : bytes32 (P.sha data) = slice region (headerLen + 32 * i) 32) (hlen : data.length = dst.blockBytes.toNat) :
      Move P v (({ v with pool := Function.update v.pool b data }.note (.wrote id i)).goto
        (.landing id key region payload (i + 1)))
  | logs (l : List Log) (id : JobId) (key : ChunkKey) (ht : v.task = .landed id key)
      (hl : l = (v.jobs[id]?.bind fun j => j.header.bind fun h => j.dst.map fun dst =>
        Log.loaded key h dst (dst.blocks.map v.pool)).toList) : Move P v { v with log := v.log ++ l }
  | recovers (v' : View) (hr : v.recovered = false) (h : Recovers v v') : Move P v v'
  | reopens (idOk : Bool) (unit : Nat) :
      Move P v (HostFsStore.openAt v.cfg v.disk v.pool v.log idOk unit).view

abbrev Moves (P : Primitives) : View → View → Prop := Relation.ReflTransGen (Move P)

/-! ## What the lock sections do to the view -/

namespace HostFsStore

variable {P : Primitives} {s s' : HostFsStore} {g g' : Inner} {t t' : Task} {id : JobId} {j job : Job} {a : Answer}

theorem seen_giveBack (s : HostFsStore) (g : Inner) (t : Task) (job : Job) (durable : Bool) :
    s.seen (g.giveBack job durable) t = (s.seen g t).gives job durable := by
  have hcredits : s.seen (g.giveCredits job) t = { s.seen g t with reserved := g.reserved - job.reserved } := by
    unfold Inner.giveCredits
    split_ifs <;> rfl
  have hvictims : ∀ g, s.seen (g.settleVictims job durable) t = (s.seen g t).settles job durable := by
    intro g
    unfold Inner.settleVictims View.settles
    cases durable <;> rfl
  have hkey : ∀ g, s.seen (g.giveKey job) t = (s.seen g t).freesKey job := by
    intro g
    unfold Inner.giveKey View.freesKey
    by_cases hown : g.inflightStore[job.key]? = some job.id
    · rw [if_pos hown, if_pos (show (s.seen g t).inflight[job.key]? = some job.id from hown)]
      rfl
    · rw [if_neg hown, if_neg (show ¬ (s.seen g t).inflight[job.key]? = some job.id from hown)]
  have hbusy : ∀ g, s.seen (g.giveBusy job) t = (s.seen g t).freesBusy job := by
    intro g
    unfold Inner.giveBusy View.freesBusy
    split_ifs <;> rfl
  unfold Inner.giveBack View.gives
  dsimp only
  rw [hbusy]
  split_ifs
  · rw [hkey, hvictims, hcredits]
    rfl
  · rw [hcredits]
    rfl

theorem seen_finish (s : HostFsStore) (g : Inner) (t : Task) (job : Job) (terminal : Terminal) (stage : JobStage)
    (outcome : PublishOutcome) : s.seen (g.finish job terminal stage outcome) t =
      ((s.seen g t).gives job (outcome = .durable && Inner.isDone terminal)).note (.ended job.id job.key terminal) := by
  rw [← seen_giveBack]
  rfl

theorem seen_takeJob_finish (hj : g.jobs[id]? = some j) (t t' : Task) (terminal : Terminal) (stage : Job → JobStage)
    (outcome : PublishOutcome) :
    s.seen (g.takeJob id fun g job => g.finish { job with stage := stage job } terminal (stage job) outcome) t' =
      (s.seen g t).ended id j terminal (outcome = .durable && Inner.isDone terminal) t' := by
  unfold Inner.takeJob
  rw [hj]
  dsimp only
  rw [seen_finish]
  rfl

theorem takeJob_none {f : Inner → Job → Inner} (h : g.jobs[id]? = none) : g.takeJob id f = g := by
  unfold Inner.takeJob
  rw [h]

theorem seen_note (s : HostFsStore) (g : Inner) (t : Task) (e : Event) : s.seen (g.note e) t = (s.seen g t).note e := rfl

theorem view_unlinkPath (s : HostFsStore) (path : Path) (chosenBy : Option JobId) (t : Task) :
    ({ s.unlinkPath path chosenBy with task := t } : HostFsStore).view = (s.view.unlinkPath path chosenBy).goto t := by
  unfold unlinkPath View.unlinkPath
  show view _ = View.goto (match s.disk path with | none => _ | some node => _) t
  cases s.disk path with
  | none => rfl
  | some node => rfl

/-! ## Endings -/

/-- A job ends as `Ending` says; a job that has gone ends no more. -/
theorem ending_moves {terminal : Terminal} (stage : Job → JobStage) (outcome : PublishOutcome)
    (h : ∀ j, g.jobs[id]? = some j → Ending (s.seen g t) id j terminal (outcome = .durable && Inner.isDone terminal) t')
    (hnone : g.jobs[id]? = none → Moves P (s.seen g t) (s.seen g t')) :
    Moves P (s.seen g t) (s.seen (g.takeJob id fun g job =>
      g.finish { job with stage := stage job } terminal (stage job) outcome) t') := by
  cases hj : g.jobs[id]? with
  | none =>
    rw [takeJob_none hj]
    exact hnone hj
  | some j =>
    rw [seen_takeJob_finish hj t]
    exact .single (.ends id j terminal _ t' hj (h j hj))

theorem cancelJob_moves (h : ∀ j, g.jobs[id]? = some j → Ending (s.seen g t) id j .cancelled false t')
    (hnone : g.jobs[id]? = none → Moves P (s.seen g t) (s.seen g t')) :
    Moves P (s.seen g t) (s.seen (g.cancelJob id) t') :=
  ending_moves Job.stage .notApplicable h hnone

theorem cancelJobs_moves (ids : List JobId)
    (h : ∀ id ∈ ids, ∀ j, g.jobs[id]? = some j → j.cancelling = true ∧ j.inStep = false) :
    Moves P (s.seen g t) (s.seen (ids.foldl Inner.cancelJob g) t) := by
  induction ids generalizing g with
  | nil => exact .refl
  | cons id ids ih =>
    have hone : Moves P (s.seen g t) (s.seen (g.cancelJob id) t) :=
      cancelJob_moves (fun j hj => .reaped (h id (by simp) j hj).1 (h id (by simp) j hj).2) fun _ => .refl
    refine hone.trans (ih fun id' hid' j hj => h id' (List.mem_cons_of_mem _ hid') j ?_)
    have hjobs : (g.cancelJob id).jobs = g.jobs.erase id ∨ (g.cancelJob id).jobs = g.jobs := by
      unfold Inner.cancelJob
      cases hg : g.jobs[id]? with
      | none =>
        rw [takeJob_none hg]
        exact Or.inr rfl
      | some job =>
        have heq := congrArg View.jobs (seen_takeJob_finish (s := s) hg t t .cancelled Job.stage .notApplicable)
        exact Or.inl (heq.trans (View.ended_jobs _ id job _ _ t))
    rcases hjobs with hjobs | hjobs
    · rw [hjobs, Table.get_erase] at hj
      split_ifs at hj
      exact hj
    · rw [hjobs] at hj
      exact hj

theorem reapCancels_moves (hn : (s.seen g t).Named) : Moves P (s.seen g t) (s.seen g.reapCancels t) := by
  refine cancelJobs_moves _ fun id hid j hj => ?_
  obtain ⟨j', hj', rfl⟩ := List.mem_map.1 hid
  obtain ⟨hmem, hp⟩ := List.mem_filter.1 hj'
  obtain ⟨id, hget⟩ := Table.mem_values.1 hmem
  obtain rfl := hn id j' hget
  obtain rfl := Option.some.inj (hget.symm.trans hj)
  simp only [Bool.and_eq_true, Bool.not_eq_true'] at hp
  exact hp.1

/-! ## The worker -/

theorem rests_moves (ht : t.bare = true) (ht' : t'.bare = true) : Moves P (s.seen g t) (s.seen g t') :=
  .single (.goes _ (.rests t t' ht ht'))

theorem pickJob_moves (hp : pickJob g = some (j, g')) : Moves P (s.seen g .nextJob) (s.seen g' (Task.start j)) := by
  unfold pickJob at hp
  split at hp
  · rename_i r p hr hpk
    split_ifs at hp with hlt
    · obtain ⟨rfl, rfl⟩ := Prod.mk.inj (Option.some.inj hp)
      exact .single (.picks _ false true _ rfl (.pass hlt) hr)
    · obtain ⟨rfl, rfl⟩ := Prod.mk.inj (Option.some.inj hp)
      exact .single (.picks _ true true _ rfl (.turn hlt) hpk)
  · rename_i r hr hpk
    obtain ⟨rfl, rfl⟩ := Prod.mk.inj (Option.some.inj hp)
    exact .single (.picks _ false false _ rfl .restore hr)
  · rename_i p hr hpk
    obtain ⟨rfl, rfl⟩ := Prod.mk.inj (Option.some.inj hp)
    exact .single (.picks _ true false _ rfl .park hpk)
  · cases hp

theorem workPump_moves (hn : s.view.Named) (h : s.workPump t = some s') : Moves P (s.seen s.inner t) s'.view := by
  unfold workPump at h
  split at h
  · split_ifs at h
    · cases h
      exact rests_moves rfl rfl
    · cases h
      exact reapCancels_moves hn
  · split at h
    · cases h
      exact rests_moves rfl rfl
    · rename_i u rest hu
      cases h
      exact .single (.pops u rest rfl hu)
  · dsimp only at h
    split_ifs at h
    · cases h
      exact rests_moves rfl rfl
    · cases h
      exact rests_moves rfl rfl
    · cases h
      exact rests_moves rfl rfl
  · split at h
    · cases h
      exact rests_moves rfl rfl
    · rename_i j g hp
      cases h
      exact pickJob_moves hp
  · rename_i id
    cases h
    exact ending_moves (fun _ => .durable) .notApplicable (fun j _ => .noop rfl)
      fun hj => .single (.goes _ (.misses _ id rfl hj))
  · cases h

theorem workUnlink_moves (h : s.workUnlink t a = some s') (ht : s.task = t) : Moves P s.view s'.view := by
  subst ht
  unfold workUnlink at h
  split at h
  · rename_i u ht
    cases h
    rw [view_unlinkPath]
    exact .single (.unlinks _ _ _ (.queued u ht))
  · rename_i u e ht
    cases h
    exact .single (.unlinkFails u.key _ (Or.inl ⟨u, ht, rfl, rfl⟩))
  · rename_i u ht
    cases h
    refine .single (.goes _ ?_)
    rw [show s.view.task = .unlink u from ht]
    exact .unlinkCrash u
  · rename_i u ht
    cases h
    exact .single (.drops u.key (Or.inl ⟨u, ht, rfl⟩))
  · rename_i u ht
    cases h
    exact .single (.returns u.key (Or.inl ⟨u, ht, rfl⟩))
  · cases h

theorem goes_moves (ht : s.task = t) (h : Goes P s.view t t') : Moves P s.view (s.seen s.inner t') := by
  subst ht
  exact .single (.goes t' h)

theorem seen_stopPurge (s : HostFsStore) (g : Inner) (t : Task) : s.seen (stopPurge g) t = s.seen g t := rfl

theorem workPurge_moves (h : s.workPurge s.task a = some s') : Moves P s.view s'.view := by
  unfold workPurge at h
  split at h
  · rename_i ht
    have hle : 0 + s.inner.stuckBytes ≤ s.view.loose := Nat.add_le_add_right (Nat.zero_le _) _
    dsimp only at h
    split_ifs at h
    · cases h
      exact .single (.frees (0 + s.inner.stuckBytes) hle (Or.inl ht))
    · cases h
      exact .single (.frees (0 + s.inner.stuckBytes) hle (Or.inl ht))
  · rename_i ht
    cases h
    exact goes_moves ht (.rests _ _ rfl rfl)
  · rename_i path ht
    split at h
    · cases h
      exact goes_moves ht (.rests _ _ rfl rfl)
    · rename_i key hkey
      cases h
      exact goes_moves ht (.lists path key hkey)
  · rename_i path key ht
    split_ifs at h with hknown
    · cases h
      exact goes_moves ht (.skips path key)
    · cases h
      simp only [Bool.or_eq_true, not_or, Bool.not_eq_true, Option.isSome_eq_false_iff, Option.isNone_iff_eq_none] at hknown
      refine goes_moves ht (.looks path key hknown.1 (ExtTreeMap.getElem?_eq_none fun hmem => ?_))
      exact Bool.false_ne_true (hknown.2.symm.trans hmem)
  · rename_i path key phys m ht
    split at h
    · cases h
      exact goes_moves ht (.purgeFails path key _ (by simp))
    · cases h
      rw [view_unlinkPath]
      exact .single (.unlinks _ _ _ (.purge path key phys ht))
  · rename_i path key e ht
    cases h
    exact goes_moves ht (.purgeFails path key _ (by simp))
  · rename_i outcome ht
    cases h
    cases outcome with
    | error u =>
      exact .single (.frees _ (Nat.le_refl _) (Or.inr ⟨_, ht⟩))
    | ok n =>
      cases n with
      | none => exact .single (.frees _ (Nat.le_refl _) (Or.inr ⟨_, ht⟩))
      | some phys =>
        exact .single (.frees (s.inner.unindexedBytes - phys + s.inner.stuckBytes)
          (Nat.add_le_add_right (Nat.sub_le _ _) _) (Or.inr ⟨_, ht⟩))
  · rename_i ht
    dsimp only at h
    split_ifs at h
    · split at h
      · cases h
        exact goes_moves ht (.rests _ _ rfl rfl)
      · rename_i k hk
        cases h
        obtain ⟨x, hx⟩ := Index.pickVictim_marks hk
        have hmark : (s.inner.index.markEvicting k).getD s.inner.index = x := by rw [hx]; rfl
        rw [hmark]
        exact .single (.evicts k x ht hk hx)
    · cases h
      exact goes_moves ht (.rests _ _ rfl rfl)
  · rename_i k ht
    cases h
    rw [view_unlinkPath]
    exact .single (.unlinks _ _ _ (.evict k ht))
  · rename_i k e ht
    cases h
    exact .single (.unlinkFails k _ (Or.inr ⟨ht, rfl⟩))
  · rename_i k ok ht
    cases ok with
    | true =>
      simp only [↓reduceIte] at h
      split_ifs at h
      · cases h
        exact .single (.drops k (Or.inr ht))
      · cases h
        exact .single (.drops k (Or.inr ht))
    | false =>
      simp only [Bool.false_eq_true, ↓reduceIte] at h
      split_ifs at h
      · cases h
        exact .single (.returns k (Or.inr ht))
      · cases h
        exact .single (.returns k (Or.inr ht))
  · cases h

/-! ### Store jobs -/

theorem room_of_not_needsRoom (h : needsRoom g = false) : (s.seen g t).Room := by
  unfold needsRoom at h
  simp only [Bool.or_eq_false_iff, decide_eq_false_iff_not, Nat.not_lt] at h
  refine ⟨?_, h.2⟩
  have hbytes := h.1
  unfold Inner.bytesAfter Inner.usedBytes at hbytes
  rw [Nat.add_assoc g.index.totalBytes] at hbytes
  exact hbytes

theorem makeRoom_moves (n : Nat) (hj : g.jobs[id]? = some j) (hc : j.cancelling = false) :
    Moves P (s.seen g (.store id)) (s.seen (makeRoom id n g).1 (.store id)) ∧
      (∃ vs, (makeRoom id n g).1.jobs[id]? = some { j with victims := vs }) ∧
      (makeRoom id n g).1.cfg = g.cfg ∧ ((makeRoom id n g).2 = true → needsRoom (makeRoom id n g).1 = false) := by
  induction n generalizing g j with
  | zero => exact ⟨.refl, ⟨j.victims, hj⟩, rfl, fun h => by simpa [makeRoom] using h⟩
  | succ n ih =>
    unfold makeRoom
    split_ifs with hroom
    · exact ⟨.refl, ⟨j.victims, hj⟩, rfl, fun _ => by simpa using hroom⟩
    · exact ⟨.refl, ⟨j.victims, hj⟩, rfl, by simp⟩
    · cases hv : g.index.pickVictim with
      | none => exact ⟨.refl, ⟨j.victims, hj⟩, rfl, by simp⟩
      | some k =>
        obtain ⟨x, hx⟩ := Index.pickVictim_marks hv
        have hadd : addVictim g id k = { g with
            index := x, jobs := g.jobs.insert id { j with victims := j.victims ++ [k] }
            history := g.history ++ [.victim id k] } := by
          unfold addVictim
          rw [hx, Table.modify_of_some hj]
          rfl
        have hone : Moves P (s.seen g (.store id)) (s.seen (addVictim g id k) (.store id)) := by
          rw [hadd]
          exact .single (.marks id j k x hj rfl hc hv hx)
        have hj' : (addVictim g id k).jobs[id]? = some { j with victims := j.victims ++ [k] } := by
          rw [hadd]
          show (g.jobs.insert id _)[id]? = _
          rw [Table.get_insert, if_pos rfl]
        have hrest := ih (g := addVictim g id k) hj' hc
        exact ⟨hone.trans hrest.1, hrest.2.1, hrest.2.2.1, hrest.2.2.2⟩

theorem startStore_moves (held : Bool) : Moves P (s.seen g (.store id))
    (s.seen (startStore P g id held).1 (startStore P g id held).2) := by
  unfold startStore
  cases hj : g.jobs[id]? with
  | none => exact .single (.goes _ (.misses _ id rfl hj))
  | some job =>
    dsimp only
    by_cases hc : job.cancelling = true
    · rw [if_pos hc]
      refine cancelJob_moves (fun j hj' => ?_) fun hnone => (nomatch hnone.symm.trans hj)
      obtain rfl := Option.some.inj (hj.symm.trans hj')
      exact .stopped (Or.inl rfl) hc
    · rw [if_neg hc]
      have hc : job.cancelling = false := by simpa using hc
      obtain ⟨hmoves, ⟨vs, hjob⟩, -, hroomy⟩ := makeRoom_moves (P := P) (s := s) g.index.candidates.length hj hc
      generalize makeRoom id g.index.candidates.length g = r at hmoves hjob hroomy ⊢
      have hend : ∀ e : PlatformError, Moves P (s.seen g (.store id))
          (s.seen (r.1.takeJob id fun g job => g.failJob job e) .free) := fun e =>
        hmoves.trans (ending_moves Job.stage .notApplicable (fun j _ => .refused e rfl)
          fun hnone => (nomatch hnone.symm.trans hjob))
      by_cases hroom : r.2 = true
      · have hfits : (s.seen r.1 (.store id)).Room := room_of_not_needsRoom (hroomy hroom)
        rw [if_neg (by simp [hroom])]
        cases hh : job.header with
        | none => exact hmoves.tail (.goes _ (.malformed _ id _ (Or.inl rfl) hjob (Or.inl hh)))
        | some header =>
          cases hs : job.src with
          | none => exact hmoves.tail (.goes _ (.malformed _ id _ (Or.inl rfl) hjob (Or.inr ⟨rfl, hs⟩)))
          | some src =>
            dsimp only
            split_ifs
            · exact hend .invalidLayout
            · cases hf : chunkFile P header (storedBlocks r.1.cfg src) with
              | error e => exact hend .invalidLayout
              | ok file =>
                dsimp only
                rw [Table.modify_of_some hjob]
                exact hmoves.tail (.enters id _ _ _ hjob (.store header src file rfl hc hfits hh hs hf))
      · rw [if_pos (by simpa using hroom)]
        exact hend .outOfMemory

theorem afterWrite_moves (key : ChunkKey) (file : List UInt8) : Moves P (s.seen g (.written id key file))
    (s.seen (afterWrite g id key file).1 (afterWrite g id key file).2) := by
  unfold afterWrite
  cases hj : g.jobs[id]? with
  | none => exact .single (.goes _ (.missesWritten id key file hj))
  | some job =>
    dsimp only
    split_ifs with hc
    · refine cancelJob_moves (fun j hj' => ?_) fun hnone => (nomatch hnone.symm.trans hj)
      obtain rfl := Option.some.inj (hj.symm.trans hj')
      exact .stopped (Or.inr (Or.inr ⟨key, file, rfl⟩)) hc
    · exact .single (.enters id job _ _ hj (.written key file rfl (by simpa using hc)))

theorem afterSync_moves (key : ChunkKey) (file : List UInt8) : Moves P (s.seen g (.synced id key file))
    (s.seen (afterSync g id) (.rename id key file)) := by
  unfold afterSync
  cases hj : g.jobs[id]? with
  | none => exact .single (.goes _ (.vacant id key file hj))
  | some job => exact .single (.enters id job _ _ hj (.synced key file rfl))

theorem seen_setDegraded (s : HostFsStore) (g : Inner) (t : Task) : s.seen g.setDegraded t = s.seen g t := by
  unfold Inner.setDegraded
  split_ifs with hopen
  · simp [seen, hopen]
  · rfl

theorem setDegraded_jobs (g : Inner) : g.setDegraded.jobs = g.jobs := by
  unfold Inner.setDegraded
  split_ifs <;> rfl

theorem seen_publish (hj : g.jobs[id]? = some j) (t : Task) (key : ChunkKey) (phys mtime now : Nat) (terminal : Terminal)
    (stage : JobStage) (outcome : PublishOutcome) :
    ∃ e : IndexEntry, e.physBytes = phys ∧ e.evicting = false ∧ e.foreign = false ∧
      e.indeterminate = (outcome = .indeterminate : Bool) ∧
      s.seen (publish g id key phys mtime now terminal stage outcome) .free =
        (s.seen g t).published id j key e terminal (outcome = .durable && Inner.isDone terminal) := by
  have hj' : (g.nextTimestampNs mtime now).2.jobs[id]? = some j := hj
  refine ⟨{ physBytes := phys, mtimeNs := (g.nextTimestampNs mtime now).1, payloadLen := j.payloadLen,
            indeterminate := outcome = .indeterminate }, rfl, rfl, rfl, rfl, ?_⟩
  unfold publish Inner.takeJob
  dsimp only
  rw [hj']
  dsimp only
  rw [seen_finish]
  rfl

theorem publish_none (hj : g.jobs[id]? = none) (key : ChunkKey) (phys mtime now : Nat) (terminal : Terminal)
    (stage : JobStage) (outcome : PublishOutcome) :
    s.seen (publish g id key phys mtime now terminal stage outcome) t = s.seen g t := by
  have hj' : (g.nextTimestampNs mtime now).2.jobs[id]? = none := hj
  unfold publish
  dsimp only
  rw [takeJob_none hj']
  rfl

/-- The job of the worker's step has gone, and nothing changes but the task. -/
theorem absent_moves (hj : s.inner.jobs[id]? = none) (ht : s.task.job = some id) :
    Moves P s.view (s.seen s.inner .free) := .single (.absent id hj ht)

theorem workStore_moves (h : s.workStore P s.task a = some s') : Moves P s.view s'.view := by
  unfold workStore at h
  split at h
  · rename_i id held b ht
    cases h
    unfold view
    rw [ht]
    exact startStore_moves held
  · rename_i id key file n ht
    split at h
    · cases h
      exact goes_moves ht (.fails _ id _ false (Or.inl ⟨key, file, Or.inl rfl⟩))
    · rename_i file' hseal
      cases h
      exact goes_moves ht (.seals id key file file' n hseal)
  · rename_i id key file e ht
    cases h
    exact goes_moves ht (.fails _ id e false (Or.inl ⟨key, file, Or.inl rfl⟩))
  · rename_i id key file ht
    cases h
    unfold view
    rw [ht]
    exact afterWrite_moves key file
  · rename_i id key file ht
    cases h
    exact goes_moves ht (.synced id key file)
  · rename_i id key file e ht
    cases h
    exact goes_moves ht (.fails _ id e true (Or.inl ⟨key, file, Or.inr (Or.inl rfl)⟩))
  · rename_i id key file ht
    cases h
    unfold view
    rw [ht]
    exact afterSync_moves key file
  · rename_i id key file phys m ht
    cases h
    exact .single (.renames id key file phys m _ ht rfl)
  · rename_i id key file e ht
    cases h
    exact goes_moves ht (.fails _ id e false (Or.inl ⟨key, file, Or.inr (Or.inr rfl)⟩))
  · rename_i id key phys m ht
    cases h
    cases hj : s.inner.jobs[id]? with
    | none =>
      rw [Table.modify_of_none hj]
      exact goes_moves ht (.vacantDir id key phys m hj)
    | some j =>
      rw [Table.modify_of_some hj]
      exact .single (.enters id j _ _ hj (.renamed key phys m ht))
  · rename_i id key phys m ht
    cases h
    exact goes_moves ht (.syncedDir id key phys m)
  · rename_i id key phys m e ht
    cases h
    exact goes_moves ht (.unsynced id key phys m e)
  · rename_i id key phys m e now ht
    cases h
    show Moves P s.view (s.seen (publish s.inner.setDegraded id key phys m now (.failed e) .published .indeterminate) .free)
    cases hj : s.inner.jobs[id]? with
    | none =>
      rw [publish_none (setDegraded_jobs s.inner ▸ hj), seen_setDegraded]
      exact absent_moves hj (by rw [ht]; rfl)
    | some j =>
      obtain ⟨e', hphys, hev, hfor, hind, hview⟩ := seen_publish (s := s)
        (show s.inner.setDegraded.jobs[id]? = some j from setDegraded_jobs s.inner ▸ hj) s.task key phys m now (.failed e) .published .indeterminate
      rw [hview, seen_setDegraded]
      exact .single (.publishesUnsynced id j key phys m e' e hj ht ⟨hphys, hev, hfor⟩ hind)
  · rename_i id key phys m now ht
    cases h
    show Moves P s.view (s.seen (publish s.inner id key phys m now (.done .durable) .durable .durable) .free)
    cases hj : s.inner.jobs[id]? with
    | none =>
      rw [publish_none hj]
      exact absent_moves hj (by rw [ht]; rfl)
    | some j =>
      obtain ⟨e', hphys, hev, hfor, hind, hview⟩ := seen_publish (s := s) hj s.task key phys m now (.done .durable) .durable .durable
      rw [hview]
      exact .single (.publishes id j key phys m e' hj ht ⟨hphys, hev, hfor⟩ hind)
  · rename_i id key file ht
    cases h
    exact goes_moves ht (.crashes _ id (Or.inl ⟨key, file, Or.inl rfl⟩))
  · rename_i id key file ht
    cases h
    exact goes_moves ht (.crashes _ id (Or.inl ⟨key, file, Or.inr (Or.inl rfl)⟩))
  · rename_i id key file ht
    cases h
    exact goes_moves ht (.crashes _ id (Or.inl ⟨key, file, Or.inr (Or.inr rfl)⟩))
  · rename_i id key phys m ht
    cases h
    exact goes_moves ht (.crashes _ id (Or.inr (Or.inl ⟨key, phys, m, Or.inl rfl⟩)))
  · rename_i id key phys m ht
    cases h
    exact goes_moves ht (.crashes _ id (Or.inr (Or.inl ⟨key, phys, m, Or.inr rfl⟩)))
  · rename_i id e degrade ht
    cases h
    have hend : ∀ g : Inner, s.seen g s.task = s.view → g.jobs = s.inner.jobs →
        Moves P s.view (s.seen (g.takeJob id fun g job => g.failJob job e) .free) := by
      intro g hg hjobs
      rw [← hg]
      refine ending_moves Job.stage .notApplicable (fun j _ => .failed e degrade ht) fun hnone => ?_
      exact .single (.absent id hnone (by rw [show (s.seen g s.task).task = _ from ht]; rfl))
    cases degrade with
    | true => exact hend _ (seen_setDegraded s s.inner s.task) (setDegraded_jobs _)
    | false => exact hend _ rfl rfl
  · rename_i id ht
    cases h
    show Moves P s.view (s.seen (s.inner.takeJob id Inner.markCrashed) .free)
    cases hj : s.inner.jobs[id]? with
    | none =>
      rw [takeJob_none hj]
      exact absent_moves hj (by rw [ht]; rfl)
    | some j =>
      have hview : s.seen (s.inner.takeJob id Inner.markCrashed) .free = ((s.view.goto .free).takes id).gives j false := by
        unfold Inner.takeJob
        rw [hj]
        exact seen_giveBack s _ .free j false
      rw [hview]
      exact .single (.crashes id j hj ht)
  · cases h

/-! ### Load and flush jobs -/

theorem startLoad_moves : Moves P (s.seen g (.load id)) (s.seen (startLoad g id).1 (startLoad g id).2) := by
  unfold startLoad
  cases hj : g.jobs[id]? with
  | none => exact .single (.goes _ (.misses _ id rfl hj))
  | some job =>
    dsimp only
    split_ifs with hc
    · refine cancelJob_moves (fun j hj' => ?_) fun hnone => (nomatch hnone.symm.trans hj)
      obtain rfl := Option.some.inj (hj.symm.trans hj')
      exact .stopped (Or.inr (Or.inl rfl)) hc
    · split
      · rename_i hh
        exact .single (.goes _ (.malformed _ id job (Or.inr rfl) hj (Or.inl hh)))
      · rename_i expect hh
        exact .single (.enters id job _ _ hj (.load expect rfl (by simpa using hc) hh))

theorem loseObject_moves (key : ChunkKey) (e : PlatformError) (ht : s.task = .missing id key ∨ s.task = .corrupt id key) :
    Moves P s.view (s.seen (loseObject s.inner id key e) .free) := by
  unfold loseObject
  cases hj : s.inner.jobs[id]? with
  | none =>
    rw [takeJob_none hj]
    refine absent_moves hj ?_
    rcases ht with ht | ht
    · rw [ht]
      rfl
    · rw [ht]
      rfl
  | some j =>
    have hview : s.seen (s.inner.takeJob id fun g job =>
        let g := if job.busyHeld then { g with index := g.index.busyDec key } else g
        let g := { g with index := g.index.remove key }
        g.failJob { job with busyHeld := false } e) .free = s.view.lost id j key e := by
      unfold Inner.takeJob Inner.failJob View.lost
      rw [hj]
      dsimp only
      rw [seen_finish]
      cases j.busyHeld <;> rfl
    rw [hview]
    exact .single (.loses id j key e hj ht)

theorem refuse_moves {key : ChunkKey} (unlinks : Bool) (hgo : Goes P s.view s.task (.corrupt id key))
    (hun : Unlinks s.view (objectPathFor key) none (.corrupt id key)) : Moves P s.view (s.refuse id key unlinks).view := by
  unfold refuse
  cases unlinks with
  | true =>
    rw [if_pos rfl, view_unlinkPath]
    exact .single (.unlinks _ _ _ hun)
  | false => exact .single (.goes _ hgo)

theorem landing_moves {key : ChunkKey} {region payload : List UInt8} {i : Nat} {held unlinks : Bool}
    (ht : s.task = .landing id key region payload i)
    (h : s.workLoad P (.landing id key region payload i) (.file held unlinks) = some s') : Moves P s.view s'.view := by
  unfold workLoad at h
  dsimp only at h
  split_ifs at h with hn hsha hheld
  · cases h
    exact goes_moves ht (.lands id key region payload i hn)
  · cases h
    refine refuse_moves unlinks ?_ (.landing id key region payload i ht)
    rw [ht]
    exact .rejects _ id key (Or.inr ⟨region, payload, i, rfl⟩)
  · cases h
    exact goes_moves ht (.fails _ id _ false (Or.inr (Or.inr ⟨key, region, payload, i, rfl⟩)))
  · unfold landSegment at h
    split at h
    · cases h
    · rename_i dst hdst
      obtain ⟨j, hj, hd⟩ := Option.bind_eq_some_iff.1 hdst
      dsimp only at h
      split at h
      · cases h
        exact goes_moves ht (.fails _ id _ false (Or.inr (Or.inr ⟨key, region, payload, i, rfl⟩)))
      · rename_i b hb
        split_ifs at h with hlen
        · cases h
          exact goes_moves ht (.fails _ id _ false (Or.inr (Or.inr ⟨key, region, payload, i, rfl⟩)))
        · cases h
          exact .single (.lands id key region payload _ i b j dst ht hj hd hb rfl (not_not.1 hsha) (not_not.1 hlen))

theorem workLoad_moves (h : s.workLoad P s.task a = some s') : Moves P s.view s'.view := by
  cases ht : s.task with
  | load id =>
    rw [ht] at h
    cases a with
    | ok =>
      obtain rfl := Option.some.inj h
      unfold view
      rw [ht]
      exact startLoad_moves
    | _ => cases h
  | read id key expect =>
    rw [ht] at h
    cases a with
    | crash =>
      obtain rfl := Option.some.inj h
      exact goes_moves ht (.crashes _ id (Or.inr (Or.inr (Or.inl ⟨key, expect, rfl⟩))))
    | fail e =>
      obtain rfl := Option.some.inj h
      exact goes_moves ht (.fails _ id e false (Or.inr (Or.inl ⟨key, expect, rfl⟩)))
    | file reads unlinks =>
      unfold workLoad at h
      dsimp only at h
      cases hd : s.disk (objectPathFor key) with
      | none =>
        rw [hd] at h
        obtain rfl := Option.some.inj h
        exact goes_moves ht (.misread id key expect)
      | some node =>
        rw [hd] at h
        dsimp only at h
        have hrefuse : node.kind = .regular ∧ node.ours = true → Moves P s.view (s.refuse id key unlinks).view := by
          intro hr
          refine refuse_moves unlinks ?_ (.read id key expect node ht hd hr)
          rw [ht]
          exact .rejects _ id key (Or.inl ⟨expect, rfl⟩)
        by_cases hkind : node.kind = .regular ∧ node.ours = true
        · rw [if_neg (not_not.2 hkind)] at h
          split_ifs at h
          · obtain rfl := Option.some.inj h
            exact hrefuse hkind
          · split at h
            · obtain rfl := Option.some.inj h
              exact hrefuse hkind
            · rename_i region payload hfile
              obtain rfl := Option.some.inj h
              exact goes_moves ht (.reads id key expect node region payload hd hkind hfile)
        · rw [if_pos hkind] at h
          obtain rfl := Option.some.inj h
          exact goes_moves ht (.misread id key expect)
    | _ => cases h
  | missing id key =>
    rw [ht] at h
    cases a with
    | ok =>
      obtain rfl := Option.some.inj h
      exact loseObject_moves key _ (Or.inl ht)
    | _ => cases h
  | corrupt id key =>
    rw [ht] at h
    cases a with
    | ok =>
      obtain rfl := Option.some.inj h
      exact loseObject_moves key _ (Or.inr ht)
    | _ => cases h
  | landing id key region payload i =>
    rw [ht] at h
    cases a with
    | file held unlinks => exact landing_moves ht h
    | _ => cases h
  | landed id key =>
    rw [ht] at h
    cases a with
    | clock now =>
      obtain rfl := Option.some.inj h
      have hlog : Moves P s.view ({ s with log := s.log ++ s.landedLog id key } : HostFsStore).view :=
        .single (.logs _ id key ht rfl)
      refine hlog.trans (.head (.serves _ (.touch key (s.inner.nextTimestampNs 0 now).1)) ?_)
      refine ending_moves (s := { s with log := s.log ++ s.landedLog id key }) (t := s.task)
        (g := { (s.inner.nextTimestampNs 0 now).2 with index := s.inner.index.touch key (s.inner.nextTimestampNs 0 now).1 })
        (fun _ => .completed) .notApplicable (fun j _ => .landed key ht) fun hj => ?_
      exact .single (.absent id hj (by rw [show View.task _ = _ from ht]; rfl))
    | _ => cases h
  | _ =>
    rw [ht] at h
    cases a <;> cases h

theorem workFlush_moves (h : s.workFlush s.task a = some s') : Moves P s.view s'.view := by
  unfold workFlush at h
  split at h
  · rename_i id ht
    split at h
    · rename_i hj
      cases h
      exact goes_moves ht (.misses _ id rfl hj)
    · rename_i job hj
      cases h
      exact .single (.enters id job _ _ hj (.flush ht))
  · rename_i id ht
    cases h
    exact goes_moves ht (.flushed id _)
  · rename_i id e ht
    cases h
    exact goes_moves ht (.flushed id _)
  · rename_i id ht
    cases h
    exact goes_moves ht (.crashes _ id (Or.inr (Or.inr (Or.inr rfl))))
  · rename_i id ht
    cases h
    refine ending_moves (fun _ => .durable) .durable (fun j _ => .flushed ht) fun hj => ?_
    exact .single (.absent id hj (by rw [show (s.seen s.inner s.task).task = _ from ht]; rfl))
  · rename_i id e ht
    cases h
    have hend : ∀ g : Inner, s.seen g s.task = s.view →
        Moves P s.view (s.seen (g.takeJob id fun g job => g.failJob job e) .free) := by
      intro g hg
      rw [← hg]
      refine ending_moves Job.stage .notApplicable (fun j _ => .unflushed e ht) fun hj => ?_
      exact .single (.absent id hj (by rw [show (s.seen g s.task).task = _ from ht]; rfl))
    exact hend _ (seen_setDegraded s s.inner s.task)
  · cases h

theorem work_moves (hn : s.view.Named) (h : s.work P a = some s') : Moves P s.view s'.view := by
  unfold work at h
  cases ht : s.task with
  | free | nextUnlink | nextPurge | nextJob | noop =>
    rw [ht] at h
    have hm := workPump_moves (P := P) hn h
    rw [← ht] at hm
    exact hm
  | unlink | unlinked =>
    rw [ht] at h
    exact workUnlink_moves h ht
  | purgeList | purgeLook | purgeUnlink | purged | purgeEvict | evict | evicted =>
    rw [ht] at h
    exact workPurge_moves (by rw [ht]; exact h)
  | load | read | missing | corrupt | landing | landed =>
    rw [ht] at h
    exact workLoad_moves (by rw [ht]; exact h)
  | flush | flushing | flushed =>
    rw [ht] at h
    exact workFlush_moves (by rw [ht]; exact h)
  | _ =>
    rw [ht] at h
    exact workStore_moves (by rw [ht]; exact h)

/-! ## Recovery -/

theorem seen_unindexed (s : HostFsStore) (g : Inner) (t : Task) (phys : Nat) :
    s.seen (unindexed g phys) t = { s.seen g t with loose := (s.seen g t).loose + phys } := by
  unfold unindexed seen
  dsimp only
  rw [Nat.add_right_comm]

theorem seen_ite {c : Prop} [Decidable c] {g₁ g₂ : Inner} (h : s.seen g₁ t = s.seen g₂ t) :
    s.seen (if c then g₁ else g₂) t = s.seen g₂ t := by
  split_ifs
  · exact h
  · rfl

theorem failRecovery_moves (hr : s.inner.recoveryDone = false) :
    Moves P s.view ({ s with inner := failRecovery s.inner } : HostFsStore).view := by
  have hfail : ({ s with inner := failRecovery s.inner } : HostFsStore).view = { s.view with admits := false } := by
    unfold view seen failRecovery
    simp [hr]
  rw [hfail]
  exact .single (.recovers _ hr .fails)

theorem recoverEntry_moves (hr : s.inner.recoveryDone = false) (path : Path) (a : EntryAnswer) :
    Moves P s.view (s.recoverEntry P path a).view := by
  have hunlink : ∀ node, s.disk path = some node → node.kind = .regular ∧ node.ours = true →
      Moves P s.view (s.unlinkPath path none).view := by
    intro node hd hkind
    have hview : (s.unlinkPath path none).view = s.view.unlinkPath path none := by
      unfold unlinkPath View.unlinkPath
      rw [hd, show s.view.disk path = some node from hd]
      rfl
    rw [hview]
    exact .single (.recovers _ hr (.unlinks path node hd hkind))
  have hunread : ∀ node, s.disk path = some node → node.kind = .regular ∧ node.ours = true →
      Moves P s.view (s.countUnreadable path node a.phys).view := by
    intro node hd hkind
    have hview : (s.countUnreadable path node a.phys).view = { s.view with
        disk := Function.update s.view.disk path (some { node with unreadable := true })
        loose := s.view.loose + a.phys } := by
      unfold countUnreadable view
      show HostFsStore.seen _ (unindexed s.inner a.phys) _ = _
      rw [seen_unindexed]
      rfl
    rw [hview]
    exact .single (.recovers _ hr (.unreadable path node a.phys hd hkind))
  have hloose : Moves P s.view (s.seen (unindexed s.inner a.phys) s.task) := by
    rw [seen_unindexed]
    exact .single (.recovers _ hr (.loose a.phys))
  unfold recoverEntry
  split
  · exact failRecovery_moves hr
  · cases hd : s.disk path with
    | none => exact .refl
    | some node =>
      dsimp only
      cases hk : parseKvcFilename path.name path.shard with
      | none => exact .refl
      | some key =>
        dsimp only
        by_cases hkind : node.kind = .regular ∧ node.ours = true
        · rw [if_neg (not_not.2 hkind)]
          split
          · exact hloose
          · split
            · exact hunread node hd hkind
            · split
              · exact hunread node hd hkind
              · split
                · exact .single (.recovers _ hr (.indexes key _ rfl))
                · exact .single (.recovers _ hr (.indexes key _ rfl))
                · split
                  · exact hunlink node hd hkind
                  · exact hloose
        · rw [if_pos hkind]

theorem recover_moves (hf : s.inner.state ≠ .failed) (hr : s.inner.recoveryDone = false) (found : Found) :
    Moves P s.view (s.recover P found).view := by
  cases found with
  | tmp => exact .refl
  | tmpStuck phys =>
    have hstuck : (s.recover P (.tmpStuck phys)).view = { s.view with loose := s.view.loose + phys } := by
      unfold view seen recover stuck
      dsimp only
      rw [Nat.add_assoc]
    rw [hstuck]
    exact .single (.recovers _ hr (.loose phys))
  | entry path a => exact recoverEntry_moves hr path a
  | listError => exact failRecovery_moves hr
  | done =>
    -- the purge that is asked for changes nothing here, and the state is not `Failed`
    have hpurge : ∀ g : Inner, s.seen (if g.cfg.purgeAfterRecovery &&
        (0 < g.unindexedObjects || g.cfg.quotaBytes < g.usedBytes) then g.requestPurge else g) s.task = s.seen g s.task :=
      fun g => seen_ite rfl
    have hopens : ∀ g : Inner, g.state ≠ .failed → s.seen (if g.state = .recovering then
        { g with state := if g.recoveryStuck then .degraded else .open } else g) s.task =
          { s.seen g s.task with admits := true } := by
      intro g hf
      by_cases hs : g.state = .recovering
      · rw [if_pos hs]
        cases hstuck : g.recoveryStuck <;> simp [seen]
      · rw [if_neg hs]
        simp [seen, hs, hf]
    have hend : (s.recover P .done).view =
        ({ s.view with recovered := true, admits := true }.note (.recovered s.view.usedBytes s.view.index.map.size)) := by
      have hused : s.inner.usedBytes = s.view.usedBytes := Nat.add_assoc _ _ _
      show s.seen (recoveryEnd s.inner) s.task = _
      rw [← hused]
      exact (hpurge _).trans (hopens ({ s.inner with recoveryDone := true }.note
        (.recovered s.inner.usedBytes s.inner.index.map.size)) hf)
    rw [hend]
    exact .single (.recovers _ hr .done)

/-! ## The calls -/

theorem alter_moves {j' : Job} (hj : g.jobs[id]? = some j) (h : j.Alike j') :
    Moves P (s.seen g t) (s.seen { g with jobs := g.jobs.insert id j' } t) := by
  refine .single (.alters _ (fun id' k => if id = id' then j' else k) (fun id' => ?_) fun id' k hk => ?_)
  · show (g.jobs.insert id j')[id']? = _
    rw [Table.get_insert]
    by_cases he : id = id'
    · subst he
      simp [show (s.seen g t).jobs[id]? = some j from hj]
    · simp only [if_neg he, Option.map_id_fun', id_eq]
      rfl
  · by_cases he : id = id'
    · subst he
      obtain rfl := Option.some.inj (hj.symm.trans hk)
      rw [if_pos rfl]
      exact h
    · rw [if_neg he]
      exact ⟨k.cancelling, k.attached, rfl, fun h => h, fun h => Or.inl h⟩

theorem busyInc_moves (keys : List ChunkKey) : Moves P (s.seen g t)
    (s.seen { g with index := keys.foldl (fun x k => (x.busyInc k).getD x) g.index } t) := by
  induction keys generalizing g with
  | nil => exact .refl
  | cons k keys ih =>
    cases hx : g.index.busyInc k with
    | none =>
      have hrest := ih (g := g)
      rw [List.foldl_cons, hx]
      exact hrest
    | some x =>
      have hrest := ih (g := { g with index := x })
      rw [List.foldl_cons, hx]
      exact .head (.serves x (.inc k x hx)) hrest

theorem busyDec_moves (keys : List ChunkKey) : Moves P (s.seen g t)
    (s.seen { g with index := keys.foldl Index.busyDec g.index } t) := by
  induction keys generalizing g with
  | nil => exact .refl
  | cons k keys ih => exact .head (.serves _ (.dec k)) (ih (g := { g with index := g.index.busyDec k }))

theorem deleteOne_moves (k : ChunkKey) : Moves P (s.seen g t) (s.seen (g.deleteOne k) t) := by
  unfold Inner.deleteOne
  split
  · exact .refl
  · rename_i hfree
    simp only [Bool.or_eq_true, not_or, Bool.not_eq_true] at hfree
    split
    · exact .refl
    · rename_i x hx
      refine .single (.deletes k x hx (ExtTreeMap.getElem?_eq_none fun hmem => ?_))
      exact Bool.false_ne_true (hfree.2.symm.trans hmem)

theorem delete_moves (keys : List ChunkKey) : Moves P (s.seen g t) (s.seen (g.delete keys) t) := by
  unfold Inner.delete
  split
  · exact .refl
  · rename_i hopen
    clear hopen
    induction keys generalizing g with
    | nil => exact .refl
    | cons k keys ih => exact (deleteOne_moves k).trans ih

theorem closeIntake_moves (hn : (s.seen g t).Named) : Moves P (s.seen g t) (s.seen g.closeIntake t) := by
  have hget : ∀ id : JobId, (g.jobs.map fun _ j => Inner.marked j)[id]? = g.jobs[id]?.map Inner.marked := fun id =>
    ExtTreeMap.getElem?_map
  have hmark : ∀ j : Job, j.Alike (Inner.marked j) := by
    intro j
    unfold Inner.marked
    split_ifs with hm
    · simp only [Bool.and_eq_true] at hm
      exact ⟨true, j.attached, rfl, fun _ => rfl, fun _ => Or.inr hm.2⟩
    · exact ⟨j.cancelling, j.attached, rfl, fun h => h, fun h => Or.inl h⟩
  refine .head (.alters _ (fun _ => Inner.marked) hget fun _ j _ => hmark j) ?_
  refine reapCancels_moves (g := { g with closed := true, jobs := g.jobs.map fun _ j => Inner.marked j }) fun id j hj => ?_
  obtain ⟨k, hk, rfl⟩ := Option.map_eq_some_iff.1 ((hget id).symm.trans hj)
  obtain ⟨b, n, hk', -⟩ := hmark k
  rw [hk']
  exact hn id k hk

theorem cancel_moves (id : JobId) : Moves P (s.seen g t) (s.seen (g.cancel id).2 t) := by
  unfold Inner.cancel
  cases hj : g.jobs[id]? with
  | none => exact .refl
  | some j =>
    dsimp only
    split_ifs with hcrash hc hcan
    · exact .refl
    · have hsame : g.jobs.insert id { j with cancelling := true } = g.jobs := by
        have hj' : ({ j with cancelling := true } : Job) = j := by rw [← hc]
        refine ExtTreeMap.ext_getElem? fun id' => ?_
        rw [hj', Table.get_insert]
        split_ifs with he
        · rw [← he, hj]
        · rfl
      have hmove := Move.cancels (P := P) (v := s.seen g t) id j hj (Or.inl hc)
      rw [show (s.seen g t).jobs = g.jobs from rfl, hsame] at hmove
      exact .single hmove
    · exact .single (.cancels id j hj (Or.inr hcan))
    · exact .refl

theorem attachWaiter_moves {g' : Inner} (h : g.attachWaiter id = .ok g') : Moves P (s.seen g t) (s.seen g' t) := by
  unfold Inner.attachWaiter at h
  split at h
  · cases h
  · rename_i j hj
    split_ifs at h
    cases h
    exact alter_moves hj ⟨j.cancelling, j.attached + 1, rfl, fun h => h, fun h => Or.inl h⟩

/-- A job enters the table of a lock section that has charged for it. -/
theorem accept_moves {g₀ : Inner} (job : Job) (hfresh : job.Fresh (s.seen g t)) (hview : s.seen g₀ t = { s.seen g t with
      reserved := g.reserved + job.reserved
      inflight := if job.kind = .store then g.inflightStore.insert job.key job.id else g.inflightStore }) :
    Moves P (s.seen g t) (s.seen (g₀.accept job) t) := by
  have haccept : s.seen (g₀.accept job) t = ({ s.seen g₀ t with
      next := (s.seen g₀ t).next + 1
      jobs := (s.seen g₀ t).jobs.insert job.id job }.note (.accepted job.id job.kind job.key)) := rfl
  rw [haccept, hview]
  exact .single (.accepts job hfresh)

theorem admits_of_gate {b : Bool} (h : g.gate b = .ok ()) : (s.seen g t).admits = true := by
  unfold Inner.gate at h
  split_ifs at h with hr hf
  simp only [not_or] at hf
  exact decide_eq_true ⟨hr, hf.2.1⟩

theorem submitStore_moves {header : ChunkHeader} {src : PinnedSource} {inc : Incarnation}
    (h : g.submitStore header src inc = .ok (id, g')) : Moves P (s.seen g t) (s.seen g' t) := by
  unfold Inner.submitStore at h
  obtain ⟨_, hgate, h⟩ := Result.bind_ok.1 h
  obtain ⟨_, -, h⟩ := Result.bind_ok.1 h
  obtain ⟨_, -, h⟩ := Result.bind_ok.1 h
  dsimp only at h
  split at h
  · cases h
    exact .refl
  · split at h
    · cases h
    · rename_i hbusy
      split at h
      · obtain ⟨_, -, h⟩ := Result.bind_ok.1 h
        cases h
        exact accept_moves _ ⟨rfl, ⟨rfl, rfl, rfl, rfl, rfl⟩, (nomatch ·), fun _ => rfl, (nomatch ·), admits_of_gate hgate⟩ rfl
      · rename_i hserv
        obtain ⟨_, -, h⟩ := Result.bind_ok.1 h
        generalize (if g.purgePending = true then (0, 0) else g.index.evictable) = ev at h
        split at h
        · cases h
        · cases h
          refine accept_moves _ ⟨rfl, ⟨rfl, rfl, rfl, rfl, rfl⟩, ?_, fun hk => absurd rfl hk, ?_, admits_of_gate hgate⟩ rfl
          · exact fun _ => ⟨header, src, rfl, rfl, rfl, rfl⟩
          · intro _ e he
            have hget : g.index.get header.chunkKey = some e := he
            simp only [not_or] at hbusy
            have hev : e.evicting = false := by simpa [hget] using hbusy.2
            refine ⟨hev, ?_⟩
            unfold Inner.serving at hserv
            simpa [hget, hev] using hserv

theorem submitLoad_moves {key : ChunkKey} {expect : ChunkHeader} {dst : PinnedDest} {inc : Incarnation}
    (h : g.submitLoad key expect dst inc = .ok (id, g')) : Moves P (s.seen g t) (s.seen g' t) := by
  unfold Inner.submitLoad at h
  obtain ⟨_, hgate, h⟩ := Result.bind_ok.1 h
  split at h
  · cases h
  · rename_i entry hentry
    split at h
    · cases h
    · obtain ⟨_, -, h⟩ := Result.bind_ok.1 h
      split at h
      · cases h
      · obtain ⟨_, -, h⟩ := Result.bind_ok.1 h
        cases h
        have hinc := busyInc_moves (P := P) (s := s) (g := g) (t := t) [key]
        refine hinc.trans (accept_moves (g := { g with index := [key].foldl (fun x k => (x.busyInc k).getD x) g.index }) _
          ⟨rfl, ⟨rfl, rfl, rfl, rfl, rfl⟩, (nomatch ·), fun _ => rfl, (nomatch ·), admits_of_gate hgate⟩ rfl)

theorem submitFlush_moves {inc : Incarnation} (h : g.submitFlush inc = .ok (id, g')) :
    Moves P (s.seen g t) (s.seen g' t) := by
  unfold Inner.submitFlush at h
  obtain ⟨_, hgate, h⟩ := Result.bind_ok.1 h
  obtain ⟨_, -, h⟩ := Result.bind_ok.1 h
  cases h
  exact accept_moves _ ⟨rfl, ⟨rfl, rfl, rfl, rfl, rfl⟩, (nomatch ·), fun _ => rfl, (nomatch ·), admits_of_gate hgate⟩ rfl

theorem pin_moves {keys : List ChunkKey} {n : Nat} (h : g.pin keys = .ok (n, g')) :
    Moves P (s.seen g t) (s.seen g' t) := by
  unfold Inner.pin at h
  split_ifs at h
  split at h
  · cases h
  · cases h
    exact busyInc_moves keys

theorem unpin_moves (token : Nat) : Moves P (s.seen g t) (s.seen (g.unpin token) t) := by
  unfold Inner.unpin
  split
  · exact .refl
  · exact busyDec_moves _

theorem orKeep_moves {α ε : Type} {f : α → Inner} {r : Except ε α}
    (h : ∀ a, r = .ok a → Moves P (s.seen g t) (s.seen (f a) t)) : Moves P (s.seen g t) (s.seen (orKeep g f r) t) := by
  cases r with
  | error e => exact .refl
  | ok a => exact h a rfl

theorem step_moves {a : Step} (hn : s.view.Named) (h : s.step P a = some s') : Moves P s.view s'.view := by
  cases a with
  | submitStore header src inc =>
    cases h
    exact orKeep_moves fun ⟨_, _⟩ hr => submitStore_moves hr
  | submitLoad key expect dst inc =>
    cases h
    exact orKeep_moves fun ⟨_, _⟩ hr => submitLoad_moves hr
  | submitFlush inc =>
    cases h
    exact orKeep_moves fun ⟨_, _⟩ hr => submitFlush_moves hr
  | attachWaiter id =>
    cases h
    exact orKeep_moves fun r hr => attachWaiter_moves hr
  | poll max =>
    cases h
    exact .refl
  | cancel id =>
    cases h
    exact cancel_moves id
  | pin keys =>
    cases h
    exact orKeep_moves fun ⟨_, _⟩ hr => pin_moves hr
  | unpin token =>
    cases h
    exact unpin_moves token
  | delete keys =>
    cases h
    exact delete_moves keys
  | startPurge =>
    cases h
    exact .refl
  | shutdown =>
    cases h
    exact closeIntake_moves hn
  | reap =>
    cases h
    exact reapCancels_moves hn
  | recover found =>
    unfold step at h
    dsimp only at h
    split_ifs at h with hno
    cases h
    simp only [not_or, Bool.not_eq_true] at hno
    exact recover_moves hno.1 hno.2.1 found
  | work a => exact work_moves hn h
  | reopen idOk unit =>
    cases h
    exact .single (.reopens idOk unit)

/-! ## Runs -/

theorem named_move {v v' : View} (hn : v.Named) (h : Move P v v') : v'.Named := by
  have herase : ∀ (id : JobId) (jobs : ExtTreeMap JobId Job), jobs = v.jobs.erase id →
      ∀ (id' : JobId) (j : Job), jobs[id']? = some j → j.id = id' := by
    intro id jobs hjobs id' j hj
    rw [hjobs, Table.get_erase] at hj
    split_ifs at hj
    exact hn id' j hj
  have hinsert : ∀ (id : JobId) (j : Job), j.id = id → ∀ (id' : JobId) (k : Job),
      (v.jobs.insert id j)[id']? = some k → k.id = id' := by
    intro id j hid id' k hk
    rw [Table.get_insert] at hk
    split_ifs at hk with he
    · obtain rfl := Option.some.inj hk
      exact hid.trans he
    · exact hn id' k hk
  cases h with
  | accepts j h => exact hinsert j.id j rfl
  | cancels id j hj hc => exact hinsert id _ (hn id j hj)
  | alters jobs F hget hF =>
    intro id j hj
    obtain ⟨k, hk, rfl⟩ := Option.map_eq_some_iff.1 ((hget id).symm.trans hj)
    obtain ⟨b, n, he, -⟩ := hF id k hk
    rw [he]
    exact hn id k hk
  | ends id j terminal durable t hj h => exact herase id _ (View.ended_jobs _ _ _ _ _ _)
  | crashes id j hj ht => exact herase id _ (View.gives_jobs _ _ _)
  | publishes id j key phys m e hj ht he => exact herase id _ (View.ended_jobs _ _ _ _ _ _)
  | publishesUnsynced id j key phys m e err hj ht he => exact herase id _ (View.ended_jobs _ _ _ _ _ _)
  | loses id j key e hj ht => exact herase id _ (View.ended_jobs _ _ _ _ _ _)
  | marks id j k x hj ht hc hk hx => exact hinsert id _ (hn id j hj)
  | enters id j j' t hj h =>
    refine hinsert id j' ?_
    have hid := hn id j hj
    cases h <;> exact hid
  | unlinks path chosenBy t h =>
    intro id j hj
    refine hn id j ?_
    have hjobs : (v.unlinkPath path chosenBy).jobs = v.jobs := by
      unfold View.unlinkPath
      split <;> rfl
    rw [← hjobs]
    exact hj
  | recovers v' hr h =>
    cases h with
    | unlinks path node hd hk =>
      intro id j hj
      refine hn id j ?_
      have hjobs : (v.unlinkPath path none).jobs = v.jobs := by
        unfold View.unlinkPath
        split <;> rfl
      rw [← hjobs]
      exact hj
    | _ => exact hn
  | reopens idOk unit =>
    intro id j hj
    have hnone : (∅ : ExtTreeMap JobId Job)[id]? = some j := hj
    simp at hnone
  | _ => exact hn

theorem run_moves {J : View → Prop} {steps : List Step} (hmove : ∀ v v', v.Named → J v → Move P v v' → J v')
    (hn : s.view.Named) (h0 : J s.view) (h : run P steps s = some s') : J s'.view := by
  have hchain : ∀ v v', v.Named → J v → Moves P v v' → J v' ∧ v'.Named := by
    intro v v' hn hj hm
    induction hm with
    | refl => exact ⟨hj, hn⟩
    | tail _ hmv ih => exact ⟨hmove _ _ ih.2 ih.1 hmv, named_move ih.2 hmv⟩
  refine (run_inv (J := fun s => J s.view ∧ s.view.Named) (C := fun _ _ => True) ?_ ⟨h0, hn⟩ ?_ h).1
  · rintro s a s' ⟨hj, hn⟩ - hs
    exact hchain _ _ hn hj (step_moves hn hs)
  · clear h h0 hn
    induction steps generalizing s with
    | nil => trivial
    | cons a steps ih => exact ⟨trivial, fun s' _ => ih⟩

end HostFsStore

end SovereignCore.HostFs
