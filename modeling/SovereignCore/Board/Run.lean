import SovereignCore.Lib.Talk
import SovereignCore.Evidence.Ledger

/-!
# The board of proof runs

Many processes call `run`: it looks up the stamp, joins an identical run in flight, or takes the lock of the key and
executes the job. `run` is a program over the files, locks, clock and child processes that it shares with the others;
between two of its requests the others go on. The hash function and the fingerprint of a job are left open.

* `Job.resourceNames`, `validResource`, `acquireResources`, `run` : the functions of the board;
* `Files` : what the processes share, with notes of what happened that no process reads;
* `serve`, `board` : how a request is answered, and the processes at work.
-/

namespace SovereignCore.Board

open Text Hex Evidence Talk

/-- The settings of one process. -/
structure Board where
  cpuSlots : Nat
  minFreeBytes : Nat
  memWait : Nat

structure Job where
  name : String
  agent : String
  base : String
  inputs : List String
  cmd : List String
  gpu : Bool
  resources : List String
  toolchain : String

/-- Every exclusive key this job needs, including `gpu` when set. -/
def Job.resourceNames (job : Job) : List String :=
  sortedUnique (if job.gpu then job.resources ++ ["gpu"] else job.resources)

def validResource (name : String) : Bool :=
  name ≠ "" && (utf8 name).length ≤ 64 &&
    (utf8 name).all fun b => (97 ≤ b && b ≤ 122) || (48 ≤ b && b ≤ 57) || b = 45

structure Record where
  key : String
  job : String
  agent : String
  cmd : List String
  exitCode : Int
  durationMs : Nat
  finishedAt : Nat
  ledgerIndex : UInt64
  ledgerHash : String

inductive Outcome where
  | stamped (record : Record)
  | joined (record : Record)
  | ran (record : Record)

inductive RunError where
  | emptyCommand
  | invalidResource (name : String)

/-- The two kinds of record files. -/
inductive Kind where
  | stamps
  | fails
  deriving DecidableEq

/-- The lock files: of a key, of a CPU slot, of an exclusive resource. -/
inductive LockPath where
  | key (key : String)
  | cpu (slot : Nat)
  | resource (name : String)
  deriving DecidableEq

inductive Ask where
  | jobKey (job : Job)
  | readRecord (kind : Kind) (key : String)
  | writeRecord (kind : Kind) (record : Record)
  | tryAcquire (path : LockPath)
  | acquire (path : LockPath)
  | release (path : LockPath)
  | now
  | cpuSlot (slots : Nat)
  | waitForMemory (minFreeBytes memWait : Nat)
  | spawn (key : String) (cmd : List String) (base : String)
  | wait (key : String)
  | readLog (key : String)
  | append (agent target intent : String) (payload : List UInt8)

/-- A child that ended: its exit code and the time it took. -/
abbrev Exit := Int × Nat

abbrev Answer : Ask → Type
  | .jobKey _ => String
  | .readRecord _ _ => Option Record
  | .writeRecord _ _ => Unit
  | .tryAcquire _ => Bool
  | .acquire _ => Unit
  | .release _ => Unit
  | .now => Nat
  | .cpuSlot _ => Nat
  | .waitForMemory _ _ => Unit
  | .spawn _ _ _ => Unit
  | .wait _ => Exit
  | .readLog _ => List UInt8
  | .append _ _ _ _ => LedgerEvent

abbrev Prog (α : Type) := Talk Ask Answer α

def ask (q : Ask) : Prog (Answer q) := request q

def acquireResource (name : String) : Prog Unit := do
  match ← ask (.tryAcquire (.resource name)) with
  | true => pure ()
  | false => ask (.acquire (.resource name))

def releaseResources : List String → Prog Unit
  | [] => pure ()
  | name :: names => do
    ask (.release (.resource name))
    releaseResources names

/-- The loop of `acquireResources`, with the keys it holds already. -/
def acquireNames (held : List String) : List String → Prog (Except RunError (List String))
  | [] => pure (.ok held)
  | name :: names =>
    if validResource name then do
      acquireResource name
      acquireNames (held ++ [name]) names
    else do
      releaseResources held
      pure (.error (.invalidResource name))

def acquireResources (names : List String) : Prog (Except RunError (List String)) := acquireNames [] (sortedUnique names)

/-- The lock of the key is taken; the record of the run that was joined, if there was one. -/
def joinOrLock (key : String) : Prog (Option Record) := do
  match ← ask (.tryAcquire (.key key)) with
  | true => pure none
  | false => do
    let waitedFrom ← ask .now
    ask (.acquire (.key key))
    match ← ask (.readRecord .stamps key) with
    | some record => pure (some record)
    | none =>
      match ← ask (.readRecord .fails key) with
      | some record => if waitedFrom ≤ record.finishedAt then pure (some record) else pure none
      | none => pure none

/-- The real run: the child, the ledger, and the record of either kind. -/
def perform (job : Job) (key : String) : Prog Record := do
  ask (.spawn key job.cmd job.base)
  let exit ← ask (.wait key)
  let payload ← ask (.readLog key)
  let verdict := if exit.1 = 0 then "pass" else "fail"
  let event ← ask (.append job.agent job.name (verdict ++ " exit=" ++ toString exit.1 ++ " key=" ++ key) payload)
  let finishedAt ← ask .now
  let record : Record :=
    { key := key
      job := job.name
      agent := job.agent
      cmd := job.cmd
      exitCode := exit.1
      durationMs := exit.2
      finishedAt := finishedAt
      ledgerIndex := event.index
      ledgerHash := hexText event.hash.toList }
  ask (.writeRecord (if exit.1 = 0 then .stamps else .fails) record)
  pure record

/-- What `run` does while it holds the lock of the key; its guards are dropped last taken, first dropped. -/
def runLocked (b : Board) (job : Job) (key : String) : Prog (Except RunError Outcome) := do
  match ← ask (.readRecord .stamps key) with
  | some record => do
    ask (.release (.key key))
    pure (.ok (.stamped record))
  | none => do
    let slot ← ask (.cpuSlot (max b.cpuSlots 1))
    ask (.waitForMemory b.minFreeBytes b.memWait)
    match ← acquireResources job.resourceNames with
    | .error e => do
      ask (.release (.cpu slot))
      ask (.release (.key key))
      pure (.error e)
    | .ok names => do
      let record ← perform job key
      releaseResources names
      ask (.release (.cpu slot))
      ask (.release (.key key))
      pure (.ok (.ran record))

def run (b : Board) (job : Job) : Prog (Except RunError Outcome) :=
  if job.cmd = [] then pure (.error .emptyCommand) else do
    let key ← ask (.jobKey job)
    match ← ask (.readRecord .stamps key) with
    | some record => pure (.ok (.stamped record))
    | none => do
      match ← joinOrLock key with
      | some record => do
        ask (.release (.key key))
        pure (.ok (.joined record))
      | none => runLocked b job key

/-- What the processes share. Processes are known by the order in which they called `run`. The last fields are notes of
what happened: no request reads them. -/
structure Files where
  records : Kind → String → Option Record
  locks : LockPath → Option Nat
  logs : String → List UInt8
  ledger : List LedgerEvent
  clock : Nat
  running : List (Nat × String)
  ended : List (String × Int)
  /-- The requests that have called `run`. -/
  arrived : List Nat
  keys : Nat → Option String
  written : List (Nat × Record)
  /-- Who gave the lock of its key back, with the requests that had arrived by then. -/
  returned : List (Nat × List Nat)

def Files.empty (clock : Nat) : Files where
  records := fun _ _ => none
  locks := fun _ => none
  logs := fun _ => []
  ledger := []
  clock := clock
  running := []
  ended := []
  arrived := []
  keys := fun _ => none
  written := []
  returned := []

/-- What a request meets: the fingerprint of the job's inputs, the slot that is free, how the child ends, and the
seconds that pass before the next request of any process. -/
structure Luck where
  key : String := ""
  slot : Nat := 0
  exitCode : Int := 0
  durationMs : Nat := 0
  output : List UInt8 := []
  seconds : Nat := 0

namespace Files

variable (s : Files)

def take (path : LockPath) (i : Nat) : Files := { s with locks := Function.update s.locks path (some i) }

def drop (path : LockPath) (i : Nat) : Files :=
  { s with
    locks := Function.update s.locks path none
    returned := match path with
      | .key _ => (i, s.arrived) :: s.returned
      | _ => s.returned }

def write (kind : Kind) (record : Record) (i : Nat) : Files :=
  { s with
    records := Function.update s.records kind (Function.update (s.records kind) record.key (some record))
    written := (i, record) :: s.written }

def start (key : String) (i : Nat) : Files :=
  { s with
    running := (i, key) :: s.running
    logs := Function.update s.logs key [] }

def finish (key : String) (i : Nat) (luck : Luck) : Files :=
  { s with
    running := s.running.erase (i, key)
    ended := (key, luck.exitCode) :: s.ended
    logs := Function.update s.logs key luck.output }

def wait (seconds : Nat) : Files := { s with clock := s.clock + seconds }

end Files

variable (blake : List UInt8 → Digest)

/-- The answer to a request and the files after it. A lock file is held by one process at a time. -/
def act (i : Nat) : (q : Ask) → Luck → Files → Option (Answer q × Files)
  | .jobKey _, luck, s => some (luck.key, { s with keys := Function.update s.keys i (some luck.key) })
  | .readRecord kind key, _, s => some (s.records kind key, s)
  | .writeRecord kind record, _, s => some ((), s.write kind record i)
  | .tryAcquire path, _, s =>
    match s.locks path with
    | none => some (true, s.take path i)
    | some _ => some (false, s)
  | .acquire path, _, s =>
    match s.locks path with
    | none => some ((), s.take path i)
    | some _ => none
  | .release path, _, s => some ((), s.drop path i)
  | .now, _, s => some (s.clock, s)
  | .cpuSlot slots, luck, s =>
    if luck.slot < slots ∧ s.locks (.cpu luck.slot) = none then some (luck.slot, s.take (.cpu luck.slot) i) else none
  | .waitForMemory _ _, _, s => some ((), s)
  | .spawn key _ _, _, s => some ((), s.start key i)
  | .wait key, luck, s => some ((luck.exitCode, luck.durationMs), s.finish key i luck)
  | .readLog key, _, s => some (s.logs key, s)
  | .append agent target intent payload, _, s =>
    let event := nextEvent blake s.ledger.getLast? ⟨"test", agent, target, intent, payload, UInt64.ofNat s.clock⟩
    some (event, { s with ledger := s.ledger ++ [event] })

def serve (i : Nat) (q : Ask) (luck : Luck) (s : Files) : Option (Answer q × Files) :=
  (act blake i q luck s).map fun r => (r.1, r.2.wait luck.seconds)

/-- The processes at work. The kernel releases the locks of one that dies. -/
def board : Server Ask Answer (Except RunError Outcome) Files (Board × Job) Luck where
  program := fun call => run call.1 call.2
  enter := fun i s => { s with arrived := i :: s.arrived }
  serve := serve blake
  leave := fun i s => { s with locks := fun path => if s.locks path = some i then none else s.locks path }

abbrev State := Pool Ask Answer (Except RunError Outcome) Files (Board × Job)

abbrev Step := Move (Board × Job) Luck

/-- Nobody has called `run` yet. -/
def State.start (clock : Nat) : State := ⟨Files.empty clock, []⟩

end SovereignCore.Board
