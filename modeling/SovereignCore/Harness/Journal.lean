import SovereignCore.Harness.Runs
import SovereignCore.Lib.Disk
import SovereignCore.Lib.Prog

/-!
# The journal of the scheduler

An append-only file of JSON lines: a header with the configuration, then one line for each event. Every call on the file
may fail, and the process may die in it.

* `Fault`, `Site` : what the calls on the file meet, in order;
* `LineCodec` : what is written and read as one line;
* `Journal.append` : an entry and its rollback;
* `Scheduler.deliver` : an event of the scheduler over its journal.
-/

namespace SovereignCore.Harness

open Prog Std

/-! ## Calls on the file -/

/-- A call works, fails, or the process dies in it. A write gets `done` of its bytes down in the last two cases; a cut
is made before the death if `done` is not zero. -/
inductive Fault where
  | none
  | fails (done : Nat)
  | dies (done : Nat)
  deriving DecidableEq, Repr

/-- The file and what is going to happen to the calls; past the end of the list they all work. -/
structure Site where
  disk : Disk
  faults : List Fault

/-- Why a journal is refused. -/
inductive Refusal where
  | config
  | heldByAnotherProcess
  | headerUnreadable
  | headerMismatch
  | corruptLine (line : Nat)
  | replay (seq : Nat) (error : SchedError)

/-- How a call ends without its value. -/
inductive Stop where
  | refused (refusal : Refusal)
  | io
  | died

namespace Site

def nextFault : Prog Site Stop Fault := do
  let s ← get
  set { s with faults := s.faults.tail }
  pure (s.faults.headD .none)

def onDisk (f : Disk → Disk) : Prog Site Stop Unit := modify fun s => { s with disk := f s.disk }

/-- `file.write_all(bytes)` -/
def writeAll (bytes : List UInt8) : Prog Site Stop Unit := do
  match ← nextFault with
  | .none => onDisk fun d => d.write bytes
  | .fails done => do
    onDisk fun d => d.write (bytes.take done)
    fail .io
  | .dies done => do
    onDisk fun d => d.write (bytes.take done)
    fail .died

/-- `file.sync_all()` -/
def syncAll : Prog Site Stop Unit := do
  match ← nextFault with
  | .none => onDisk Disk.sync
  | .fails _ => fail .io
  | .dies _ => fail .died

/-- `file.set_len(n)` -/
def setLen (n : Nat) : Prog Site Stop Unit := do
  match ← nextFault with
  | .none => onDisk fun d => d.setLen n
  | .fails _ => fail .io
  | .dies done => do
    if done = 0 then pure () else onDisk fun d => d.setLen n
    fail .died

/-- `x.is_ok()`; a process that died does not come back to ask. -/
def isOk (x : Prog Site Stop Unit) : Prog Site Stop Bool := fun s =>
  match x s with
  | .ok _ s' => .ok true s'
  | .err .io s' => .ok false s'
  | .err e s' => .err e s'
  | .panic => .panic

end Site

/-! ## Lines -/

/-- Values as lines of text. What is written has no control bytes and is read back; a text with a zero byte is not read. -/
structure LineCodec (α : Type) where
  encode : α → List UInt8
  decode : List UInt8 → Option α
  plain : ∀ a, ∀ b ∈ encode a, 32 ≤ b
  round : ∀ a, decode (encode a) = some a
  strict : ∀ l, 0 ∈ l → decode l = none

def LineCodec.line {α : Type} (codec : LineCodec α) (a : α) : List UInt8 := codec.encode a ++ [10]

structure Journal where
  len : Nat
  poisoned : Bool
  deriving DecidableEq, Repr

namespace Journal

open Site

variable {α : Type}

/-- One entry as a single line, synced; a failed one is cut off again. Whether it was taken, and the journal after it. -/
def append (codec : LineCodec α) (j : Journal) (entry : α) : Prog Site Stop (Bool × Journal) := do
  if j.poisoned then pure (false, j)
  else
    let line := codec.line entry
    if ← isOk (do writeAll line; syncAll) then pure (true, { j with len := j.len + line.length })
    else if ← isOk (do setLen j.len; syncAll) then pure (false, j)
    else pure (false, { j with poisoned := true })

end Journal

/-! ## The scheduler -/

def ProvisionalConfig.valid (c : ProvisionalConfig) : Bool :=
  c.queueCapacity ≠ 0 && c.leaseTtl ≠ 0 && c.limits.maxConcurrency ≠ 0 && c.dedupWindow ≠ 0

/-- A scheduler over a journal. `core` is what the events of the journal make; the clock starts at its last event. -/
structure Scheduler where
  cfg : ProvisionalConfig
  clockBase : UInt64
  clockOrigin : UInt64
  core : Core
  journal : Journal

/-- What the outcome of a delivered event is. -/
inductive Delivered where
  | applied (effects : Effects)
  | duplicate

def reservedIdStart : String := "spark-harness:"

def EventKind.isAuditRevoke : EventKind → Bool
  | .auditRevoke _ => true
  | _ => false

namespace Scheduler

variable (codec : LineCodec JournalEntry) (payloadDigest : EventKind → String)

def now (s : Scheduler) (clock : UInt64) : UInt64 :=
  max (satAdd64 s.clockBase (satSub64 clock s.clockOrigin)) s.core.lastAt

/-- The entry of a new event and the core after it, if the core takes it. -/
def prepare (s : Scheduler) (event : Event) (clock : UInt64) (proofs : Except SchedError Unit) :
    Except SchedError (Option (JournalEntry × Core × Effects)) := do
  match checkIdentifier "event id" event.id with
  | .error e => .error (.invalidEvent e)
  | .ok () =>
    match s.core.seen.ids[event.id]? with
    | some prev => if prev = payloadDigest event.kind then .ok none else .error (.eventIdConflict event.id)
    | none => do
      proofs
      let entry : JournalEntry := ⟨s.core.seq + 1, event.id, s.now clock, event.kind⟩
      let (core, fx) ← s.core.apply s.cfg payloadDigest entry
      return some (entry, core, fx)

/-- `deliver_unchecked`: `proofs` is what the store says of the event. The answer, and the scheduler after it. -/
def deliverUnchecked (s : Scheduler) (event : Event) (clock : UInt64) (proofs : Except SchedError Unit) :
    Prog Site Stop (Except SchedError Delivered × Scheduler) :=
  match s.prepare payloadDigest event clock proofs with
  | .error e => pure (.error e, s)
  | .ok none => pure (.ok .duplicate, s)
  | .ok (some (entry, core, fx)) => do
    let (taken, journal) ← s.journal.append codec entry
    if taken then pure (.ok (.applied fx), { s with core, journal })
    else pure (.error (.journal "journal append failed"), { s with journal })

/-- `deliver`: reserved ids and audit events are refused. -/
def deliver (s : Scheduler) (event : Event) (clock : UInt64) (proofs : Except SchedError Unit) :
    Prog Site Stop (Except SchedError Delivered × Scheduler) :=
  if event.id.startsWith reservedIdStart then
    pure (.error (.invalidEvent s!"event ids starting with '{reservedIdStart}' are reserved"), s)
  else if event.kind.isAuditRevoke then
    pure (.error (.invalidEvent "audit_revoke is emitted only by audit()"), s)
  else s.deliverUnchecked codec payloadDigest event clock proofs

end Scheduler

end SovereignCore.Harness
