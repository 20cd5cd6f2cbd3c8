import SovereignCore.Harness.Graph

/-!
# The data of the provisional scheduler

Task states and their transition table, resource permits, per-task timing, events, errors and the memory of applied
event ids, as `execution.rs`, `permits.rs`, `timing.rs`, `error.rs`, `dedup.rs` and the first half of `core.rs` have
them. Generations, times and beats are 64-bit words and wrap where the source adds to them without a check.

* `TaskState`, `checkTransition` : the state machine of one task;
* `PermitPool` : what the running tasks hold;
* `EventKind`, `JournalEntry` : what the scheduler can be told;
* `TaskEntry` : the scheduler's view of one task;
* `Seen` : which event ids are remembered, and until when.
-/

namespace SovereignCore.Harness

open Std

/-! ## Saturating arithmetic -/

def satAdd64 (a b : UInt64) : UInt64 := UInt64.ofNat (min (a.toNat + b.toNat) (2 ^ 64 - 1))

def satSub64 (a b : UInt64) : UInt64 := if b ≤ a then a - b else 0

def satAdd32 (a b : UInt32) : UInt32 := UInt32.ofNat (min (a.toNat + b.toNat) (2 ^ 32 - 1))

def satSub32 (a b : UInt32) : UInt32 := if b ≤ a then a - b else 0

/-! ## Task states -/

inductive TaskState where
  | blocked
  | provisional
  | awaitingFinalProof
  | committable
  | aborted
  | committing
  | committed
  | commitUncertain
  deriving DecidableEq, Repr

namespace TaskState

def asStr : TaskState → String
  | blocked => "blocked"
  | provisional => "provisional"
  | awaitingFinalProof => "awaiting_final_proof"
  | committable => "committable"
  | aborted => "aborted"
  | committing => "committing"
  | committed => "committed"
  | commitUncertain => "commit_uncertain"

def isCommitTerminal : TaskState → Bool
  | committed | commitUncertain => true
  | _ => false

def isFinal : TaskState → Bool
  | committable | committing | committed => true
  | _ => false

/-- States whose work or proof is built on upstream artifacts and must be revoked when upstream changes. -/
def isActive : TaskState → Bool
  | provisional | awaitingFinalProof | committable => true
  | _ => false

/-- Only a running task holds resource permits. -/
def holdsPermits (s : TaskState) : Bool := s = provisional

end TaskState

structure IllegalTransition where
  source : TaskState
  target : TaskState
  deriving DecidableEq, Repr

def checkTransition (source target : TaskState) : Except IllegalTransition Unit :=
  match source, target with
  | .blocked, .provisional
  | .provisional, .awaitingFinalProof
  | .awaitingFinalProof, .committable
  | .provisional, .blocked | .awaitingFinalProof, .blocked | .committable, .blocked
  | .blocked, .aborted | .provisional, .aborted | .awaitingFinalProof, .aborted | .committable, .aborted
  | .aborted, .blocked
  | .committable, .committing
  | .committing, .committed | .committing, .commitUncertain | .committing, .aborted => .ok ()
  | _, _ => .error { source, target }

/-! ## Permits -/

structure ResourceLimits where
  cpuSlots : UInt32 := 4
  memoryBytes : UInt64 := 8589934592
  maxConcurrency : UInt32 := 4
  deriving DecidableEq, Repr

/-- What one task needs while it runs. -/
structure ResourceRequest where
  cpuSlots : UInt32
  memoryBytes : UInt64
  deriving DecidableEq, Repr

def ResourceLimits.admits (l : ResourceLimits) (req : ResourceRequest) : Bool :=
  1 ≤ l.maxConcurrency && req.cpuSlots ≤ l.cpuSlots && req.memoryBytes ≤ l.memoryBytes

/-- Permits currently handed out. -/
structure PermitPool where
  cpuInUse : UInt32 := 0
  memoryInUse : UInt64 := 0
  running : UInt32 := 0
  deriving DecidableEq, Repr

namespace PermitPool

/-- Whether all permits for `req` are free. -/
def fits (p : PermitPool) (limits : ResourceLimits) (req : ResourceRequest) : Bool :=
  p.running < limits.maxConcurrency && satAdd32 p.cpuInUse req.cpuSlots ≤ limits.cpuSlots &&
    satAdd64 p.memoryInUse req.memoryBytes ≤ limits.memoryBytes

/-- Take all permits for `req`, or none. -/
def tryAcquire (p : PermitPool) (limits : ResourceLimits) (req : ResourceRequest) : Option PermitPool :=
  if p.fits limits req then
    some { running := p.running + 1
           cpuInUse := p.cpuInUse + req.cpuSlots
           memoryInUse := p.memoryInUse + req.memoryBytes }
  else none

def release (p : PermitPool) (req : ResourceRequest) : PermitPool where
  running := satSub32 p.running 1
  cpuInUse := satSub32 p.cpuInUse req.cpuSlots
  memoryInUse := satSub64 p.memoryInUse req.memoryBytes

end PermitPool

/-! ## Configuration -/

structure ProvisionalConfig where
  enabled : Bool := false
  queueCapacity : Nat := 64
  limits : ResourceLimits := {}
  leaseTtl : UInt64 := 300000000000
  dedupWindow : Nat := 4096
  deriving DecidableEq, Repr

/-! ## Timing -/

structure TaskTiming where
  /-- Ticks spent `blocked` (including waiting in the ready queue). -/
  blocked : UInt64 := 0
  /-- Ticks spent `provisional` (running, holding permits). -/
  provisional : UInt64 := 0
  /-- Ticks spent `awaitingFinalProof`. -/
  awaitingFinalProof : UInt64 := 0
  registeredAt : UInt64 := 0
  firstDispatchAt : Option UInt64 := none
  committableAt : Option UInt64 := none
  dispatches : UInt32 := 0
  revocations : UInt32 := 0
  since : UInt64 := 0
  deriving DecidableEq, Repr

namespace TaskTiming

def new (now : UInt64) : TaskTiming := { registeredAt := now, since := now }

/-- Charge the time since the last transition to `state`. -/
def close (t : TaskTiming) (state : TaskState) (now : UInt64) : TaskTiming :=
  let spent := satSub64 now t.since
  match state with
  | .blocked => { t with blocked := t.blocked + spent, since := now }
  | .provisional => { t with provisional := t.provisional + spent, since := now }
  | .awaitingFinalProof => { t with awaitingFinalProof := t.awaitingFinalProof + spent, since := now }
  | _ => { t with since := now }

end TaskTiming

/-! ## Proof pointers -/

/-- Proof pointer carried by events: which harness receipt, for which source commit and artifact digest. -/
structure ProofClaim where
  receiptId : String
  commit : String
  digest : String
  deriving DecidableEq, Repr

/-- Closed set of operation classes a scheduled task may ask to run. -/
inductive OperationClass where
  | readOnlyAnalysis
  | sandboxedCheck
  | commit
  | publish
  | persistentMutation
  | externalEffect
  deriving DecidableEq, Repr

namespace OperationClass

def asStr : OperationClass → String
  | readOnlyAnalysis => "read_only_analysis"
  | sandboxedCheck => "sandboxed_check"
  | commit => "commit"
  | publish => "publish"
  | persistentMutation => "persistent_mutation"
  | externalEffect => "external_effect"

end OperationClass

/-- How far a producer's output may be trusted by its consumers. -/
inductive ReadinessLevel where
  | interfaceVerified
  | finalVerified
  | revoked
  deriving DecidableEq, Repr

/-! ## Errors -/

/-- A refusal of the completion store. The scheduler uses its text only. -/
structure CompletionError where
  message : String
  deriving DecidableEq, Repr

inductive SchedError where
  | invalidEvent (message : String)
  | unknownTask (task : String)
  | graph (error : GraphError)
  | exceedsCapacity (task : String)
  | staleGeneration (task : String) (submitted current : UInt64)
  | futureGeneration (task : String) (submitted current : UInt64)
  | wrongState (task : String) (state : TaskState) (action : String)
  | transition (error : IllegalTransition)
  | leaseExpired (task : String)
  | staleHeartbeat (task : String) (beat last : UInt64)
  | eventIdConflict (id : String)
  | notPermitted (task : String) (op : OperationClass) (producer : String) (level : ReadinessLevel)
  /-- The consumer has no binding to the producer, or one for an older generation. -/
  | staleBinding (task producer detail : String)
  | producerNotFinal (producer detail : String)
  | proof (task : String) (error : CompletionError)
  | journal (message : String)
  /-- The event would reach the `committing` task, or start a second commit in its chain. -/
  | commitInProgress (task committing : String)
  | bindingsFull (task : String) (capacity : Nat)
  deriving DecidableEq, Repr

/-- `InvalidEvent` with the given text. -/
def bad (m : String) : SchedError := .invalidEvent m

/-! ## Identifiers -/

/-- The Unicode `White_Space` property, which `str::trim` strips. -/
def isWhiteSpace (ch : Char) : Bool :=
  let n := ch.toNat
  (9 ≤ n && n ≤ 13) || n == 0x20 || n == 0x85 || n == 0xa0 || n == 0x1680 || (0x2000 ≤ n && n ≤ 0x200a) ||
    n == 0x2028 || n == 0x2029 || n == 0x202f || n == 0x205f || n == 0x3000

/-- The Unicode category `Cc`, `char::is_control`. -/
def isControl (ch : Char) : Bool := ch.toNat < 0x20 || (0x7f ≤ ch.toNat && ch.toNat < 0xa0)

def maxTaskIdLen : Nat := 256

/-- Non-empty, no white space at either end, at most `maxTaskIdLen` bytes, no control characters. -/
def checkIdentifier (what value : String) : Except String Unit :=
  if value.toList = [] ∨ value.toList.head?.any isWhiteSpace ∨ value.toList.getLast?.any isWhiteSpace then
    .error s!"invalid submission: {what} must be non-empty with no leading or trailing whitespace"
  else if maxTaskIdLen < value.utf8ByteSize ∨ value.toList.any isControl then
    .error s!"invalid submission: {what} must be at most {maxTaskIdLen} bytes with no control characters"
  else .ok ()

/-! ## Events -/

/-- How a commit ended. -/
inductive CommitResult where
  /-- The commit succeeded: `committed`. -/
  | committed (detail : String)
  /-- The commit was refused before any durable effect: `aborted` (retryable); consumers are revoked. -/
  | failed (reason : String)
  /-- The outcome is unknown: `commitUncertain`, never run again; consumers are revoked. -/
  | uncertain (reason : String)
  deriving DecidableEq, Repr

structure Revocation where
  task : String
  reason : String
  deriving DecidableEq, Repr

/-- Everything the scheduler can be told. -/
inductive EventKind where
  | registerTask (task : String) (resources : ResourceRequest) (producers : List String)
  | addDependency (producer consumer : String)
  | interfacePublished (task : String) (generation : UInt64) (claim : ProofClaim)
  | completionVerified (task : String) (generation : UInt64) (claim : ProofClaim)
  | newGeneration (task : String) (generation : UInt64)
  | producerFailed (task : String) (generation : UInt64) (reason : String)
  | workDone (task : String) (generation : UInt64) (resultDigest : String)
  | finalize (task : String) (generation : UInt64)
  | heartbeat (task : String) (generation beat : UInt64)
  | cancel (task : String) (generation : UInt64)
  | retry (task : String) (generation : UInt64)
  | revoke (task : String) (generation : UInt64) (reason : String)
  | auditRevoke (revocations : List Revocation)
  | tick
  | beginCommit (task : String) (generation : UInt64) (completion : ProofClaim)
      (producers : ExtTreeMap String ProofClaim)
  | commitOutcome (task : String) (generation : UInt64) (outcome : CommitResult)
  | bindApproval (key task : String) (generation : UInt64)

/-- One delivered event. Duplicate delivery is detected by `id`. -/
structure Event where
  id : String
  kind : EventKind

/-- One journal line: the accepted event plus its sequence number and the time it was applied at. -/
structure JournalEntry where
  seq : Nat
  id : String
  now : UInt64
  kind : EventKind

/-! ## Task entries -/

/-- What a `beginCommit` froze. -/
structure CommitInputs where
  completion : ProofClaim
  producers : ExtTreeMap String ProofClaim
  beganAt : UInt64

inductive BindingLevel where
  | interface
  | final
  deriving DecidableEq, Repr

/-- Which producer artifact a consumer was dispatched against. -/
structure Binding where
  generation : UInt64
  level : BindingLevel
  claim : ProofClaim
  deriving DecidableEq, Repr

/-- Scheduler view of one task. -/
structure TaskEntry where
  state : TaskState
  generation : UInt64
  resources : ResourceRequest
  interface : Option ProofClaim
  completion : Option ProofClaim
  bindings : ExtTreeMap String Binding
  leaseExpiresAt : Option UInt64
  lastBeat : UInt64
  provisionalResult : Option String
  queued : Bool
  lastReason : Option String
  timing : TaskTiming
  /-- Set by `beginCommit`; kept after the outcome as the record of what the commit was checked against. -/
  commit : Option CommitInputs

namespace TaskEntry

def new (resources : ResourceRequest) (now : UInt64) : TaskEntry where
  state := .blocked
  generation := 1
  resources := resources
  interface := none
  completion := none
  bindings := ∅
  leaseExpiresAt := none
  lastBeat := 0
  provisionalResult := none
  queued := false
  lastReason := none
  timing := TaskTiming.new now
  commit := none

/-- Final for consumers: `committable`, `committing` or `committed` with an accepted completion. -/
def finalReady (t : TaskEntry) : Bool := t.state.isFinal && t.completion.isSome

def interfaceReady (t : TaskEntry) : Bool := t.state.isActive && t.interface.isSome

def leaseValid (t : TaskEntry) (now : UInt64) : Bool := t.leaseExpiresAt.any fun exp => now < exp

end TaskEntry

/-- One bound request: the task generation whose commit fence it must pass. -/
structure ApprovalBinding where
  task : String
  generation : UInt64
  deriving DecidableEq, Repr

def maxApprovalBindingsPerTask : Nat := 64

def maxApprovalKeyLen : Nat := 512

/-- A task in one of these states has run its commit, for good: it holds no request binding. -/
def bindingEnded (state : TaskState) : Bool := state.isCommitTerminal

/-- What applying an event did. -/
structure Effects where
  dispatched : List String := []
  revoked : List String := []
  aborted : List String := []
  deriving DecidableEq, Repr

/-! ## Remembered event ids -/

/-- Bounded memory of applied event ids, for idempotent redelivery. -/
structure Seen where
  ids : ExtTreeMap String String := ∅
  byTask : ExtTreeMap String (ExtTreeMap UInt64 (List String)) := ∅
  window : List String := []

def generationScope : EventKind → Option (String × UInt64)
  | .interfacePublished task generation _ | .completionVerified task generation _
  | .newGeneration task generation | .producerFailed task generation _
  | .workDone task generation _ | .finalize task generation
  | .cancel task generation | .retry task generation | .revoke task generation _
  | .beginCommit task generation _ _ | .commitOutcome task generation _
  | .bindApproval _ task generation => some (task, generation)
  | .registerTask .. | .addDependency .. | .heartbeat .. | .auditRevoke .. | .tick => none

namespace Seen

def forget (ids : ExtTreeMap String String) (old : List String) : ExtTreeMap String String :=
  old.foldl (fun ids id => ids.erase id) ids

def record (s : Seen) (id digest : String) (kind : EventKind) (window : Nat) : Seen :=
  let ids := s.ids.insert id digest
  match generationScope kind with
  | some (task, generation) =>
    let gens := s.byTask[task]?.getD ∅
    { s with ids, byTask := s.byTask.insert task (gens.insert generation (gens[generation]?.getD [] ++ [id])) }
  | none =>
    -- the oldest ids leave until the window is no longer than allowed
    let all := s.window ++ [id]
    let excess := all.length - window
    { s with ids := forget ids (all.take excess), window := all.drop excess }

/-- Forget generation-bound ids below each task's current generation. -/
def prune (s : Seen) (current : String → Option UInt64) : Seen where
  ids := s.byTask.toList.foldl (fun ids e => match current e.1 with
    | none => ids
    | some now => forget ids ((e.2.filter fun g _ => g < now).toList.flatMap (·.2))) s.ids
  byTask := (s.byTask.map fun task gens => match current task with
    | none => gens
    | some now => gens.filter fun g _ => ¬ g < now).filter fun _ gens => ¬ gens.isEmpty
  window := s.window

end Seen

end SovereignCore.Harness
