import SovereignCore.Effects.Journal
import SovereignCore.Lib.Table
import SovereignCore.Lib.Result

/-!
# The replay ledger of approved proposals

Claims as `approved_replay.rs` rebuilds them from the journal, and the calls that write them. An approval is claimed
before anything runs; its three keys (approval key, request id, approval id) are each accepted at most once, and the
life of a claim is a small state machine whose every step is one host record.

* `ReplayLedger.read`, `ReplayLedger.fromRecords` : the strict reader;
* `claim`, `step`, `declare`, `reconcileAtStart` : the writers, each one locked call.
-/

namespace SovereignCore.Effects.Replay

open Std SovereignCore.Json

/-- The keys one submission claims. -/
structure ClaimKeys where
  approvalKey : String
  requestId : String
  approvalId : String
  traceId : String
  deriving DecidableEq, Repr

structure CommitEvidence where
  composeProposalSha256 : String
  cxPromotion : UInt64
  cxEvidence : UInt64
  task : UInt64
  deriving DecidableEq, Repr

/-- A named refusal, with the existing claim it is about. -/
structure Refusal where
  name : String
  detail : String
  claim : Option UInt64 := none
  evidence : Option CommitEvidence := none
  deriving DecidableEq

def Refusal.display (r : Refusal) : String := s!"REPLAY_REFUSED {r.name}: {r.detail}"

def ClaimKeys.keys (k : ClaimKeys) : List String :=
  ["key:" ++ k.approvalKey, "request:" ++ k.requestId, "approval:" ++ k.approvalId]

def lowerHex (c : Char) : Bool := c.isDigit || ('a' ≤ c && c ≤ 'f')

def ClaimKeys.check (k : ClaimKeys) : Except Refusal Unit :=
  if k.approvalKey.utf8ByteSize ≠ 64 ∨ ¬ k.approvalKey.toList.all lowerHex then
    .error { name := "BadKey", detail := "approval_key is not 64 lowercase hex" }
  else if k.requestId = "" ∨ k.approvalId = "" then
    .error { name := "BadKey", detail := "empty request_id or approval_id" }
  else .ok ()

inductive ClaimState
  | accepted
  | inFlight
  | committed
  | failed
  | notExecuted
  | uncertain
  deriving DecidableEq, Repr

namespace ClaimState

def name : ClaimState → String
  | accepted => "ACCEPTED"
  | inFlight => "IN_FLIGHT"
  | committed => "COMMITTED"
  | failed => "FAILED"
  | notExecuted => "NOT_EXECUTED"
  | uncertain => "UNCERTAIN"

def terminal : ClaimState → Bool
  | accepted | inFlight => false
  | _ => true

end ClaimState

/-- One claim as the ledger reads it. -/
structure ClaimRow where
  id : UInt64
  keys : ClaimKeys
  executorPid : UInt32
  executorStart : UInt64
  state : ClaimState
  /-- The record that set `state`, the claim itself while accepted. -/
  stateRecord : UInt64
  evidence : Option CommitEvidence
  reason : Option String
  declared : Option (UInt64 × String)
  deriving DecidableEq

structure ReplayLedger where
  claims : ExtTreeMap UInt64 ClaimRow := ∅
  index : ExtTreeMap String UInt64 := ∅

def corrupt (id : UInt64) (why : String) : Refusal := { name := "CorruptLedger", detail := s!"record #{id}: {why}" }

namespace Field

def s (v : Value) (k : String) (id : UInt64) : Except Refusal String :=
  match (v.get k).bind Value.asStr with
  | some x => .ok x
  | none => .error (corrupt id s!"missing {k}")

def u (v : Value) (k : String) (id : UInt64) : Except Refusal UInt64 :=
  match (v.get k).bind Value.asU64 with
  | some x => .ok x
  | none => .error (corrupt id s!"missing {k}")

end Field

def CommitEvidence.fromValue : Value → Option CommitEvidence
  | .obj fs => do
    let proposal ← (fs.lookup "compose_proposal_sha256").bind Value.asStr
    let promotion ← (fs.lookup "cx_promotion").bind Value.asU64
    let evidence ← (fs.lookup "cx_evidence").bind Value.asU64
    let task ← (fs.lookup "task").bind Value.asU64
    some ⟨proposal, promotion, evidence, task⟩
  | .arr [.str proposal, .num promotion, .num evidence, .num task] => some ⟨proposal, promotion, evidence, task⟩
  | _ => none

def CommitEvidence.toValue (e : CommitEvidence) : Value :=
  .obj [("compose_proposal_sha256", .str e.composeProposalSha256), ("cx_evidence", .num e.cxEvidence),
    ("cx_promotion", .num e.cxPromotion), ("task", .num e.task)]

/-! ## Reading the journal -/

namespace ReplayLedger

/-- `index.insert(k, id)`, refused when the key was claimed before. -/
def claimKey (id : UInt64) (index : ExtTreeMap String UInt64) (k : String) :
    Except Refusal (ExtTreeMap String UInt64) :=
  match index[k]? with
  | some prev => .error (corrupt id s!"{k} already claimed by #{prev}")
  | none => .ok (index.insert k id)

def readAccepted (l : ReplayLedger) (id : UInt64) (v : Value) : Except Refusal ReplayLedger := do
  let approvalKey ← Field.s v "approval_key" id
  let requestId ← Field.s v "request_id" id
  let approvalId ← Field.s v "approval_id" id
  let traceId ← Field.s v "trace_id" id
  let keys : ClaimKeys := ⟨approvalKey, requestId, approvalId, traceId⟩
  let index ← keys.keys.foldlM (claimKey id) l.index
  let ex := (v.get "executor").getD .null
  let pid ← Field.u ex "pid" id
  let start ← Field.u ex "start" id
  let row : ClaimRow := {
    id, keys, executorPid := pid.toUInt32, executorStart := start, state := .accepted, stateRecord := id,
    evidence := none, reason := none, declared := none }
  .ok { claims := l.claims.insert id row, index }

/-- The state after a record of this phase, where the phase is one that changes it. -/
def next (phase : String) (st : ClaimState) : Option ClaimState :=
  match phase, st with
  | "in_flight", .accepted => some .inFlight
  | "committed", .inFlight => some .committed
  | "failed", .inFlight => some .failed
  | "uncertain", .inFlight => some .uncertain
  | "not_executed", .accepted => some .notExecuted
  | _, _ => none

def readDeclared (row : ClaimRow) (id c : UInt64) (v : Value) : Except Refusal ClaimRow :=
  if row.declared.isSome then .error (corrupt id s!"claim #{c} declared twice")
  else do
    let d ← Field.s v "declared" id
    if d ≠ "committed" ∧ d ≠ "not_committed" then
      .error (corrupt id "declared is neither committed nor not_committed")
    else .ok { row with declared := some (id, d) }

def readEvidence (row : ClaimRow) (id : UInt64) (st : ClaimState) (v : Value) :
    Except Refusal (Option CommitEvidence) :=
  if st = .committed then
    match CommitEvidence.fromValue ((v.get "evidence").getD .null) with
    | some e => .ok (some e)
    | none => .error (corrupt id "evidence")
  else .ok row.evidence

def readPhase (row : ClaimRow) (id c : UInt64) (phase : String) (v : Value) : Except Refusal ClaimRow :=
  if phase = "declared" ∧ row.state = .uncertain then readDeclared row id c v
  else
    match next phase row.state with
    | none => .error (corrupt id s!"{phase} after {row.state.name} on claim #{c}")
    | some st => do
      let evidence ← readEvidence row id st v
      .ok { row with
        state := st
        stateRecord := id
        evidence := evidence
        reason := (v.get "reason").bind Value.asStr }

def readValue (l : ReplayLedger) (id : UInt64) (phase : String) (v : Value) : Except Refusal ReplayLedger :=
  if phase = "accepted" then l.readAccepted id v
  else do
    let c ← Field.u v "claim" id
    match l.claims[c]? with
    | none => .error (corrupt id s!"names claim #{c}, which is not one")
    | some row =>
      let row ← readPhase row id c phase v
      .ok { l with claims := l.claims.insert c row }

/-- A replay record is an effect note with the marker field; every other record is passed over. -/
def readEffect (l : ReplayLedger) (id : UInt64) (body : Option Value) : Except Refusal ReplayLedger :=
  match body.bind fun v => (v.get "approved_submission").map fun p => (v, p) with
  | none => .ok l
  | some (v, phase) =>
    match phase.asStr with
    | none => .error (corrupt id "phase is not a string")
    | some phase => l.readValue id phase v

variable (c : Codec)

def read (l : ReplayLedger) (r : RecordView) : Except Refusal ReplayLedger :=
  if !r.verified then .error (corrupt r.id "digest does not verify")
  else if r.note ≠ some "effect" then .ok l
  else
    match r.text with
    | none => .ok l
    | some text => l.readEffect r.id (c.parse text)

def fromRecords (host : List RecordView) : Except Refusal ReplayLedger := host.foldlM (read c) {}

def find (l : ReplayLedger) (keys : ClaimKeys) : Option ClaimRow :=
  (keys.keys.findSome? fun k => l.index[k]?).bind fun id => l.claims[id]?

/-- Why a new claim on `keys` is refused; `alive` tells whether the claiming process still runs. -/
def check (l : ReplayLedger) (alive : UInt32 → UInt64 → Bool) (keys : ClaimKeys) : Option Refusal :=
  match l.find keys with
  | none => none
  | some row =>
    let (name, what) :=
      match row.state with
      | .committed => ("AlreadyCommitted", "committed; the original result is attached")
      | .failed => ("AlreadyFailed", "ran and did not commit; a new approval is needed")
      | .notExecuted => ("AlreadyConsumed", "claimed, never ran; a new approval is needed")
      | .uncertain => ("Uncertain", "may have committed; an operator must reconcile it, it is never re-run")
      | .accepted =>
        if alive row.executorPid row.executorStart then ("InFlight", s!"{row.state.name} in a running process")
        else ("AlreadyConsumed", "claimed by a process that is gone, never ran; a new approval is needed")
      | .inFlight =>
        if alive row.executorPid row.executorStart then ("InFlight", s!"{row.state.name} in a running process")
        else ("Uncertain",
          "in flight in a process that is gone; an operator must reconcile it, it is never re-run")
    let keys := row.keys
    some {
      name := name
      detail := s!"claim #{row.id} (request {keys.requestId}, approval {keys.approvalId}, key {keys.approvalKey}) is {row.state.name}: {what}"
      claim := some row.id
      evidence := row.evidence }

end ReplayLedger

/-! ## The calls -/

section Calls

variable (c : Codec) (d : Disk)

/-- A call under the home lock; a lock, open or mark failure is a refusal. -/
def locked {α : Type} (J : List RecordView) (f : List RecordView → List RecordView × Except Refusal α) :
    List RecordView × Except Refusal α :=
  match d.opens with
  | some why => (J, .error { name := "Journal", detail := why })
  | none =>
    match f J, d.mark with
    | (J', .ok a), none => (J', .ok a)
    | (J', .error e), _ => (J', .error e)
    | (J', .ok _), some why =>
      let why := s!"record mark update failed after the operation (E_MARK_WRITE): {why}"
      (J', .error { name := "Journal", detail := why })

def ledger (J : List RecordView) : Except Refusal ReplayLedger :=
  match d.recalls with
  | some why => .error { name := "Journal", detail := s!"host records: {why}" }
  | none =>
    if hostRecallMax < J.length then
      .error {
        name := "CorruptLedger"
        detail := s!"{J.length} host records exceed the replay ledger's {hostRecallMax}" }
    else ReplayLedger.fromRecords c J

/-- The `i`th append of the call. -/
def appendRecord (i : Nat) (J : List RecordView) (link : UInt64) (text : Value) :
    List RecordView × Except Refusal UInt64 :=
  match append J .effect [link] (c.print text) (d.note i) with
  | (J', .ok id) => (J', .ok id)
  | (J', .error why) => (J', .error { name := "Journal", detail := s!"replay record: {why}" })

/-- What a call writes once its checks have passed: one record, or a refusal and no record. -/
def record (J : List RecordView) (decide : ReplayLedger → Except Refusal (UInt64 × Value)) :
    List RecordView × Except Refusal UInt64 :=
  match ledger c d J with
  | .error e => (J, .error e)
  | .ok l =>
    match decide l with
    | .error e => (J, .error e)
    | .ok (link, text) => appendRecord c d 0 J link text

/-- A running process: its pid and its start ticks, 0 when they cannot be read. -/
structure Executor where
  pid : UInt32
  start : UInt64
  deriving DecidableEq, Repr

def acceptedText (keys : ClaimKeys) (me : Executor) : Value :=
  .obj [("approved_submission", .str "accepted"), ("approval_key", .str keys.approvalKey),
    ("request_id", .str keys.requestId), ("approval_id", .str keys.approvalId), ("trace_id", .str keys.traceId),
    ("executor", .obj [("pid", .num me.pid.toUInt64), ("start", .num me.start)])]

/-- Claim `keys` for one execution. The answer is the claim's record. -/
def claim (alive : UInt32 → UInt64 → Bool) (me : Executor) (keys : ClaimKeys) (J : List RecordView) :
    List RecordView × Except Refusal UInt64 :=
  match keys.check with
  | .error e => (J, .error e)
  | .ok () =>
    locked d J fun J => record c d J fun l =>
      match l.check alive keys with
      | some r => .error r
      | none =>
        if me.start = 0 then .error { name := "Executor", detail := "cannot read this process's start ticks" }
        else .ok (0, acceptedText keys me)

/-- One lifecycle record, after checking that the claim is ours and in `source`. -/
def step (me : Executor) (id : UInt64) (source : ClaimState) (text : Value) (J : List RecordView) :
    List RecordView × Except Refusal UInt64 :=
  locked d J fun J => record c d J fun l =>
    match l.claims[id]? with
    | none => .error { name := "NoClaim", detail := s!"#{id} is not a claim" }
    | some row =>
      if (row.executorPid, row.executorStart) ≠ (me.pid, me.start) then
        .error { name := "NotOwner", detail := s!"claim #{id} belongs to another process" }
      else if row.state ≠ source then
        .error { name := "WrongState", detail := s!"claim #{id} is {row.state.name}, expected {source.name}" }
      else .ok (id, text)

def phaseText (phase : String) (id : UInt64) (more : List (String × Value)) : Value :=
  .obj (("approved_submission", .str phase) :: ("claim", .num id) :: more)

def markInFlight (me : Executor) (id : UInt64) (J : List RecordView) : List RecordView × Except Refusal UInt64 :=
  step c d me id .accepted (phaseText "in_flight" id []) J

def commit (me : Executor) (id : UInt64) (e : CommitEvidence) (J : List RecordView) :
    List RecordView × Except Refusal UInt64 :=
  step c d me id .inFlight (phaseText "committed" id [("evidence", e.toValue)]) J

def fail (me : Executor) (id : UInt64) (reason : String) (J : List RecordView) :
    List RecordView × Except Refusal UInt64 :=
  step c d me id .inFlight (phaseText "failed" id [("reason", .str reason)]) J

def notExecuted (me : Executor) (id : UInt64) (reason : String) (J : List RecordView) :
    List RecordView × Except Refusal UInt64 :=
  step c d me id .accepted (phaseText "not_executed" id [("reason", .str reason)]) J

def uncertain (me : Executor) (id : UInt64) (reason : String) (J : List RecordView) :
    List RecordView × Except Refusal UInt64 :=
  step c d me id .inFlight (phaseText "uncertain" id [("reason", .str reason)]) J

def declaredName (committed : Bool) : String := if committed then "committed" else "not_committed"

/-- An operator settles an uncertain claim after looking at the world. -/
def declare (id : UInt64) (committed : Bool) (by_ note : String) (J : List RecordView) :
    List RecordView × Except Refusal UInt64 :=
  locked d J fun J => record c d J fun l =>
    match l.claims[id]? with
    | none => .error { name := "NoClaim", detail := s!"#{id} is not a claim" }
    | some row =>
      if row.state ≠ .uncertain ∨ row.declared.isSome then
        let declared := row.declared.isSome
        .error { name := "WrongState", detail := s!"claim #{id} is {row.state.name} (declared: {declared})" }
      else
        .ok (id, phaseText "declared" id
          [("declared", .str (declaredName committed)), ("by", .str by_), ("note", .str note)])

def settleText (row : ClaimRow) : Value :=
  let (phase, why) :=
    if row.state = .accepted then
      ("not_executed", "claiming process gone before the run started (reconcile@start)")
    else ("uncertain", "claiming process gone while in flight (reconcile@start)")
  phaseText phase row.id [("reason", .str why), ("by", .str "reconcile@start")]

/-- The loop of `reconcileAtStart` over the claims of the ledger it read; `i` counts its appends. -/
def settleAll (alive : UInt32 → UInt64 → Bool) :
    List ClaimRow → Nat → List RecordView → List RecordView × Except Refusal Unit
  | [], _, J => (J, .ok ())
  | row :: rows, i, J =>
    if row.state.terminal || alive row.executorPid row.executorStart then settleAll alive rows i J
    else
      match appendRecord c d i J row.id (settleText row) with
      | (J', .error e) => (J', .error e)
      | (J', .ok _) => settleAll alive rows (i + 1) J'

/-- Daemon start: settle every claim whose process is gone. Nothing is run again. -/
def reconcileAtStart (alive : UInt32 → UInt64 → Bool) (J : List RecordView) : List RecordView × Except Refusal Unit :=
  locked d J fun J =>
    match ledger c d J with
    | .error e => (J, .error e)
    | .ok l => settleAll c d alive (Table.values l.claims) 0 J

end Calls

end SovereignCore.Effects.Replay
