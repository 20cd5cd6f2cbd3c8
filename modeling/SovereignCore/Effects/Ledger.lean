import SovereignCore.Effects.Journal
import SovereignCore.Lib.Table
import SovereignCore.Lib.Result

/-!
# The effect ledger

Grants, intents and their states as `effects.rs` rebuilds them from the host records of the journal. The reader is
strict: an unverified record, a gated record that does not parse, a second intent for one authorization or a settled
intent settled again refuse the whole ledger. JSON reading is the parameter `c`.

* `Grant`, `CommitRow`, `IntentRow` : what the records say;
* `Ledger.read` : one record; `Ledger.fromRecords` : the journal.
-/

namespace SovereignCore.Effects

open Std SovereignCore.Json

inductive EffectState
  | «open»
  | done
  | notDone
  | unresolved
  deriving DecidableEq, Repr

namespace EffectState

def name : EffectState → String
  | .open => "OPEN"
  | done => "DONE"
  | notDone => "NOT_DONE"
  | unresolved => "UNRESOLVED"

def parse : String → Option EffectState
  | "DONE" => some done
  | "NOT_DONE" => some notDone
  | "UNRESOLVED" => some unresolved
  | _ => none

def terminal : EffectState → Bool
  | done | notDone => true
  | _ => false

end EffectState

/-- A named refusal at the effect boundary. -/
structure Refusal where
  name : String
  detail : String
  deriving DecidableEq, Repr

def Refusal.display (r : Refusal) : String := s!"EFFECT_REFUSED {r.name}: {r.detail}"

def corrupt (id : UInt64) (why : String) : Refusal := ⟨"CorruptLedger", s!"host record #{id}: {why}"⟩

/-! ## Fields of a record's text -/

namespace Field

def quoted (k : String) : String := "\"" ++ k ++ "\""

def s (v : Value) (k : String) (id : UInt64) : Except Refusal String :=
  match (v.get k).bind Value.asStr with
  | some x => .ok x
  | none => .error (corrupt id s!"field {quoted k} missing or not a string")

def u (v : Value) (k : String) (id : UInt64) : Except Refusal UInt64 :=
  match (v.get k).bind Value.asU64 with
  | some x => .ok x
  | none => .error (corrupt id s!"field {quoted k} missing or not a number")

/-- Null is `some none`, a string `some (some _)`, a missing field `none`. -/
def optDigest (v : Value) (k : String) (id : UInt64) : Except Refusal (Option (Option String)) :=
  match v.get k with
  | none => .ok none
  | some .null => .ok (some none)
  | some (.str x) => .ok (some (some x))
  | some _ => .error (corrupt id s!"field {quoted k} is not a digest or null")

/-- A missing field is `none`; anything but a string is damaged state. -/
def optStr (v : Value) (k : String) (id : UInt64) : Except Refusal (Option String) :=
  match v.get k with
  | none => .ok none
  | some (.str x) => .ok (some x)
  | some _ => .error (corrupt id s!"field {quoted k} is not a string")

section Rules

variable {v : Value} {k x : String} {n id : UInt64}

theorem s_ok (h : v.get k = some (.str x)) : s v k id = .ok x := by simp [s, h, Value.asStr]

theorem u_ok (h : v.get k = some (.num n)) : u v k id = .ok n := by simp [u, h, Value.asU64]

theorem optStr_none (h : v.get k = none) : optStr v k id = .ok none := by simp [optStr, h]

theorem optStr_some (h : v.get k = some (.str x)) : optStr v k id = .ok (some x) := by simp [optStr, h]

theorem optDigest_ok {o : Option String} (h : v.get k = some (.ofOption o)) : optDigest v k id = .ok (some o) := by
  cases o <;> simp [optDigest, h, Value.ofOption]

end Rules

end Field

/-! ## What the records say -/

/-- The objective a grant is bound to, as minted. -/
structure GrantObjective where
  id : String
  textSha256 : String
  recordSha256 : String
  deriving DecidableEq

structure ApprovalIdentity where
  traceId : String
  requestId : String
  approvalId : String
  approver : String
  path : String
  contentSha256 : String
  approvedProposalSha256 : String
  deskKeyId : String
  workspace : String
  deriving DecidableEq

/-- The replay claim and the commit evidence that an approved grant must be backed by. -/
structure ApprovedLink where
  approvalKey : String
  replayClaim : UInt64
  cxPromotion : UInt64
  cxEvidence : UInt64
  deriving DecidableEq

structure ApprovedGrant where
  link : ApprovedLink
  identity : ApprovalIdentity
  deriving DecidableEq

/-- The compose-commit record that a minted grant is backed by. -/
structure MintedGrant where
  commit : UInt64
  deriving DecidableEq

structure Grant where
  id : UInt64
  proposalSha256 : String
  path : String
  contentSha256 : String
  target : Option String
  /-- `some none`: authorized against an absent target. `none`: the grant names no prior state. -/
  priorSha256 : Option (Option String)
  workspace : Option String
  approved : Option ApprovedGrant
  minted : Option MintedGrant
  objective : Option GrantObjective
  links : List UInt64
  deriving DecidableEq

def Grant.honoured (g : Grant) : Bool := g.approved.isSome || g.minted.isSome

structure CommitRow where
  id : UInt64
  cxPromotion : UInt64
  cxEvidence : UInt64
  proposalSha256 : String
  path : String
  contentSha256 : String
  workspace : String
  goalSha256 : Option String
  deriving DecidableEq

structure IntentRow where
  id : UInt64
  authorization : UInt64
  path : String
  target : String
  contentSha256 : String
  priorSha256 : Option String
  executorPid : UInt32
  executorStart : UInt64
  state : EffectState
  /-- The record that set `state`, 0 while open. -/
  stateRecord : UInt64
  unresolvedDigest : Option (Option String)
  objectiveId : Option String
  deriving DecidableEq

/-- The effect ledger of one compose home. -/
structure Ledger where
  grants : ExtTreeMap UInt64 Grant := ∅
  approvedByClaim : ExtTreeMap UInt64 (List UInt64) := ∅
  commits : ExtTreeMap UInt64 CommitRow := ∅
  mintedByCommit : ExtTreeMap UInt64 (List UInt64) := ∅
  deskNonces : ExtTreeSet String := ∅
  intents : ExtTreeMap UInt64 IntentRow := ∅
  spent : ExtTreeMap UInt64 UInt64 := ∅
  legacySpent : ExtTreeMap UInt64 UInt64 := ∅
  revoked : ExtTreeMap UInt64 UInt64 := ∅
  stops : List UInt64 := []
  resumes : List UInt64 := []

/-! ## Authorization records -/

namespace Ledger

/-- `entry(k).or_default().push(x)`. -/
def push (m : ExtTreeMap UInt64 (List UInt64)) (k x : UInt64) : ExtTreeMap UInt64 (List UInt64) :=
  m.insert k ((m[k]?.getD []) ++ [x])

def readControl (l : Ledger) (id : UInt64) (v : Value) (control : Value) : Except Refusal Ledger :=
  match control.asStr with
  | some "stop" => .ok { l with stops := l.stops ++ [id] }
  | some "resume" => .ok { l with resumes := l.resumes ++ [id] }
  | some "revoke" => do
    let a ← Field.u v "authorization" id
    .ok { l with revoked := l.revoked.insertIfNew a id }
  | _ => .error (corrupt id "unknown control record")

def readObjective (v : Value) (id : UInt64) : Except Refusal (Option GrantObjective) := do
  match ← Field.optStr v "objective_id" id with
  | none => .ok none
  | some oid =>
    let text ← Field.s v "objective_text_sha256" id
    let record ← Field.s v "objective_record_sha256" id
    .ok (some ⟨oid, text, record⟩)

def readMinted (v : Value) (id : UInt64) : Except Refusal (Option MintedGrant) :=
  match v.get "minted_grant" with
  | none => .ok none
  | some _ => do
    let commit ← Field.u v "compose_commit" id
    .ok (some ⟨commit⟩)

def readApproved (v : Value) (id : UInt64) (path content : String) : Except Refusal (Option ApprovedGrant) :=
  match v.get "approved_grant" with
  | none => .ok none
  | some _ => do
    let key ← Field.s v "approval_key" id
    let claim ← Field.u v "replay_claim" id
    let promotion ← Field.u v "cx_promotion" id
    let evidence ← Field.u v "cx_evidence" id
    let trace ← Field.s v "trace_id" id
    let request ← Field.s v "request_id" id
    let approval ← Field.s v "approval_id" id
    let approver ← Field.s v "approver" id
    let proposal ← Field.s v "approved_proposal_sha256" id
    let desk ← Field.s v "desk_key_id" id
    let workspace ← Field.s v "workspace" id
    .ok (some ⟨⟨key, claim, promotion, evidence⟩,
      ⟨trace, request, approval, approver, path, content, proposal, desk, workspace⟩⟩)

def addGrant (l : Ledger) (g : Grant) (nonce : Option String) : Ledger :=
  { l with
    grants := l.grants.insert g.id g
    mintedByCommit := match g.minted with
      | none => l.mintedByCommit
      | some m => push l.mintedByCommit m.commit g.id
    deskNonces := match g.minted, nonce with
      | some _, some n => l.deskNonces.insert n
      | _, _ => l.deskNonces
    approvedByClaim := match g.approved with
      | none => l.approvedByClaim
      | some a => push l.approvedByClaim a.link.replayClaim g.id }

def readGrant (l : Ledger) (id : UInt64) (v : Value) (links : List UInt64) : Except Refusal Ledger :=
  match (v.get "proposal_sha256").bind Value.asStr, (v.get "path").bind Value.asStr,
      (v.get "content_sha256").bind Value.asStr with
  | some p, some path, some content => do
    let objective ← readObjective v id
    let prior ← Field.optDigest v "prior_sha256" id
    let minted ← readMinted v id
    let approved ← readApproved v id path content
    let grant : Grant := {
      id, proposalSha256 := p, path, contentSha256 := content, target := (v.get "target").bind Value.asStr,
      priorSha256 := prior, workspace := (v.get "workspace").bind Value.asStr, approved, minted, objective, links }
    .ok (l.addGrant grant ((v.get "desk_nonce").bind Value.asStr))
  | _, _, _ => .ok l

def readAuthorization (l : Ledger) (id : UInt64) (body : Option Value) (links : List UInt64) :
    Except Refusal Ledger :=
  match body with
  | none => .ok l
  | some v =>
    match v.get "control" with
    | some control => l.readControl id v control
    | none => l.readGrant id v links

/-! ## Effect records -/

def readCommit (v : Value) (id : UInt64) : Except Refusal CommitRow := do
  let promotion ← Field.u v "cx_promotion" id
  let evidence ← Field.u v "cx_evidence" id
  let proposal ← Field.s v "proposal_sha256" id
  let path ← Field.s v "path" id
  let content ← Field.s v "content_sha256" id
  let workspace ← Field.s v "workspace" id
  let goal ← Field.optStr v "goal_sha256" id
  .ok ⟨id, promotion, evidence, proposal, path, content, workspace, goal⟩

/-- An effect note without a phase: a `write_file` one spends its authorization. -/
def readLegacy (l : Ledger) (id : UInt64) (v : Value) : Ledger :=
  if (v.get "tool").bind Value.asStr = some "write_file" then
    match (v.get "authorization").bind Value.asU64 with
    | some a => { l with legacySpent := l.legacySpent.insertIfNew a id }
    | none => l
  else l

def readIntent (l : Ledger) (id : UInt64) (v : Value) : Except Refusal Ledger := do
  let a ← Field.u v "authorization" id
  if let some prev := l.spent[a]? then
    .error (corrupt id s!"second intent for authorization #{a} (first #{prev})")
  else
    let ex := (v.get "executor").getD .null
    let path ← Field.s v "path" id
    let target ← Field.s v "target" id
    let content ← Field.s v "content_sha256" id
    let prior ← Field.optDigest v "prior_sha256" id
    match prior with
    | none => .error (corrupt id "intent without prior_sha256")
    | some prior =>
      let pid ← Field.u ex "pid" id
      let start ← Field.u ex "start" id
      let objective ← Field.optStr v "objective_id" id
      let row : IntentRow := {
        id, authorization := a, path, target, contentSha256 := content, priorSha256 := prior,
        executorPid := pid.toUInt32, executorStart := start, state := .open, stateRecord := 0,
        unresolvedDigest := none, objectiveId := objective }
      .ok { l with spent := l.spent.insert a id, intents := l.intents.insert id row }

def readSettle (l : Ledger) (id : UInt64) (v : Value) : Except Refusal Ledger := do
  let i ← Field.u v "intent" id
  let name ← Field.s v "state" id
  match EffectState.parse name with
  | none => .error (corrupt id "unknown effect state")
  | some st =>
    let disk ← Field.optDigest v "disk_sha256" id
    match l.intents[i]? with
    | none => .error (corrupt id s!"names intent #{i}, which is not one")
    | some row =>
      if row.state.terminal then
        .error (corrupt id s!"intent #{i} already {row.state.name} by #{row.stateRecord}")
      else
        let row := { row with
          state := st
          stateRecord := id
          unresolvedDigest := if st = .unresolved then some (disk.getD none) else row.unresolvedDigest }
        .ok { l with intents := l.intents.insert i row }

def readEffect (l : Ledger) (id : UInt64) (body : Option Value) : Except Refusal Ledger :=
  match body with
  | none => .ok l
  | some v =>
    if (v.get "compose_commit").isSome then do
      let row ← readCommit v id
      .ok { l with commits := l.commits.insert id row }
    else
      match v.get "phase" with
      | none => .ok (l.readLegacy id v)
      | some phase =>
        match phase.asStr with
        | some "intent" => l.readIntent id v
        | some "ack" => l.readSettle id v
        | some "reconcile" => l.readSettle id v
        | _ => .error (corrupt id "unknown effect phase")

variable (c : Codec)

def read (l : Ledger) (r : RecordView) : Except Refusal Ledger :=
  if !r.verified then .error (corrupt r.id "digest does not verify")
  else
    match r.text with
    | none => .ok l
    | some text =>
      match r.note with
      | some "authorization" => l.readAuthorization r.id (c.parse text) r.links
      | some "effect" => l.readEffect r.id (c.parse text)
      | _ => .ok l

def fromRecords (host : List RecordView) : Except Refusal Ledger := host.foldlM (read c) {}

end Ledger

end SovereignCore.Effects
