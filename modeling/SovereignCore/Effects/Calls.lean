import SovereignCore.Effects.Notes

/-!
# The effect commands

`authorize`, `open_intent`, `ack`, `reconcile` and `control` of `effects.rs`, with the writers of the records they rest
on (`write_compose_commit`, `write_approved_grant`). Every command is one locked call: it rebuilds the ledger from the
journal, decides, and appends. What it sees of the world (the target file, the workspace, the objective record, the
desk key, running processes) is its argument `w`, so the world may change in any way between two calls.

* `Ledger.checkIntent` : the effect boundary;
* `authorizeRecord`, `intentRecord`, `ackRecord`, `controlRecord` : the decision of a command and the record it writes;
* `authorize`, `openIntent`, `ack`, `control`, `reconcile` : the commands.
-/

namespace SovereignCore.Effects

open Std SovereignCore.Json

/-! ## What a call sees of the world -/

/-- An objective record as one read of it found it. -/
structure Seen where
  objectiveId : String
  textSha256 : String
  recordSha256 : String

structure AuthorizeBinding where
  cxPromotion : UInt64
  proposalSha256 : String
  path : String
  contentSha256 : String
  workspace : String
  approver : String
  constraints : List UInt64
  nonce : String
  deskKeyId : String

/-- The approval desk's key: its id, and the check of a MAC over a binding. -/
structure DeskKey where
  id : String
  verifyAuthorize : AuthorizeBinding → String → Except String Unit

structure World where
  /-- `open_confined` of workspace, path and target, and the digest read through the handle. -/
  openConfined : String → String → String → Except Refusal (Except String (Option String))
  fileSha256 : String → Except String (Option String)
  canonicalize : String → Except String String
  /-- `objective::check` of an id against the digest of a text; a refusal has a name and a detail. -/
  objective : String → String → Except (String × String) Seen
  executorAlive : UInt32 → UInt64 → Bool
  desk : Option (Except String DeskKey)
  reconcileFailed : Option String

/-! ## Paths -/

namespace Path

/-- `Path::join`, shown: an absolute second path replaces the first. -/
def join (base path : String) : String :=
  if path.toList.head? = some '/' then path
  else if base = "" ∨ base.toList.getLast? = some '/' then base ++ path
  else base ++ "/" ++ path

/-- The components that path equality compares: the root, then the names; a `.` counts only at the start. -/
def components (p : String) : Bool × List (List Char) :=
  let names := p.toList.splitOn '/'
  (p.toList.head? = some '/', (names.take 1 ++ (names.drop 1).filter (· ≠ ['.'])).filter (· ≠ []))

def same (p q : String) : Bool := components p = components q

end Path

/-- The Unicode `White_Space` property. -/
def whiteSpace (c : Char) : Bool :=
  let n := c.toNat
  (9 ≤ n && n ≤ 13) || n = 0x20 || n = 0x85 || n = 0xA0 || n = 0x1680 || (0x2000 ≤ n && n ≤ 0x200A) || n = 0x2028 ||
    n = 0x2029 || n = 0x202F || n = 0x205F || n = 0x3000

def trim (s : String) : String :=
  String.ofList ((s.toList.dropWhile whiteSpace).reverse.dropWhile whiteSpace).reverse

/-! ## Provenance, copied along the daemon's own chain -/

structure Provenance where
  generationRecord : Option UInt64 := none
  allenAgent : String := "none"
  staleGeneration : Option UInt64 := none
  note : Option String := none

namespace Provenance

def addNote (p : Provenance) (n : String) : Provenance :=
  match p.note with
  | some x => if (x.splitOn "; ").any (· = n) then p else { p with note := some (x ++ "; " ++ n) }
  | none => { p with note := some n }

def numOrNull : Option UInt64 → Value
  | some g => .num g
  | none => .null

def toJson (p : Provenance) : Value :=
  .obj ([("allen_agent", .str p.allenAgent), ("generation_record", numOrNull p.generationRecord)] ++
    (p.staleGeneration.toList.map fun g => ("generation_record_stale", .num g)) ++
    (p.note.toList.map fun n => ("provenance_note", .str n)))

def lowerHex64 (a : String) : Bool :=
  a.utf8ByteSize = 64 && a.toList.all fun ch => ch.isDigit || ('a' ≤ ch && ch ≤ 'f')

/-- Lenient read of a record's text: damaged evidence is the default and a note, never an error. -/
def fromText (c : Codec) (text : String) : Provenance :=
  match (c.parse text).bind fun v => v.get "provenance" with
  | none => {}
  | some p =>
    if !p.isObject then ({} : Provenance).addNote "provenance_malformed"
    else
      let out : Provenance := match (p.get "allen_agent").bind Value.asStr with
        | some a =>
          if a = "none" || lowerHex64 a then { allenAgent := a } else ({} : Provenance).addNote "allen_agent_malformed"
        | none => ({} : Provenance).addNote "allen_agent_malformed"
      let out := { out with
        generationRecord := (p.get "generation_record").bind Value.asU64
        staleGeneration := (p.get "generation_record_stale").bind Value.asU64 }
      match (p.get "provenance_note").bind Value.asStr with
      | none => out
      | some n =>
        let n := String.ofList ((n.toList.filter fun ch => 32 ≤ ch.toNat && ch.toNat ≤ 126).take 200)
        ((n.splitOn "; ").filter (· ≠ "")).foldl addNote out

end Provenance

/-- The record is a verified generation record: its marker is 1 and it links nothing. -/
def generationExists (c : Codec) (views : List RecordView) (id : UInt64) : Bool :=
  views.any fun r => r.id = id && r.verified && r.note = some "effect" && r.links.all (· = 0) &&
    ((r.text.bind c.parse).bind fun v => (v.get "generation").bind Value.asU64) = some 1

/-- The provenance to copy from the record `source` onto the next record of the chain. -/
def inherit (c : Codec) (views : List RecordView) (source : UInt64) : Provenance :=
  let p := match (views.find? fun r => r.id = source).bind RecordView.text with
    | some t => Provenance.fromText c t
    | none => {}
  match p.generationRecord with
  | none => p
  | some g =>
    if generationExists c views g then p
    else { p with generationRecord := none, staleGeneration := some g }.addNote "generation_record_stale"

def stamp (c : Codec) (text : Value) (views : List RecordView) (source : UInt64) : Value :=
  text.set "provenance" (inherit c views source).toJson

/-! ## The effect boundary -/

/-- What an executor asks for before it touches the world. -/
structure IntentRequest where
  authorization : UInt64
  proposalSha256 : String
  path : String
  target : String
  contentSha256 : String
  executorPid : UInt32
  executorStart : UInt64

namespace Ledger

def stopped (l : Ledger) : Option UInt64 :=
  match l.stops.getLast? with
  | none => none
  | some stop =>
    match l.resumes.getLast? with
    | some r => if stop < r then none else some stop
    | none => some stop

def intentOf (l : Ledger) (a : UInt64) : Option IntentRow := l.spent[a]?.bind fun i => l.intents[i]?

def digestName (o : Option String) : String := o.getD "absent"

/-- Every check of the effect boundary; `current` is the target's digest now. -/
def checkIntent (l : Ledger) (req : IntentRequest) (current : Option String) : Except Refusal Grant :=
  let a := req.authorization
  match l.stopped with
  | some stop => .error ⟨"Stopped", s!"operator stop #{stop} is in force; resume needs an authorized operator"⟩
  | none =>
  match l.grants[a]? with
  | none => .error ⟨"NotAuthorized", s!"cortex.cx#{a} is not a verified authorization"⟩
  | some g =>
  if !g.honoured then
    .error ⟨"NotAuthorized", s!"authorization #{a} is a caller-written note; the daemon honours only grants it minted itself (sovereign-core #261): run aien compose authorize"⟩
  else if g.proposalSha256 ≠ req.proposalSha256 ∨ g.path ≠ req.path ∨ g.contentSha256 ≠ req.contentSha256 then
    .error ⟨"NotAuthorized", s!"authorization #{a} names a different proposal"⟩
  else
  match l.intentOf a with
  | some row =>
    if row.state.terminal then
      .error ⟨"AlreadySpent", s!"authorization #{a} was spent by intent #{row.id} ({row.state.name}); a new effect needs a new authorization"⟩
    else
      .error ⟨"ReconciliationRequired", s!"intent #{row.id} for authorization #{a} is {row.state.name}; run aien compose reconcile"⟩
  | none =>
  match l.legacySpent[a]? with
  | some e => .error ⟨"AlreadySpent", s!"authorization #{a} was spent by effect #{e} (NEXT-PHASE-1 record)"⟩
  | none =>
  match l.revoked[a]? with
  | some r => .error ⟨"Revoked", s!"authorization #{a} revoked by #{r}"⟩
  | none =>
  match l.stops.reverse.find? fun x => a < x with
  | some stop => .error ⟨"Stale", s!"authorization #{a} predates operator stop #{stop}"⟩
  | none =>
  match g.target, g.priorSha256 with
  | some target, some prior =>
    if target ≠ req.target then
      .error ⟨"NotAuthorized", s!"authorization #{a} names target {target}, not {req.target}"⟩
    else if prior ≠ current then
      .error ⟨"Stale", s!"target changed since authorization #{a} (authorized against {digestName prior}, now {digestName current})"⟩
    else .ok g
  | _, _ => .error ⟨"Stale", s!"authorization #{a} names no target state (written before effect intents)"⟩

def unsettled (l : Ledger) : List IntentRow := (Table.values l.intents).filter fun r => !r.state.terminal

end Ledger

/-- The world check on an intent: the content's digest is done, the prior digest is not done. -/
def stateFrom (row : IntentRow) (now : Except String (Option String)) :
    EffectState × Except String (Option String) :=
  let st := match now with
    | .ok seen =>
      if seen = some row.contentSha256 then .done else if seen = row.priorSha256 then .notDone else .unresolved
    | .error _ => .unresolved
  (st, now)

def outsideOf (r : Refusal) : Refusal :=
  if r.name = "NotRegular" ∨ r.name = "MissingParent" ∨ r.name = "Unreadable" then ⟨"OutsideWorkspace", r.detail⟩ else r

/-- The world check, confined to the workspace of the intent's grant. -/
def confinedWorldState (w : World) (l : Ledger) (row : IntentRow) : EffectState × Except String (Option String) :=
  match l.grants[row.authorization]? with
  | none =>
    (.unresolved, .error s!"NotDaemonMinted: authorization #{row.authorization} was not minted by the daemon (sovereign-core #261)")
  | some g =>
    if !g.honoured then
      (.unresolved, .error s!"NotDaemonMinted: authorization #{row.authorization} was not minted by the daemon (sovereign-core #261)")
    else
      match g.workspace with
      | none => (.unresolved, .error s!"OutsideWorkspace: authorization #{row.authorization} names no workspace")
      | some ws =>
        match w.openConfined ws row.path row.target with
        | .error r =>
          if r.name = "Unreadable" then (.unresolved, .error r.detail)
          else (.unresolved, .error ((outsideOf r).name ++ ": " ++ (outsideOf r).detail))
        | .ok sha => stateFrom row sha

/-! ## The journal under the lock -/

section Home

variable (c : Codec) (d : Disk)

def hostViews (J : List RecordView) : Except String (List RecordView) :=
  match d.recalls with
  | some why => .error s!"effect ledger: host records: {why}"
  | none =>
    if hostRecallMax < J.length then
      .error (Refusal.mk "CorruptLedger" s!"{J.length} host records exceed the ledger's {hostRecallMax}").display
    else .ok J

def ledger (J : List RecordView) : Except String Ledger := do
  let views ← hostViews d J
  (Ledger.fromRecords c views).mapError Refusal.display

/-- The `i`th append of a call: at most four links, zeros dropped. -/
def appendEffect (i : Nat) (J : List RecordView) (kind : NoteKind) (links : List UInt64) (text : Value) :
    List RecordView × Except String UInt64 :=
  match append J kind (links.filter (· ≠ 0)) (c.print text) (d.note i) with
  | (J', .ok id) => (J', .ok id)
  | (J', .error why) => (J', .error s!"effect record: {why}")

def command (J : List RecordView) (kind : NoteKind)
    (decide : List RecordView → Except String (List UInt64 × Value)) : List RecordView × Except String UInt64 :=
  withHome d J fun J =>
    match decide J with
    | .error e => (J, .error e)
    | .ok (links, text) => appendEffect c d 0 J kind links text

end Home

/-- Effect commands refuse while the start-up reconcile has not succeeded. -/
def reconcileGate (w : World) : Except String Unit :=
  match w.reconcileFailed with
  | none => .ok ()
  | some why =>
    .error (Refusal.mk "ReconcileFailed" s!"the start-up reconcile did not complete ({why}); run aien compose reconcile").display

/-! ## Grants -/

structure MintRequest where
  cxPromotion : UInt64
  proposalSha256 : String
  workspace : String
  approver : String
  constraints : List UInt64

structure DeskProof where
  nonce : String
  mac : String

def no (name why : String) : String := (Refusal.mk name why).display

def validNonce (nonce : String) : Bool :=
  nonce ≠ "" && decide (nonce.utf8ByteSize ≤ 128) &&
    nonce.toList.all fun ch => ch.isAlphanum || ch = '-' || ch = '_' || ch = '.'

/-- The desk key and the proof to check, when the bridge requires the desk's MAC. -/
def deskOf (w : World) (proof : Option DeskProof) : Except String (Option (DeskKey × DeskProof)) :=
  match w.desk with
  | none => .ok none
  | some key =>
    match proof with
    | none => .error (no "DeskMacRequired" "this daemon requires the approval desk MAC on ComposeAuthorize (AIEN_COMPOSE_AUTHORIZE_REQUIRES_DESK=1); none was supplied")
    | some p =>
      if !validNonce p.nonce then .error (no "DeskMacInvalid" "nonce must be 1 to 128 of [A-Za-z0-9._-]")
      else
        match key with
        | .error e => .error (no "NoDesk" e)
        | .ok key => .ok (some (key, p))

/-- The MAC must cover exactly the daemon's own commit record, and its nonce must be new. -/
def deskCheck (l : Ledger) (row : CommitRow) (req : MintRequest) :
    Option (DeskKey × DeskProof) → Except String Unit
  | none => .ok ()
  | some (key, p) =>
    let binding : AuthorizeBinding := {
      cxPromotion := row.cxPromotion, proposalSha256 := row.proposalSha256, path := row.path,
      contentSha256 := row.contentSha256, workspace := row.workspace, approver := trim req.approver,
      constraints := req.constraints, nonce := p.nonce, deskKeyId := key.id }
    match key.verifyAuthorize binding p.mac with
    | .error e => .error (no "DeskMacInvalid" e)
    | .ok () =>
      if p.nonce ∈ l.deskNonces then
        .error (no "Replayed" s!"authorize nonce {p.nonce} already minted a grant; a replayed authorize mints nothing")
      else .ok ()

/-- Does the older grant `gid` of the commit still stand in the way of a new one? The spent intent is judged first:
a revoke or a stop never undoes an effect. -/
def siblingCheck (l : Ledger) (prior : Option String) (gid : UInt64) : Except String Unit :=
  let dead := gid ∈ l.revoked ∨ ∃ s ∈ l.stops, gid < s
  match l.intentOf gid with
  | none =>
    if dead then .ok ()
    else if (l.grants[gid]?.bind Grant.priorSha256) ≠ some prior then .ok () -- stale
    else .error (no "AlreadyAuthorized" s!"grant #{gid} for this proposal is still live; revoke it first")
  | some row =>
    if row.state = .done then
      .error (no "AlreadySpent" s!"grant #{gid} for this proposal settled DONE (intent #{row.id}); one committed proposal gives at most one effect, new content needs a new compose")
    else if row.state.terminal then .ok ()
    else
      .error (no "ReconciliationRequired" s!"intent #{row.id} for grant #{gid} is {row.state.name}; run aien compose reconcile")

def objectiveOf (w : World) (row : CommitRow) : Option String → Except String (Option Seen)
  | none => .ok none
  | some oid =>
    match row.goalSha256 with
    | none => .error (no "ObjectiveMismatch" s!"compose-commit #{row.id} names no goal digest (written before sovereign-core #408); objective {oid} cannot be bound to it")
    | some goal =>
      match w.objective oid goal with
      | .error (n, detail) => .error (no n detail)
      | .ok seen => .ok (some seen)

/-- The one compose-commit record that names the promotion and the proposal. -/
def commitOf (l : Ledger) (req : MintRequest) : Option CommitRow :=
  match (Table.values l.commits).filter fun r => r.cxPromotion = req.cxPromotion ∧ r.proposalSha256 = req.proposalSha256 with
  | [row] => some row
  | _ => none

def mintedText (row : CommitRow) (approver target : String) (prior : Option String)
    (desk : Option (DeskKey × DeskProof)) (objective : Option Seen) : Value :=
  let text : Value := .obj [("minted_grant", .num 1), ("compose_commit", .num row.id),
    ("proposal_sha256", .str row.proposalSha256), ("path", .str row.path), ("content_sha256", .str row.contentSha256),
    ("approver", .str (trim approver)), ("target", .str target), ("workspace", .str row.workspace),
    ("prior_sha256", .ofOption prior), ("cx_promotion", .num row.cxPromotion), ("cx_evidence", .num row.cxEvidence)]
  let text := match desk with
    | none => text
    | some (key, p) => (text.set "desk_nonce" (.str p.nonce)).set "desk_key_id" (.str key.id)
  match objective with
  | none => text
  | some o =>
    ((text.set "objective_id" (.str o.objectiveId)).set "objective_text_sha256" (.str o.textSha256)).set
      "objective_record_sha256" (.str o.recordSha256)

def authorizeRecord (c : Codec) (d : Disk) (w : World) (req : MintRequest) (proof : Option DeskProof)
    (objectiveId : Option String) (J : List RecordView) : Except String (List UInt64 × Value) := do
  if trim req.approver = "" then .error (no "NotAuthorized" "ComposeAuthorize needs an approver")
  else if 3 < req.constraints.length then .error (no "NotAuthorized" "at most 3 constraint links")
  else
    let desk ← deskOf w proof
    let views ← hostViews d J
    let l ← (Ledger.fromRecords c views).mapError Refusal.display
    match commitOf l req with
    | none => .error (no "NotAuthorized" s!"no compose-commit record names promotion #{req.cxPromotion} and this proposal: only a proposal this daemon committed (aien compose propose) can be authorized")
    | some row =>
      let ws ← (w.canonicalize req.workspace).mapError fun e => no "OutsideWorkspace" s!"workspace {req.workspace}: {e}"
      if ws ≠ row.workspace then
        .error (no "OutsideWorkspace" s!"the proposal was committed for workspace {row.workspace}, not {ws}")
      else
        let target := Path.join row.workspace row.path
        let held ← (w.openConfined row.workspace row.path target).mapError fun r => (outsideOf r).display
        deskCheck l row req desk
        let prior ← held
        (l.mintedByCommit[row.id]?.getD []).forM (siblingCheck l prior)
        let objective ← objectiveOf w row objectiveId
        let text := mintedText row req.approver target prior desk objective
        .ok (row.id :: req.constraints, stamp c text views row.id)

/-- ComposeAuthorize: mint the one grant for a proposal this daemon committed. -/
def authorize (c : Codec) (d : Disk) (w : World) (req : MintRequest) (proof : Option DeskProof)
    (objectiveId : Option String) (J : List RecordView) : List RecordView × Except String UInt64 :=
  match reconcileGate w with
  | .error e => (J, .error e)
  | .ok () => command c d J .authorization (authorizeRecord c d w req proof objectiveId)

def checkMintedBacking (l : Ledger) (g : Grant) : Except Refusal Unit :=
  match g.minted with
  | none => .ok ()
  | some m =>
    match l.commits[m.commit]? with
    | none => .error ⟨"NotAuthorized", s!"minted grant #{g.id} is not backed by a committed compose: no such compose-commit record"⟩
    | some row =>
      let bound := Path.join row.workspace row.path
      if row.proposalSha256 ≠ g.proposalSha256 ∨ row.path ≠ g.path ∨ row.contentSha256 ≠ g.contentSha256 ∨
          g.workspace ≠ some row.workspace ∨ ¬ (g.target.any fun t => Path.same t bound) ∨ m.commit ∉ g.links then
        .error ⟨"NotAuthorized", s!"minted grant #{g.id} is not backed by a committed compose: grant fields differ from the committed proposal"⟩
      else .ok ()

/-- An approved grant must be backed by its COMMITTED replay claim. `approvalKey` is the digest of a bound identity. -/
def checkApprovedBacking (c : Codec) (approvalKey : ApprovalIdentity → String) (l : Ledger) (g : Grant)
    (host : List RecordView) : Except Refusal Unit :=
  match g.approved with
  | none => .ok ()
  | some ag =>
    let a := ag.link
    let id := ag.identity
    let refuse (why : String) : Except Refusal Unit :=
      .error ⟨"NotAuthorized", s!"approved grant #{g.id} is not backed by a committed approved compose: {why}"⟩
    if (l.approvedByClaim[a.replayClaim]?.map List.length) ≠ some 1 then
      refuse "more than one approved grant names this replay claim"
    else if approvalKey id ≠ a.approvalKey ∨
        ¬ (g.target.any fun t => Path.same t (Path.join id.workspace id.path)) ∨ g.workspace ≠ some id.workspace then
      refuse "grant fields are not the bound approval"
    else
      match Replay.ReplayLedger.fromRecords c host with
      | .error r => refuse r.display
      | .ok rl =>
        match rl.claims[a.replayClaim]? with
        | none => refuse "no such replay claim"
        | some row =>
          if row.state ≠ .committed ∨ row.keys.approvalKey ≠ a.approvalKey ∨
              (row.keys.requestId, row.keys.approvalId, row.keys.traceId) ≠ (id.requestId, id.approvalId, id.traceId) ∨
              (row.evidence.map fun e => (e.composeProposalSha256, e.cxPromotion, e.cxEvidence)) ≠
                some (g.proposalSha256, a.cxPromotion, a.cxEvidence) ∨
              ¬ ([a.cxPromotion, a.cxEvidence, a.replayClaim].all fun x => x ∈ g.links) then
            refuse "claim state, key, evidence or links differ"
          else .ok ()

/-! ## Intents -/

/-- What `open_intent` learned about the target before the grant checks. -/
inductive IntentRead
  | prior (p : Option String)
  | stale (e : String)
  | missingParent (e : String)
  | outside (e : String)

def intentPrior (w : World) (l : Ledger) (req : IntentRequest) : IntentRead :=
  let stale (e : String) : IntentRead := .stale (no "Stale" s!"target unreadable: {e}")
  let read (sha : Except String (Option String)) : IntentRead :=
    match sha with
    | .ok p => .prior p
    | .error e => stale e
  match l.grants[req.authorization]?.bind Grant.workspace with
  | none => read (w.fileSha256 req.target)
  | some ws =>
    match w.openConfined ws req.path req.target with
    | .ok sha => read sha
    | .error r =>
      if r.name = "NotRegular" ∨ r.name = "Unreadable" then stale r.detail
      else if r.name = "MissingParent" then .missingParent (outsideOf r).display
      else .outside r.display

/-- The digest the grant checks compare with, and a confinement refusal held back until they ran. -/
def intentCurrent (w : World) (l : Ledger) (req : IntentRequest) : Except String (Option String × Option String) :=
  match intentPrior w l req with
  | .prior p => .ok (p, none)
  | .stale e => .error e
  | .missingParent e => .ok (none, some e)
  | .outside e => .ok ((l.grants[req.authorization]?.bind fun g => g.priorSha256.join), some e)

def intentText (req : IntentRequest) (g : Grant) (current : Option String) : Value :=
  let text : Value := .obj [("phase", .str "intent"), ("tool", .str "write_file"), ("authorization", .num g.id),
    ("proposal_sha256", .str req.proposalSha256), ("path", .str req.path), ("target", .str req.target),
    ("content_sha256", .str req.contentSha256), ("prior_sha256", .ofOption current),
    ("executor", .obj [("pid", .num req.executorPid.toUInt64), ("start", .num req.executorStart)])]
  match g.objective with
  | none => text
  | some o => (text.set "objective_id" (.str o.id)).set "objective_text_sha256" (.str o.textSha256)

def objectiveStands (w : World) (g : Grant) : Except String Unit :=
  match g.objective with
  | none => .ok ()
  | some o =>
    match w.objective o.id o.textSha256 with
    | .error (n, detail) => .error (no n s!"authorization #{g.id} is bound to objective {o.id}: {detail}")
    | .ok _ => .ok ()

def intentRecord (c : Codec) (approvalKey : ApprovalIdentity → String) (d : Disk) (w : World) (req : IntentRequest)
    (J : List RecordView) : Except String (List UInt64 × Value) := do
  let views ← hostViews d J
  let l ← (Ledger.fromRecords c views).mapError Refusal.display
  let (current, deferred) ← intentCurrent w l req
  let g ← (l.checkIntent req current).mapError Refusal.display
  if g.workspace = none then .error (no "NotAuthorized" s!"authorization #{g.id} names no workspace")
  else
    match deferred with
    | some e => .error e
    | none =>
      (checkApprovedBacking c approvalKey l g views).mapError Refusal.display
      (checkMintedBacking l g).mapError Refusal.display
      objectiveStands w g
      .ok ([g.id], stamp c (intentText req g current) views g.id)

/-- ComposeEffectIntent: every check and the durable intent in one step. -/
def openIntent (c : Codec) (approvalKey : ApprovalIdentity → String) (d : Disk) (w : World) (req : IntentRequest)
    (J : List RecordView) : List RecordView × Except String UInt64 :=
  match reconcileGate w with
  | .error e => (J, .error e)
  | .ok () => command c d J .effect (intentRecord c approvalKey d w req)

/-! ## Settling -/

/-- The digest seen, and the error seen, as an ack or a reconcile record says them. -/
def diskHex : Except String (Option String) → Option String
  | .ok seen => seen
  | .error _ => none

def diskError : Except String (Option String) → Option String
  | .ok _ => none
  | .error e => some e

def ackText (intent : UInt64) (row : IntentRow) (st : EffectState) (disk : Except String (Option String))
    (reported : Value) : Value :=
  let text : Value := .obj [("phase", .str "ack"), ("intent", .num intent), ("authorization", .num row.authorization),
    ("tool", .str "write_file"), ("path", .str row.path), ("content_sha256", .str row.contentSha256),
    ("state", .str st.name), ("disk_sha256", .ofOption (diskHex disk)), ("disk_error", .ofOption (diskError disk)),
    ("executor_reported", reported)]
  match row.objectiveId with
  | none => text
  | some o => text.set "objective_id" (.str o)

/-- The ack record: the state is read from the world, the executor's own claim is kept beside it. -/
def ackRecord (c : Codec) (d : Disk) (w : World) (intent : UInt64) (reported : Value) (J : List RecordView) :
    Except String (List UInt64 × Value) := do
  let views ← hostViews d J
  let l ← (Ledger.fromRecords c views).mapError Refusal.display
  match l.intents[intent]? with
  | none => .error s!"ComposeEffectAck: #{intent} is not an effect intent"
  | some row =>
    if row.state.terminal then
      .error s!"ComposeEffectAck: intent #{intent} is already {row.state.name} (record #{row.stateRecord})"
    else
      let seen := confinedWorldState w l row
      .ok ([intent, row.authorization], stamp c (ackText intent row seen.1 seen.2 reported) views intent)

def ack (c : Codec) (d : Disk) (w : World) (intent : UInt64) (reported : Value) (J : List RecordView) :
    List RecordView × Except String UInt64 :=
  match reconcileGate w with
  | .error e => (J, .error e)
  | .ok () => command c d J .effect (ackRecord c d w intent reported)

structure ReconcileDeclare where
  intent : UInt64
  state : String
  approver : String

structure ObjectiveBinding where
  objectiveId : String
  record : String
  detail : Option String
  recordUnchanged : Option Bool

structure ReconcileOutcome where
  intent : UInt64
  authorization : UInt64
  state : String
  diskSha256 : Option String
  record : Option UInt64
  note : String
  objective : Option ObjectiveBinding

/-- The objective record of an objective-bound intent, read again for a report. It never decides the effect's state. -/
def objectiveBinding (w : World) (l : Ledger) (row : IntentRow) : Option ObjectiveBinding :=
  match row.objectiveId with
  | none => none
  | some id =>
    match (l.grants[row.authorization]?.bind Grant.objective).filter fun a => a.id = id with
    | none => some ⟨id, "ObjectiveMismatch",
        some s!"intent #{row.id} names objective {id}; its grant #{row.authorization} is not bound to it", none⟩
    | some a =>
      match w.objective id a.textSha256 with
      | .ok seen => some ⟨id, "bound", none, some (seen.recordSha256 = a.recordSha256)⟩
      | .error (n, detail) => some ⟨id, n, some detail, none⟩

def declaredState (state : String) : Except String EffectState :=
  if state = "done" ∨ state = "DONE" then .ok .done
  else if state = "not_done" ∨ state = "NOT_DONE" then .ok .notDone
  else .error s!"reconcile: --declare {Field.quoted state} (done, not_done)"

def decided (world : EffectState) (declare : Option ReconcileDeclare) (who : String) :
    Except String (EffectState × String) :=
  match declare with
  | none => .ok (world, who)
  | some dec => do
    let st ← declaredState dec.state
    if trim dec.approver = "" then .error "reconcile: a declaration needs --approver"
    else .ok (st, "operator:" ++ trim dec.approver)

def outsideError : Except String (Option String) → Bool
  | .error e => e.startsWith "OutsideWorkspace" || e.startsWith "NotDaemonMinted"
  | .ok _ => false

def reconcileText (row : IntentRow) (st world : EffectState) (disk : Except String (Option String)) (who : String)
    (objective : Option ObjectiveBinding) : Value :=
  let text : Value := .obj [("phase", .str "reconcile"), ("intent", .num row.id),
    ("authorization", .num row.authorization), ("state", .str st.name), ("world", .str world.name),
    ("disk_sha256", .ofOption (diskHex disk)), ("disk_error", .ofOption (diskError disk)), ("by", .str who)]
  match objective with
  | none => text
  | some o => (text.set "objective_id" (.str o.objectiveId)).set "objective_record" (.str o.record)

/-- What one row of a reconcile comes to: an outcome without a record, or a record to write. -/
inductive RowVerdict
  | left (o : ReconcileOutcome)
  | write (text : Value) (outcome : UInt64 → ReconcileOutcome)

def reconcileRow (w : World) (l : Ledger) (declare : Option ReconcileDeclare) (who : String) (row : IntentRow) :
    Except String RowVerdict :=
  let objective := objectiveBinding w l row
  if w.executorAlive row.executorPid row.executorStart then
    .ok (.left ⟨row.id, row.authorization, row.state.name, none, none,
      s!"executor pid {row.executorPid} still running; not decided", objective⟩)
  else do
    let seen := confinedWorldState w l row
    let (st, who) ← decided seen.1 declare who
    if st = .done ∧ outsideError seen.2 then
      .error s!"reconcile: intent #{row.id} cannot be declared DONE: {(diskError seen.2).getD default}"
    else if st = .unresolved ∧ row.unresolvedDigest = some (diskHex seen.2) then
      .ok (.left ⟨row.id, row.authorization, st.name, diskHex seen.2, none,
        "still UNRESOLVED, already recorded for this target digest", objective⟩)
    else
      .ok (.write (reconcileText row st seen.1 seen.2 who objective) fun n =>
        ⟨row.id, row.authorization, st.name, diskHex seen.2, some n, who, objective⟩)

section Loop

variable (c : Codec) (d : Disk)

/-- The loop of `reconcile` over the rows of the ledger it read. The world may move from row to row: `w i` is what the
row after `i` others sees. `n` counts the appends. -/
def reconcileRows (w : Nat → World) (l : Ledger) (declare : Option ReconcileDeclare) (who : String) :
    List IntentRow → Nat → Nat → List RecordView → List RecordView × Except String (List ReconcileOutcome)
  | [], _, _, J => (J, .ok [])
  | row :: rows, i, n, J =>
    match reconcileRow (w i) l declare who row with
    | .error e => (J, .error e)
    | .ok (.left o) =>
      match reconcileRows w l declare who rows (i + 1) n J with
      | (J', .ok os) => (J', .ok (o :: os))
      | (J', .error e) => (J', .error e)
    | .ok (.write text outcome) =>
      match appendEffect c d n J .effect [row.id, row.authorization] text with
      | (J', .error e) => (J', .error e)
      | (J', .ok id) =>
        match reconcileRows w l declare who rows (i + 1) (n + 1) J' with
        | (J'', .ok os) => (J'', .ok (outcome id :: os))
        | (J'', .error e) => (J'', .error e)

/-- The rows a reconcile works on: the declared intent, or every unsettled one. -/
def reconcileTargets (l : Ledger) : Option ReconcileDeclare → Except String (List IntentRow)
  | none => .ok l.unsettled
  | some dec =>
    match l.intents[dec.intent]? with
    | none => .error s!"reconcile: #{dec.intent} is not an effect intent"
    | some row =>
      if row.state.terminal then .error s!"reconcile: intent #{dec.intent} is already {row.state.name}"
      else .ok [row]

/-- Reconcile every unsettled intent whose executor is gone, or record one operator declaration. -/
def reconcile (w : Nat → World) (declare : Option ReconcileDeclare) (who : String) (J : List RecordView) :
    List RecordView × Except String (List ReconcileOutcome) :=
  withHome d J fun J =>
    match ledger c d J with
    | .error e => (J, .error e)
    | .ok l =>
      match reconcileTargets l declare with
      | .error e => (J, .error e)
      | .ok rows => reconcileRows c d w l declare who rows 0 0 J

end Loop

/-! ## Operator control -/

/-- The control record to write; `none` when there is nothing to revoke. -/
def controlRecord (c : Codec) (d : Disk) (action approver : String) (authorization : Option UInt64)
    (J : List RecordView) : Except String (Option (List UInt64 × Value)) := do
  if trim approver = "" then .error s!"ComposeControl {action}: --approver is required"
  else
    let l ← ledger c d J
    if action = "stop" ∨ action = "resume" then
      .ok (some ([], .obj [("control", .str action), ("approver", .str (trim approver))]))
    else if action = "revoke" then
      match authorization with
      | none => .error "ComposeControl revoke: --authorization is required"
      | some a =>
        if a ∉ l.grants then .error s!"ComposeControl revoke: #{a} is not an authorization"
        else if a ∈ l.spent ∨ a ∈ l.legacySpent ∨ a ∈ l.revoked then .ok none
        else
          .ok (some ([a], .obj [("control", .str "revoke"), ("authorization", .num a),
            ("approver", .str (trim approver))]))
    else .error s!"ComposeControl: action {Field.quoted action} (stop, resume, revoke)"

structure ComposeControlReport where
  action : String
  recorded : Option UInt64
  revoked : Option Bool

def control (c : Codec) (d : Disk) (action approver : String) (authorization : Option UInt64) (J : List RecordView) :
    List RecordView × Except String ComposeControlReport :=
  withHome d J fun J =>
    match controlRecord c d action approver authorization J with
    | .error e => (J, .error e)
    | .ok none => (J, .ok ⟨action, none, some false⟩)
    | .ok (some (links, text)) =>
      match appendEffect c d 0 J .authorization links text with
      | (J', .error e) => (J', .error e)
      | (J', .ok n) => (J', .ok ⟨action, some n, if action = "revoke" then some true else none⟩)

/-! ## The records the daemon's own runs write -/

def commitText (workspace : String) (task cxPromotion cxEvidence : UInt64)
    (proposalSha256 path contentSha256 : String) (goalSha256 : Option String) (prov : Provenance) : Value :=
  let text : Value := .obj [("compose_commit", .num 1), ("task", .num task), ("cx_promotion", .num cxPromotion),
    ("cx_evidence", .num cxEvidence), ("proposal_sha256", .str proposalSha256), ("path", .str path),
    ("content_sha256", .str contentSha256), ("workspace", .str workspace), ("provenance", prov.toJson)]
  match goalSha256 with
  | none => text
  | some g => text.set "goal_sha256" (.str g)

/-- The record of a committed one-file proposal, written by the compose run. -/
def writeComposeCommit (c : Codec) (d : Disk) (workspace : String) (task cxPromotion cxEvidence : UInt64)
    (proposalSha256 path contentSha256 : String) (goalSha256 : Option String) (prov : Provenance)
    (J : List RecordView) : List RecordView × Except String UInt64 :=
  command c d J .effect fun J => do
    let text := commitText workspace task cxPromotion cxEvidence proposalSha256 path contentSha256 goalSha256 prov
    match prov.generationRecord with
    | none => .ok ([cxPromotion, cxEvidence], text)
    | some g =>
      let views ← hostViews d J
      if generationExists c views g then .ok ([cxPromotion, cxEvidence], text)
      else
        .error s!"compose-commit not written: provenance names generation record #{g}, which is not a verified generation record"

/-- The bound ids an approved grant carries beside its own fields. -/
structure ApprovedIds where
  requestId : String
  traceId : String
  approvalId : String
  deskKeyId : String
  approvedProposalSha256 : String

def approvedText (workspace path contentSha256 approver target : String) (prior : Option String)
    (ids : ApprovedIds) (link : ApprovedLink) (proposalSha256 : String) (prov : Provenance) : Value :=
  let text : Value := .obj [("approved_grant", .num 1), ("proposal_sha256", .str proposalSha256), ("path", .str path),
    ("content_sha256", .str contentSha256), ("approver", .str approver), ("target", .str target),
    ("workspace", .str workspace), ("prior_sha256", .ofOption prior), ("approval_key", .str link.approvalKey),
    ("replay_claim", .num link.replayClaim), ("cx_promotion", .num link.cxPromotion),
    ("cx_evidence", .num link.cxEvidence), ("provenance", prov.toJson)]
  ((((text.orInsert "request_id" (.str ids.requestId)).orInsert "trace_id" (.str ids.traceId)).orInsert
    "approval_id" (.str ids.approvalId)).orInsert "desk_key_id" (.str ids.deskKeyId)).orInsert
    "approved_proposal_sha256" (.str ids.approvedProposalSha256)

/-- The grant the daemon writes after a COMMITTED approved compose; `base` is the file the approval was checked on. -/
def writeApprovedGrant (c : Codec) (d : Disk) (w : World) (allen : Option String)
    (workspace path contentSha256 approver : String) (ids : ApprovedIds) (link : ApprovedLink) (proposalSha256 : String)
    (base : Option String) (J : List RecordView) : List RecordView × Except String UInt64 :=
  command c d J .authorization fun _ => do
    let target := Path.join workspace path
    let held ← (w.openConfined workspace path target).mapError fun r => (outsideOf r).display
    let prior ← held
    let now := prior.getD "absent"
    if base.any fun b => b ≠ now then
      .error s!"BaseChanged: {path} changed after the requirements were checked (bound {base.getD default}, now {now}); no grant was written"
    else
      let prov : Provenance := { allenAgent := allen.getD "none" }
      .ok ([link.cxPromotion, link.cxEvidence, link.replayClaim],
        approvedText workspace path contentSha256 approver target prior ids link proposalSha256 prov)

end SovereignCore.Effects
