import SovereignCore.Effects.Calls

/-!
# What the written records read back as

For each text an effect command writes: it is a flat object, and what the ledger makes of any value that answers `get`
as the text does. The readers look at a value through `get` only, so this is what they make of the record once a lawful
codec has written and read it.

* `flat_commitText`, `flat_mintedText`, ... : the texts are flat;
* `read_commitText`, `read_mintedText`, `read_approvedText`, `read_intentText`, `read_settle` : what they do.
-/

namespace SovereignCore.Effects

open Std SovereignCore.Json

section Notes

variable {c : Codec} {l : Ledger} {id : UInt64} {links : List UInt64} {t : String}

@[simp] theorem read_effectNote : l.read c (hostNote id .effect links t) = l.readEffect id (c.parse t) := rfl

@[simp] theorem read_authorizationNote : l.read c (hostNote id .authorization links t) =
    l.readAuthorization id (c.parse t) (hostNote id .authorization links t).links := rfl

end Notes

theorem plain_toJson (p : Provenance) : p.toJson.plain = true := by
  have hs : ∀ f ∈ [("allen_agent", Value.str p.allenAgent),
      ("generation_record", Provenance.numOrNull p.generationRecord)] ++
      (p.staleGeneration.toList.map fun g => ("generation_record_stale", Value.num g)) ++
      (p.note.toList.map fun n => ("provenance_note", Value.str n)), f.2.scalar = true := by
    rcases p with ⟨_ | g, a, _ | st, _ | n⟩ <;> simp [Provenance.numOrNull, Value.scalar]
  rcases p with ⟨g, a, _ | st, _ | n⟩
  · exact plain_obj (["allen_agent", "generation_record"]) rfl (by decide +kernel) hs
  · exact plain_obj (["allen_agent", "generation_record", "provenance_note"]) rfl (by decide +kernel) hs
  · exact plain_obj (["allen_agent", "generation_record", "generation_record_stale"]) rfl (by decide +kernel) hs
  · exact plain_obj (["allen_agent", "generation_record", "generation_record_stale", "provenance_note"]) rfl
      (by decide +kernel) hs

section Texts

variable {l : Ledger} {id : UInt64} {links : List UInt64}

theorem flat_commitText {workspace : String} {task p e : UInt64} {proposal path content : String}
    {goal : Option String} {prov : Provenance} :
    (commitText workspace task p e proposal path content goal prov).Flat := by
  have h : (commitText workspace task p e proposal path content none prov).Flat := by
    apply flat_obj
    · simp
    · simp [plain_toJson]
  cases goal with
  | none => exact h
  | some g => exact h.set rfl

theorem read_commit {v : Value} {row : CommitRow} (hm : (v.get "compose_commit").isSome = true) (hid : row.id = id)
    (hp : v.get "cx_promotion" = some (.num row.cxPromotion)) (he : v.get "cx_evidence" = some (.num row.cxEvidence))
    (hs : v.get "proposal_sha256" = some (.str row.proposalSha256)) (hpath : v.get "path" = some (.str row.path))
    (hc : v.get "content_sha256" = some (.str row.contentSha256))
    (hw : v.get "workspace" = some (.str row.workspace)) (hg : v.get "goal_sha256" = row.goalSha256.map Value.str) :
    l.readEffect id (some v) = .ok { l with commits := l.commits.insert id row } := by
  have hgoal : Field.optStr v "goal_sha256" id = .ok row.goalSha256 := by
    cases h : row.goalSha256 with
    | none => exact Field.optStr_none (by rw [hg, h]; rfl)
    | some g => exact Field.optStr_some (by rw [hg, h]; rfl)
  simp only [Ledger.readEffect, hm, if_true, Ledger.readCommit, Field.u_ok hp, Field.u_ok he, Field.s_ok hs,
    Field.s_ok hpath, Field.s_ok hc, Field.s_ok hw, hgoal]
  subst hid
  rfl

theorem read_commitText {r : Value} {workspace : String} {task p e : UInt64} {proposal path content : String}
    {goal : Option String} {prov : Provenance}
    (h : ∀ k, r.get k = (commitText workspace task p e proposal path content goal prov).get k) :
    l.readEffect id (some r) =
      .ok { l with commits := l.commits.insert id ⟨id, p, e, proposal, path, content, workspace, goal⟩ } := by
  cases goal with
  | none => exact read_commit (by rw [h]; rfl) rfl (h _) (h _) (h _) (h _) (h _) (h _) (h _)
  | some g => exact read_commit (by rw [h]; rfl) rfl (h _) (h _) (h _) (h _) (h _) (h _) (h _)

theorem readObjective_ok {v : Value} {objective : Option GrantObjective}
    (hid : v.get "objective_id" = objective.map fun o => .str o.id)
    (ht : v.get "objective_text_sha256" = objective.map fun o => .str o.textSha256)
    (hr : v.get "objective_record_sha256" = objective.map fun o => .str o.recordSha256) :
    Ledger.readObjective v id = .ok objective := by
  cases objective with
  | none => simp only [Ledger.readObjective, Field.optStr_none hid]; rfl
  | some o => simp only [Ledger.readObjective, Field.optStr_some hid, Field.s_ok ht, Field.s_ok hr]; rfl

theorem read_minted {v : Value} {g : Grant} {commit : UInt64} {prior : Option String} {target ws : String}
    {nonce : Option String} (hctl : v.get "control" = none) (hm : (v.get "minted_grant").isSome = true)
    (hg : g = ⟨id, g.proposalSha256, g.path, g.contentSha256, some target, some prior, some ws, none, some ⟨commit⟩,
      g.objective, links⟩)
    (hc : v.get "compose_commit" = some (.num commit)) (hp : v.get "proposal_sha256" = some (.str g.proposalSha256))
    (hpath : v.get "path" = some (.str g.path)) (hcont : v.get "content_sha256" = some (.str g.contentSha256))
    (htar : v.get "target" = some (.str target)) (hw : v.get "workspace" = some (.str ws))
    (hprior : v.get "prior_sha256" = some (.ofOption prior)) (happ : v.get "approved_grant" = none)
    (hobj : Ledger.readObjective v id = .ok g.objective)
    (hn : (v.get "desk_nonce").bind Value.asStr = nonce) :
    l.readAuthorization id (some v) links = .ok (l.addGrant g nonce) := by
  obtain ⟨m, hm⟩ := Option.isSome_iff_exists.1 hm
  rw [hg]
  simp only [Ledger.readAuthorization, hctl, Ledger.readGrant, hp, hpath, hcont, Option.bind_some, Value.asStr, hobj,
    Field.optDigest_ok hprior, Ledger.readMinted, hm, Field.u_ok hc, Ledger.readApproved, happ, htar, hw, hn]
  rfl

theorem flat_mintedText {row : CommitRow} {approver target : String} {prior : Option String}
    {desk : Option (DeskKey × DeskProof)} {objective : Option Seen} :
    (mintedText row approver target prior desk objective).Flat := by
  have h : (mintedText row approver target prior none none).Flat := by
    apply flat_obj
    · simp
    · simp
  have hd : (mintedText row approver target prior desk none).Flat := by
    rcases desk with _ | ⟨key, p⟩
    · exact h
    · exact (h.set rfl).set rfl
  cases objective with
  | none => exact hd
  | some o => exact ((hd.set rfl).set rfl).set rfl

def mintedGrant (id : UInt64) (links : List UInt64) (row : CommitRow) (target : String) (prior : Option String)
    (objective : Option Seen) : Grant :=
  ⟨id, row.proposalSha256, row.path, row.contentSha256, some target, some prior, some row.workspace, none,
    some ⟨row.id⟩, objective.map fun o => ⟨o.objectiveId, o.textSha256, o.recordSha256⟩, links⟩

theorem read_mintedText {r : Value} {row : CommitRow} {approver target : String} {prior : Option String}
    {desk : Option (DeskKey × DeskProof)} {objective : Option Seen} {prov : Value}
    (h : ∀ k, r.get k = ((mintedText row approver target prior desk objective).set "provenance" prov).get k) :
    l.readAuthorization id (some r) links = .ok (l.addGrant (mintedGrant id links row target prior objective)
      (desk.map fun kp => kp.2.nonce)) := by
  rcases desk with _ | ⟨key, p⟩ <;> rcases objective with _ | o <;>
    exact read_minted (h _) (by rw [h]; rfl) rfl (h _) (h _) (h _) (h _) (h _) (h _) (h _) (h _)
      (readObjective_ok (h _) (h _) (h _)) (by rw [h]; rfl)

theorem flat_approvedText {workspace path content approver target : String} {prior : Option String} {ids : ApprovedIds}
    {link : ApprovedLink} {proposal : String} {prov : Provenance} :
    (approvedText workspace path content approver target prior ids link proposal prov).Flat := by
  unfold approvedText
  refine ((((Value.Flat.orInsert ?_ rfl).orInsert rfl).orInsert rfl).orInsert rfl).orInsert rfl
  apply flat_obj
  · simp
  · simp [plain_toJson]

theorem approvedText_eq {workspace path content approver target : String} {prior : Option String} {ids : ApprovedIds}
    {link : ApprovedLink} {proposal : String} {prov : Provenance} :
    approvedText workspace path content approver target prior ids link proposal prov =
      .obj [("approved_proposal_sha256", .str ids.approvedProposalSha256), ("desk_key_id", .str ids.deskKeyId),
        ("approval_id", .str ids.approvalId), ("trace_id", .str ids.traceId), ("request_id", .str ids.requestId),
        ("approved_grant", .num 1), ("proposal_sha256", .str proposal), ("path", .str path),
        ("content_sha256", .str content), ("approver", .str approver), ("target", .str target),
        ("workspace", .str workspace), ("prior_sha256", .ofOption prior), ("approval_key", .str link.approvalKey),
        ("replay_claim", .num link.replayClaim), ("cx_promotion", .num link.cxPromotion),
        ("cx_evidence", .num link.cxEvidence), ("provenance", prov.toJson)] := by
  rfl

def approvedGrant (id : UInt64) (links : List UInt64) (workspace path content approver target : String)
    (prior : Option String) (ids : ApprovedIds) (link : ApprovedLink) (proposal : String) : Grant :=
  ⟨id, proposal, path, content, some target, some prior, some workspace,
    some ⟨link, ⟨ids.traceId, ids.requestId, ids.approvalId, approver, path, content, ids.approvedProposalSha256,
      ids.deskKeyId, workspace⟩⟩, none, none, links⟩

theorem read_approvedText {r : Value} {workspace path content approver target : String} {prior : Option String}
    {ids : ApprovedIds} {link : ApprovedLink} {proposal : String} {prov : Provenance}
    (h : ∀ k, r.get k = (approvedText workspace path content approver target prior ids link proposal prov).get k) :
    l.readAuthorization id (some r) links = .ok (l.addGrant
      (approvedGrant id links workspace path content approver target prior ids link proposal) none) := by
  rw [approvedText_eq] at h
  have hctl : r.get "control" = none := h _
  have hp : r.get "proposal_sha256" = some (.str proposal) := h _
  have hpath : r.get "path" = some (.str path) := h _
  have hcont : r.get "content_sha256" = some (.str content) := h _
  have hprior : r.get "prior_sha256" = some (.ofOption prior) := h _
  have hmint : r.get "minted_grant" = none := h _
  have happ : r.get "approved_grant" = some (.num 1) := h _
  have hkey : r.get "approval_key" = some (.str link.approvalKey) := h _
  have hclaim : r.get "replay_claim" = some (.num link.replayClaim) := h _
  have hprom : r.get "cx_promotion" = some (.num link.cxPromotion) := h _
  have hev : r.get "cx_evidence" = some (.num link.cxEvidence) := h _
  have htrace : r.get "trace_id" = some (.str ids.traceId) := h _
  have hreq : r.get "request_id" = some (.str ids.requestId) := h _
  have happid : r.get "approval_id" = some (.str ids.approvalId) := h _
  have happr : r.get "approver" = some (.str approver) := h _
  have hprop : r.get "approved_proposal_sha256" = some (.str ids.approvedProposalSha256) := h _
  have hdesk : r.get "desk_key_id" = some (.str ids.deskKeyId) := h _
  have hws : r.get "workspace" = some (.str workspace) := h _
  have htar : r.get "target" = some (.str target) := h _
  have hobj : Ledger.readObjective r id = .ok none := readObjective_ok (h _) (h _) (h _)
  have hnonce : (r.get "desk_nonce").bind Value.asStr = none := by rw [h]; rfl
  simp only [Ledger.readAuthorization, hctl, Ledger.readGrant, hp, hpath, hcont, Option.bind_some, Value.asStr, hobj,
    Field.optDigest_ok hprior, Ledger.readMinted, hmint, Ledger.readApproved, happ, Field.s_ok hkey, Field.u_ok hclaim,
    Field.u_ok hprom, Field.u_ok hev, Field.s_ok htrace, Field.s_ok hreq, Field.s_ok happid, Field.s_ok happr,
    Field.s_ok hprop, Field.s_ok hdesk, Field.s_ok hws, htar, hws, hnonce]
  rfl

theorem read_stop {r : Value} (h : r.get "control" = some (.str "stop")) :
    l.readAuthorization id (some r) links = .ok { l with stops := l.stops ++ [id] } := by
  simp only [Ledger.readAuthorization, h, Ledger.readControl, Value.asStr]

theorem read_resume {r : Value} (h : r.get "control" = some (.str "resume")) :
    l.readAuthorization id (some r) links = .ok { l with resumes := l.resumes ++ [id] } := by
  simp only [Ledger.readAuthorization, h, Ledger.readControl, Value.asStr]

theorem read_revoke {r : Value} {a : UInt64} (h : r.get "control" = some (.str "revoke"))
    (ha : r.get "authorization" = some (.num a)) :
    l.readAuthorization id (some r) links = .ok { l with revoked := l.revoked.insertIfNew a id } := by
  simp only [Ledger.readAuthorization, h, Ledger.readControl, Value.asStr, Field.u_ok ha]
  rfl

theorem flat_intentText {req : IntentRequest} {g : Grant} {current : Option String} :
    (intentText req g current).Flat := by
  have hex : (Value.obj [("pid", .num req.executorPid.toUInt64), ("start", .num req.executorStart)]).plain = true :=
    plain_obj (["pid", "start"]) rfl (by decide +kernel) (by simp [Value.scalar])
  unfold intentText
  split
  · apply flat_obj
    · simp
    · simp [hex]
  · refine ((flat_obj ?_ ?_).set rfl).set rfl
    · simp
    · simp [hex]

def openedRow (id : UInt64) (req : IntentRequest) (g : Grant) (current : Option String) : IntentRow :=
  ⟨id, g.id, req.path, req.target, req.contentSha256, current, req.executorPid, req.executorStart, .open, 0, none,
    g.objective.map GrantObjective.id⟩

theorem read_intent {v : Value} (row : IntentRow) (hc : v.get "compose_commit" = none)
    (hph : v.get "phase" = some (.str "intent")) (ha : v.get "authorization" = some (.num row.authorization))
    (hs : l.spent[row.authorization]? = none) (hp : v.get "path" = some (.str row.path))
    (ht : v.get "target" = some (.str row.target)) (hcont : v.get "content_sha256" = some (.str row.contentSha256))
    (hprior : v.get "prior_sha256" = some (.ofOption row.priorSha256))
    (hex : v.get "executor" =
      some (.obj [("pid", .num row.executorPid.toUInt64), ("start", .num row.executorStart)]))
    (ho : v.get "objective_id" = row.objectiveId.map Value.str)
    (hrow : row = { row with id := id, state := .open, stateRecord := 0, unresolvedDigest := none }) :
    l.readEffect id (some v) =
      .ok { l with spent := l.spent.insert row.authorization id, intents := l.intents.insert id row } := by
  have hobj : Field.optStr v "objective_id" id = .ok row.objectiveId := by
    cases h : row.objectiveId with
    | none => exact Field.optStr_none (by rw [ho, h]; rfl)
    | some g => exact Field.optStr_some (by rw [ho, h]; rfl)
  have hpid : Field.u (.obj [("pid", .num row.executorPid.toUInt64), ("start", .num row.executorStart)]) "pid" id =
      .ok row.executorPid.toUInt64 := Field.u_ok rfl
  have hstart : Field.u (.obj [("pid", .num row.executorPid.toUInt64), ("start", .num row.executorStart)]) "start" id =
      .ok row.executorStart := Field.u_ok rfl
  simp only [Ledger.readEffect, hc, Option.isSome_none, Bool.false_eq_true, if_false, hph, Value.asStr,
    Ledger.readIntent, Field.u_ok ha, hex, Option.getD_some, Field.s_ok hp, Field.s_ok ht, Field.s_ok hcont,
    Field.optDigest_ok hprior, hpid, hstart, hobj]
  conv_rhs => rw [hrow]
  simp [Bind.bind, Except.bind, hs]

theorem read_intentText {r : Value} {req : IntentRequest} {g : Grant} {current : Option String} {prov : Value}
    (h : ∀ k, r.get k = ((intentText req g current).set "provenance" prov).get k) (hs : l.spent[g.id]? = none) :
    l.readEffect id (some r) = .ok { l with
      spent := l.spent.insert g.id id
      intents := l.intents.insert id (openedRow id req g current) } := by
  unfold intentText at h
  cases ho : g.objective with
  | none =>
    rw [ho] at h
    exact read_intent (openedRow id req g current) (h _) (h _) (h _) hs (h _) (h _) (h _) (h _) (h _)
      (by rw [h, openedRow, ho]; rfl) rfl
  | some o =>
    rw [ho] at h
    exact read_intent (openedRow id req g current) (h _) (h _) (h _) hs (h _) (h _) (h _) (h _) (h _)
      (by rw [h, openedRow, ho]; rfl) rfl

/-- An intent settled by the record `id`. -/
def IntentRow.settled (row : IntentRow) (id : UInt64) (st : EffectState) (disk : Option String) : IntentRow :=
  { row with
    state := st
    stateRecord := id
    unresolvedDigest := if st = .unresolved then some disk else row.unresolvedDigest }

theorem parse_name {st : EffectState} (h : st ≠ .open) : EffectState.parse st.name = some st := by
  cases st with
  | «open» => exact absurd rfl h
  | done => rfl
  | notDone => rfl
  | unresolved => rfl

theorem read_settle {v : Value} (phase : String) {i : UInt64} {row : IntentRow} {st : EffectState}
    {disk : Option String} (hc : v.get "compose_commit" = none) (hph : v.get "phase" = some (.str phase))
    (hphase : phase = "ack" ∨ phase = "reconcile") (hi : v.get "intent" = some (.num i))
    (hs : v.get "state" = some (.str st.name)) (hst : st ≠ .open) (hd : v.get "disk_sha256" = some (.ofOption disk))
    (hrow : l.intents[i]? = some row) (ht : row.state.terminal = false) :
    l.readEffect id (some v) = .ok { l with intents := l.intents.insert i (row.settled id st disk) } := by
  have hread : l.readSettle id v = .ok { l with intents := l.intents.insert i (row.settled id st disk) } := by
    simp only [Ledger.readSettle, Field.u_ok hi, Field.s_ok hs, Field.optDigest_ok hd, hrow, ht, parse_name hst,
      Bind.bind, Except.bind]
    rfl
  rcases hphase with rfl | rfl
  · simpa only [Ledger.readEffect, hc, Option.isSome_none, Bool.false_eq_true, if_false, hph, Value.asStr] using hread
  · simpa only [Ledger.readEffect, hc, Option.isSome_none, Bool.false_eq_true, if_false, hph, Value.asStr] using hread

theorem flat_reconcileText {row : IntentRow} {st world : EffectState} {disk : Except String (Option String)}
    {who : String} {objective : Option ObjectiveBinding} : (reconcileText row st world disk who objective).Flat := by
  unfold reconcileText
  split
  · apply flat_obj
    · simp
    · simp
  · refine ((flat_obj ?_ ?_).set rfl).set rfl
    · simp
    · simp

theorem object_ackText {intent : UInt64} {row : IntentRow} {st : EffectState} {disk : Except String (Option String)}
    {reported : Value} : (ackText intent row st disk reported).Object := by
  unfold ackText
  split
  · exact ⟨_, rfl, by simp⟩
  · exact Value.Object.set ⟨_, rfl, by simp⟩

end Texts

end SovereignCore.Effects
