import SovereignCore.Effects.Intents

/-!
# What an intent rests on

Behind an intent record stands a grant record, and behind the grant a compose-commit record or a committed replay
claim. The checker follows these links through fields that other functions wrote.

* `intentSays` : what an intent record says;
* `every_intent_backed` : the grant of every intent and what backs it.
-/

namespace SovereignCore.Effects

open Std SovereignCore.Json

/-- What an intent record says. -/
structure IntentSays where
  authorization : UInt64
  proposalSha256 : String
  path : String
  target : String
  contentSha256 : String
  deriving DecidableEq

def intentSays (c : Codec) (r : RecordView) : Option IntentSays := do
  let a ← intentUnder c r
  let v ← bodyOf c "effect" r
  let proposal ← (v.get "proposal_sha256").bind Value.asStr
  let path ← (v.get "path").bind Value.asStr
  let target ← (v.get "target").bind Value.asStr
  let content ← (v.get "content_sha256").bind Value.asStr
  some ⟨a, proposal, path, target, content⟩

/-- What stands behind a grant in the journal: a compose-commit record, or a replay claim that was recorded committed.
The approver of an approved grant is part of the identity whose key was claimed; a commit record names none. -/
inductive Backed (c : Codec) (key : ApprovalIdentity → String) (J : List RecordView) (g : Grant) : Prop
  | commit (r : RecordView) (row : CommitRow) (hr : r ∈ J) (hrow : commitRowOf c r = some row)
      (path : row.path = g.path) (content : row.contentSha256 = g.contentSha256)
      (proposal : row.proposalSha256 = g.proposalSha256) (workspace : g.workspace = some row.workspace)
      (target : g.target.any fun t => Path.same t (Path.join row.workspace row.path))
  | claim (ag : ApprovedGrant) (l : Replay.ReplayLedger) (row : Replay.ClaimRow) (e : Replay.CommitEvidence)
      (approved : g.approved = some ag) (path : ag.identity.path = g.path)
      (content : ag.identity.contentSha256 = g.contentSha256) (workspace : g.workspace = some ag.identity.workspace)
      (target : g.target.any fun t => Path.same t (Path.join ag.identity.workspace ag.identity.path))
      (reads : Replay.ReplayLedger.fromRecords c J = .ok l) (hrow : l.claims[ag.link.replayClaim]? = some row)
      (committed : row.state = .committed) (claimed : row.keys.approvalKey = key ag.identity)
      (evidence : row.evidence = some e) (proposal : e.composeProposalSha256 = g.proposalSha256)

section Behind

variable {c : Codec} {key : ApprovalIdentity → String} {J : List RecordView} {l l' : Ledger} {r : RecordView} {g : Grant}
variable {a : UInt64}

theorem ReadKind.grants (h : ReadKind c r l l') (hg : l'.grants[a]? = some g) : l.grants[a]? = some g ∨
    r.id = a ∧ grantOf c r = some g ∧
      ∀ ag, g.approved = some ag → ag.identity.path = g.path ∧ ag.identity.contentSha256 = g.contentSha256 := by
  cases h with
  | control stops resumes revoked h => exact Or.inl hg
  | grant g' nonce hn hc hg' hid hbound =>
    have hget : (l.addGrant g' nonce).grants[a]? = if g'.id = a then some g' else l.grants[a]? := Table.get_insert
    rw [hget, hid] at hg
    split_ifs at hg with ha
    · cases Option.some.inj hg
      exact Or.inr ⟨ha, hg', hbound⟩
    · exact Or.inl hg
  | commit row hn hc hrow => exact Or.inl hg
  | legacy spent hc => exact Or.inl hg
  | effect spent intents hc => exact Or.inl hg

theorem ReadKind.commits {row : CommitRow} (h : ReadKind c r l l') (hrow : l'.commits[a]? = some row) :
    l.commits[a]? = some row ∨ r.id = a ∧ commitRowOf c r = some row := by
  cases h with
  | control stops resumes revoked h => exact Or.inl hrow
  | grant g' nonce hn hc hg' hid hbound => exact Or.inl hrow
  | commit row' hn hc hrow' =>
    rw [Table.get_insert] at hrow
    split_ifs at hrow with ha
    · cases Option.some.inj hrow
      exact Or.inr ⟨ha, hrow'⟩
    · exact Or.inl hrow
  | legacy spent hc => exact Or.inl hrow
  | effect spent intents hc => exact Or.inl hrow

theorem grants_of_reads (h : Ledger.fromRecords c J = .ok l) (hg : l.grants[a]? = some g) :
    ∃ r ∈ J, r.id = a ∧ grantOf c r = some g ∧
      ∀ ag, g.approved = some ag → ag.identity.path = g.path ∧ ag.identity.contentSha256 = g.contentSha256 := by
  induction J using List.reverseRecOn generalizing l with
  | nil =>
    cases Except.ok.inj h
    simp at hg
  | append_singleton J r ih =>
    obtain ⟨l₀, hl₀, hr⟩ := ledger_snoc_inv h
    rcases (read_kinds hr).grants hg with hold | ⟨hid, hsays⟩
    · obtain ⟨r', hr', hsays⟩ := ih hl₀ hold
      exact ⟨r', by simp [hr'], hsays⟩
    · exact ⟨r, by simp, hid, hsays⟩

theorem commits_of_reads {row : CommitRow} (h : Ledger.fromRecords c J = .ok l) (hrow : l.commits[a]? = some row) :
    ∃ r ∈ J, commitRowOf c r = some row := by
  induction J using List.reverseRecOn generalizing l with
  | nil =>
    cases Except.ok.inj h
    simp at hrow
  | append_singleton J r ih =>
    obtain ⟨l₀, hl₀, hr⟩ := ledger_snoc_inv h
    rcases (read_kinds hr).commits hrow with hold | ⟨-, hsays⟩
    · obtain ⟨r', hr', hsays⟩ := ih hl₀ hold
      exact ⟨r', by simp [hr'], hsays⟩
    · exact ⟨r, by simp, hsays⟩

/-! ## The three checks -/

theorem checkIntent_fields {req : IntentRequest} {current : Option String} (h : l.checkIntent req current = .ok g) :
    g.honoured = true ∧ g.proposalSha256 = req.proposalSha256 ∧ g.path = req.path ∧
      g.contentSha256 = req.contentSha256 ∧ g.target = some req.target := by
  unfold Ledger.checkIntent at h
  dsimp only at h
  split at h
  · cases h
  split at h
  · cases h
  rw [Result.guard_ok, Result.guard_ok] at h
  obtain ⟨hon, hfields, h⟩ := h
  split at h
  · split_ifs at h
  split at h
  · cases h
  split at h
  · cases h
  split at h
  · cases h
  split at h
  · rename_i target prior htarget hprior
    rw [Result.guard_ok, Result.guard_ok] at h
    obtain ⟨hne, -, h⟩ := h
    cases Except.ok.inj h
    simp only [not_or, ne_eq, not_not] at hfields hne
    exact ⟨by simpa using hon, hfields.1, hfields.2.1, hfields.2.2, by rw [htarget, hne]⟩
  · cases h

theorem checkMintedBacking_ok {m : MintedGrant} (h : checkMintedBacking l g = .ok ()) (hm : g.minted = some m) :
    ∃ row, l.commits[m.commit]? = some row ∧ row.path = g.path ∧ row.contentSha256 = g.contentSha256 ∧
      row.proposalSha256 = g.proposalSha256 ∧ g.workspace = some row.workspace ∧
      g.target.any fun t => Path.same t (Path.join row.workspace row.path) := by
  unfold checkMintedBacking at h
  rw [hm] at h
  dsimp only at h
  split at h
  · cases h
  · rename_i row hrow
    rw [Result.guard_ok] at h
    obtain ⟨hne, -⟩ := h
    simp only [not_or, ne_eq, not_not] at hne
    exact ⟨row, hrow, hne.2.1, hne.2.2.1, hne.1, hne.2.2.2.1, hne.2.2.2.2.1⟩

theorem checkApprovedBacking_ok {ag : ApprovedGrant} (h : checkApprovedBacking c key l g J = .ok ())
    (hag : g.approved = some ag) :
    g.workspace = some ag.identity.workspace ∧
      (g.target.any fun t => Path.same t (Path.join ag.identity.workspace ag.identity.path)) ∧ ∃ rl row e, Replay.ReplayLedger.fromRecords c J = .ok rl ∧
      rl.claims[ag.link.replayClaim]? = some row ∧ row.state = .committed ∧
      row.keys.approvalKey = key ag.identity ∧ row.evidence = some e ∧ e.composeProposalSha256 = g.proposalSha256 := by
  unfold checkApprovedBacking at h
  rw [hag] at h
  simp only [Result.guard_ok] at h
  obtain ⟨-, hbound, h⟩ := h
  simp only [not_or, ne_eq, not_not] at hbound
  split at h
  · cases h
  · rename_i rl hrl
    split at h
    · cases h
    · rename_i row hrow
      rw [Result.guard_ok] at h
      obtain ⟨hne, -⟩ := h
      simp only [not_or, ne_eq, not_not] at hne
      obtain ⟨hst, hkey, -, hev, -⟩ := hne
      rcases he : row.evidence with _ | e
      · rw [he] at hev
        cases hev
      · rw [he] at hev
        simp only [Option.map_some, Option.some.injEq, Prod.mk.injEq] at hev
        exact ⟨hbound.2.2, hbound.2.1, rl, row, e, hrl, hrow, hst, hkey.trans hbound.1.symm, he, hev.1⟩

theorem Opened.backed (hc : c.Lawful) (h : Opened c key J r) {i : IntentSays} (hi : intentSays c r = some i) :
    ∃ gr ∈ J, ∃ g, gr.id = i.authorization ∧ grantOf c gr = some g ∧ g.path = i.path ∧
      g.contentSha256 = i.contentSha256 ∧ g.proposalSha256 = i.proposalSha256 ∧ g.target = some i.target ∧
      Backed c key J g := by
  obtain ⟨l, g, req, current, hop⟩ := h
  obtain ⟨hon, hprop, hpath, hcont, htarget⟩ := checkIntent_fields hop.checked
  obtain ⟨gr, hgr, hid, hsays, hbound⟩ := grants_of_reads hop.ledger.reads (checkIntent_ok hop.checked).1
  have hsame : i = ⟨req.authorization, req.proposalSha256, req.path, req.target, req.contentSha256⟩ := by
    obtain ⟨v, hv, hget⟩ := hop.body hc
    have hunder := hop.intentUnder hc
    rw [← hop.ledger.grant_id _ _ (checkIntent_ok hop.checked).1]
    have hfields : v.get "proposal_sha256" = some (.str req.proposalSha256) ∧ v.get "path" = some (.str req.path) ∧
        v.get "target" = some (.str req.target) ∧ v.get "content_sha256" = some (.str req.contentSha256) := by
      rw [hget, hget, hget, hget]
      unfold intentText
      cases g.objective with
      | none => exact ⟨rfl, rfl, rfl, rfl⟩
      | some o => exact ⟨rfl, rfl, rfl, rfl⟩
    obtain ⟨h1, h2, h3, h4⟩ := hfields
    simp only [intentSays, hunder, hv, h1, h2, h3, h4, Option.bind_eq_bind, Option.bind_some, Value.asStr,
      Option.some.injEq] at hi
    exact hi.symm
  subst hsame
  refine ⟨gr, hgr, g, hid, hsays, hpath, hcont, hprop, htarget, ?_⟩
  rcases hag : g.approved with _ | ag
  · obtain ⟨m, hm⟩ : ∃ m, g.minted = some m := by
      rw [Grant.honoured, hag] at hon
      exact Option.isSome_iff_exists.1 (by simpa using hon)
    obtain ⟨row, hrow, h1, h2, h3, h4, h5⟩ := checkMintedBacking_ok hop.minted hm
    obtain ⟨cr, hcr, hcsays⟩ := commits_of_reads hop.ledger.reads hrow
    exact .commit cr row hcr hcsays h1 h2 h3 h4 h5
  · obtain ⟨hws, htar, rl, row, e, h1, h2, h3, h4, h5, h6⟩ := checkApprovedBacking_ok hop.approved hag
    exact .claim ag rl row e hag (hbound ag hag).1 (hbound ag hag).2 hws htar h1 h2 h3 h4 h5 h6

end Behind

end SovereignCore.Effects
