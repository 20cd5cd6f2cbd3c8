import SovereignCore.Effects.Backing
import SovereignCore.Effects.Submissions

/-!
# Grants of approved submissions

A submission claims the approval's keys, its run commits, and it writes one grant: `submit` of `approved.rs` from the
claim on, by any number of processes over one journal, between any other calls. Only submissions write approved grants.

* `Submit`, `Office`, `Shift` : submissions under way, and what can happen next;
* `Standing` : what holds of the journal and the submissions; `Standing.shift` : every turn keeps it;
* `intents_and_grants_backed` : what every intent rests on, and that a submission's grant passes its own check.
-/

namespace SovereignCore.Effects

open Std SovereignCore.Json Replay

/-- How far a submission has come. -/
inductive Stage
  | claimed
  | committed (e : CommitEvidence)
  | granted (e : CommitEvidence) (n : UInt64)

structure Submit where
  claim : UInt64
  identity : ApprovalIdentity
  stage : Stage

structure Office where
  journal : List RecordView
  submits : List Submit := []

def claimKeys (key : ApprovalIdentity → String) (id : ApprovalIdentity) : ClaimKeys :=
  ⟨key id, id.requestId, id.approvalId, id.traceId⟩

def grantIds (id : ApprovalIdentity) : ApprovedIds where
  requestId := id.requestId
  traceId := id.traceId
  approvalId := id.approvalId
  deskKeyId := id.deskKeyId
  approvedProposalSha256 := id.approvedProposalSha256

def grantLink (key : ApprovalIdentity → String) (id : ApprovalIdentity) (claim : UInt64) (e : CommitEvidence) :
    ApprovedLink :=
  ⟨key id, claim, e.cxPromotion, e.cxEvidence⟩

def submitGrant (c : Codec) (key : ApprovalIdentity → String) (d : Disk) (w : World) (allen base : Option String)
    (id : ApprovalIdentity) (claim : UInt64) (e : CommitEvidence) (J : List RecordView) :
    List RecordView × Except String UInt64 :=
  writeApprovedGrant c d w allen id.workspace id.path id.contentSha256 id.approver (grantIds id)
    (grantLink key id claim e) e.composeProposalSha256 base J

/-- What can happen next. -/
inductive Shift (c : Codec) (key : ApprovalIdentity → String) : Office → Office → Prop
  /-- A call on the journal by anybody, answered or not, that writes no approved grant. -/
  | call (J J' : List RecordView) (us : List Submit) (h : Next c key (fun _ _ => True) J J')
      (hno : ∀ rs, J' = J ++ rs → ∀ r ∈ rs, ∀ g, grantOf c r = some g → g.approved = none) :
      Shift c key ⟨J, us⟩ ⟨J', us⟩
  | claimed (d : Disk) (alive : UInt32 → UInt64 → Bool) (me : Executor) (id : ApprovalIdentity) (i : UInt64)
      (J : List RecordView) (us : List Submit) (hinc : Increasing (claim c d alive me (claimKeys key id) J).1)
      (h : (claim c d alive me (claimKeys key id) J).2 = .ok i) :
      Shift c key ⟨J, us⟩ ⟨(claim c d alive me (claimKeys key id) J).1, ⟨i, id, .claimed⟩ :: us⟩
  | committed (d : Disk) (me : Executor) (id : ApprovalIdentity) (i n : UInt64) (e : CommitEvidence)
      (J : List RecordView) (pre post : List Submit) (hinc : Increasing (commit c d me i e J).1)
      (h : (commit c d me i e J).2 = .ok n) :
      Shift c key ⟨J, pre ++ ⟨i, id, .claimed⟩ :: post⟩ ⟨(commit c d me i e J).1, pre ++ ⟨i, id, .committed e⟩ :: post⟩
  | granted (d : Disk) (w : World) (allen base : Option String) (id : ApprovalIdentity) (i n : UInt64)
      (e : CommitEvidence) (J : List RecordView) (pre post : List Submit)
      (hinc : Increasing (submitGrant c key d w allen base id i e J).1)
      (h : (submitGrant c key d w allen base id i e J).2 = .ok n) :
      Shift c key ⟨J, pre ++ ⟨i, id, .committed e⟩ :: post⟩
        ⟨(submitGrant c key d w allen base id i e J).1, pre ++ ⟨i, id, .granted e n⟩ :: post⟩
  /-- Writing the grant fails, with or without its record, and the submission ends. -/
  | ungranted (d : Disk) (w : World) (allen base : Option String) (id : ApprovalIdentity) (i : UInt64)
      (e : CommitEvidence) (J : List RecordView) (pre post : List Submit)
      (hinc : Increasing (submitGrant c key d w allen base id i e J).1) :
      Shift c key ⟨J, pre ++ ⟨i, id, .committed e⟩ :: post⟩
        ⟨(submitGrant c key d w allen base id i e J).1, pre ++ post⟩
  | lost (J : List RecordView) (us us' : List Submit) (h : us'.Sublist us) : Shift c key ⟨J, us⟩ ⟨J, us'⟩

/-! ## What the journal keeps -/

section Keeps

variable {c : Codec} {key : ApprovalIdentity → String} {Q : Ledger → UInt64 → Prop} {J J' : List RecordView}
variable {l l' : Ledger} {r : RecordView} {a i : UInt64}

theorem Move.grants {id : UInt64} (h : Move Q id l l') (hfresh : id ∉ l.grants) {g : Grant}
    (hg : l.grants[a]? = some g) : l'.grants[a]? = some g := by
  cases h with
  | grant g' nonce hid =>
    have hget : (l.addGrant g' nonce).grants[a]? = if g'.id = a then some g' else l.grants[a]? := Table.get_insert
    rw [hget, if_neg, hg]
    rintro rfl
    exact hfresh (hid ▸ Table.mem_iff.2 ⟨g, hg⟩)
  | pass => exact hg
  | control stops resumes revoked => exact hg
  | commit row => exact hg
  | intent row hid ho hs hg' hq => exact hg
  | settle i row st disk hrow ht hst => exact hg

theorem Advances.grants {s s' : List RecordView × Ledger} (h : Advances c Q s s') (hl : Consistent c s.1 s.2)
    {g : Grant} (hg : s.2.grants[a]? = some g) : s'.2.grants[a]? = some g := by
  induction h with
  | refl => exact hg
  | tail hs hadv ih =>
    obtain ⟨⟨r, hJ, hr, hm⟩, hinc⟩ := hadv
    rw [hJ] at hinc
    exact hm.grants ((hl.advances hs).fresh_grant hinc) ih

/-- Records that are no approved grants leave the index of approved grants alone. -/
theorem approvedByClaim_of_none {rs : List RecordView} (hl : Ledger.fromRecords c J = .ok l)
    (hl' : Ledger.fromRecords c (J ++ rs) = .ok l') (hno : ∀ r ∈ rs, ∀ g, grantOf c r = some g → g.approved = none) :
    l'.approvedByClaim = l.approvedByClaim := by
  induction rs using List.reverseRecOn generalizing l' with
  | nil =>
    rw [List.append_nil, hl] at hl'
    cases Except.ok.inj hl'
    rfl
  | append_singleton rs r ih =>
    rw [← List.append_assoc] at hl'
    obtain ⟨l₀, hl₀, hr⟩ := ledger_snoc_inv hl'
    have ih := ih hl₀ fun r' hr' => hno r' (by simp [hr'])
    cases read_kinds hr with
    | grant g nonce hn hc hg hid hbound =>
      have happ := hno r (by simp) g hg
      simp only [Ledger.addGrant, happ]
      exact ih
    | control stops resumes revoked h => exact ih
    | commit row hn hc hrow => exact ih
    | legacy spent hc => exact ih
    | effect spent intents hc => exact ih

theorem committed_stays {l l' : ReplayLedger} {row : ClaimRow} (h : l.read c r = .ok l') (hne : r.id ≠ i)
    (hrow : l.claims[i]? = some row) (hst : row.state = .committed) : l'.claims[i]? = some row := by
  unfold ReplayLedger.read at h
  split_ifs at h
  · cases Except.ok.inj h
    exact hrow
  split at h
  · cases Except.ok.inj h
    exact hrow
  unfold ReplayLedger.readEffect at h
  split at h
  · cases Except.ok.inj h
    exact hrow
  split at h
  · cases h
  unfold ReplayLedger.readValue at h
  split_ifs at h
  · unfold ReplayLedger.readAccepted at h
    simp only [Result.bind_ok] at h
    obtain ⟨_, -, _, -, _, -, _, -, _, -, _, -, _, -, h⟩ := h
    cases Except.ok.inj h
    rw [Table.get_insert, if_neg hne, hrow]
  · rw [Result.bind_ok] at h
    obtain ⟨j, -, h⟩ := h
    split at h
    · cases h
    · rename_i row₀ hrow₀
      rw [Result.bind_ok] at h
      obtain ⟨row₁, hphase, h⟩ := h
      cases Except.ok.inj h
      rw [Table.get_insert]
      split_ifs with hj
      · -- no phase follows a commit
        subst hj
        rw [hrow] at hrow₀
        cases Option.some.inj hrow₀
        have hnone : ∀ phase, ReplayLedger.next phase row.state = none := by
          intro phase
          rw [hst]
          unfold ReplayLedger.next
          split <;> simp_all
        unfold ReplayLedger.readPhase at hphase
        rw [if_neg (by simp [hst]), hnone] at hphase
        cases hphase
      · exact hrow

theorem claims_stay {rs : List RecordView} {rl rl' : ReplayLedger} {row : ClaimRow}
    (hl : ReplayLedger.fromRecords c J = .ok rl) (hl' : ReplayLedger.fromRecords c (J ++ rs) = .ok rl')
    (hi : Increasing (J ++ rs)) (hseen : ∃ r ∈ J, r.id = i) (hrow : rl.claims[i]? = some row)
    (hst : row.state = .committed) : rl'.claims[i]? = some row := by
  obtain ⟨r₀, hr₀, rfl⟩ := hseen
  induction rs using List.reverseRecOn generalizing rl' with
  | nil =>
    rw [List.append_nil, hl] at hl'
    cases Except.ok.inj hl'
    exact hrow
  | append_singleton rs r ih =>
    rw [← List.append_assoc] at hl' hi
    obtain ⟨l₀, h0, h1⟩ := fromRecords_snoc_inv hl'
    have hlt : r₀.id < r.id := hi.id_lt r₀ (by simp [hr₀])
    refine committed_stays h1 ?_ (ih h0 hi.left) hst
    intro he
    rw [he] at hlt
    exact UInt64.lt_irrefl _ hlt

end Keeps

/-! ## Submissions under way -/

def ClaimHeld (key : ApprovalIdentity → String) (rl : ReplayLedger) (u : Submit) : Prop :=
  ∃ row, rl.claims[u.claim]? = some row ∧ row.keys = claimKeys key u.identity

def ClaimCommitted (key : ApprovalIdentity → String) (rl : ReplayLedger) (u : Submit) (e : CommitEvidence) : Prop :=
  ∃ row, rl.claims[u.claim]? = some row ∧ row.keys = claimKeys key u.identity ∧ row.state = .committed ∧
    row.evidence = some e

def submittedGrant (key : ApprovalIdentity → String) (u : Submit) (e : CommitEvidence) (prior : Option String)
    (n : UInt64) : Grant :=
  approvedGrant n ((([e.cxPromotion, e.cxEvidence, u.claim].filter (· ≠ 0)) ++ [0, 0, 0, 0]).take 4)
    u.identity.workspace u.identity.path u.identity.contentSha256 u.identity.approver
    (Path.join u.identity.workspace u.identity.path) prior (grantIds u.identity)
    (grantLink key u.identity u.claim e) e.composeProposalSha256

def Stands (key : ApprovalIdentity → String) (l : Ledger) (rl : ReplayLedger) (u : Submit) : Prop :=
  match u.stage with
  | .claimed => ClaimHeld key rl u ∧ l.approvedByClaim[u.claim]? = none
  | .committed e => ClaimCommitted key rl u e ∧ l.approvedByClaim[u.claim]? = none
  | .granted e n => ClaimCommitted key rl u e ∧ l.approvedByClaim[u.claim]? = some [n] ∧
      ∃ prior, l.grants[n]? = some (submittedGrant key u e prior n)

/-- What holds of the journal and the submissions after any turns. -/
structure Standing (c : Codec) (key : ApprovalIdentity → String) (s : Office) (l : Ledger) (rl : ReplayLedger) :
    Prop where
  ledger : Consistent c s.journal l
  replay : ReplayLedger.fromRecords c s.journal = .ok rl
  named : ∀ (i : UInt64) (gs : List UInt64), l.approvedByClaim[i]? = some gs → ∃ r ∈ s.journal, r.id = i
  distinct : (s.submits.map Submit.claim).Nodup
  seen : ∀ u ∈ s.submits, ∃ r ∈ s.journal, r.id = u.claim
  stands : ∀ u ∈ s.submits, Stands key l rl u

section Standing

variable {c : Codec} {key : ApprovalIdentity → String} {J J' : List RecordView} {us : List Submit} {l l' : Ledger}
variable {rl rl' : ReplayLedger}

/-- A claim stays with its keys, and committed with its evidence, when the journal grows. -/
theorem Stands.mono {u : Submit} {rs : List RecordView} (h : Stands key l rl u) (hrl : ReplayLedger.fromRecords c J = .ok rl)
    (hrl' : ReplayLedger.fromRecords c (J ++ rs) = .ok rl') (hi : Increasing (J ++ rs))
    (hseen : ∃ r ∈ J, r.id = u.claim) (happ : l'.approvedByClaim[u.claim]? = l.approvedByClaim[u.claim]?)
    (hgr : ∀ (a : UInt64) (g : Grant), l.grants[a]? = some g → l'.grants[a]? = some g) : Stands key l' rl' u := by
  have hcom : ∀ e, ClaimCommitted key rl u e → ClaimCommitted key rl' u e := by
    rintro e ⟨row, hrow, hk, hst, he⟩
    exact ⟨row, claims_stay hrl hrl' hi hseen hrow hst, hk, hst, he⟩
  unfold Stands at h ⊢
  rw [happ]
  cases hs : u.stage with
  | claimed =>
    rw [hs] at h
    obtain ⟨⟨row, hrow, hk⟩, hnone⟩ := h
    obtain ⟨row', hrow', hk'⟩ := fromRecords_keeps hrl hrl' hi hrow
    exact ⟨⟨row', hrow', hk'.trans hk⟩, hnone⟩
  | committed e =>
    rw [hs] at h
    exact ⟨hcom e h.1, h.2⟩
  | granted e n =>
    rw [hs] at h
    obtain ⟨hc, hone, prior, hg⟩ := h
    exact ⟨hcom e hc, hone, prior, hgr _ _ hg⟩

theorem Standing.call (hc : c.Lawful) (h : Standing c key ⟨J, us⟩ l rl) (hstep : Next c key (fun _ _ => True) J J')
    (hno : ∀ rs, J' = J ++ rs → ∀ r ∈ rs, ∀ g, grantOf c r = some g → g.approved = none) :
    ∃ l' rl', Standing c key ⟨J', us⟩ l' rl' ∧ l'.approvedByClaim = l.approvedByClaim := by
  obtain ⟨rs, rfl⟩ := hstep.1.isPrefix hc
  obtain ⟨l', hadv⟩ := step_advances hc hstep.1 hstep.2 h.ledger
  obtain ⟨rl', hrl'⟩ := step_reads hc hstep.1 h.ledger.increasing ⟨rl, h.replay⟩
  have hcons := h.ledger.advances hadv
  have happ := approvedByClaim_of_none h.ledger.reads hcons.reads (hno rs rfl)
  have hmem : ∀ i : UInt64, (∃ r ∈ J, r.id = i) → ∃ r ∈ J ++ rs, r.id = i := by
    rintro i ⟨r, hr, hid⟩
    exact ⟨r, by simp [hr], hid⟩
  refine ⟨l', rl', ⟨hcons, hrl', ?_, h.distinct, fun u hu => hmem _ (h.seen u hu), ?_⟩, happ⟩
  · intro i gs hgs
    rw [happ] at hgs
    exact hmem i (h.named i gs hgs)
  · intro u hu
    exact (h.stands u hu).mono h.replay hrl' hstep.2 (h.seen u hu) (by rw [happ])
      fun a g hg => Advances.grants hadv h.ledger hg

theorem no_grant_of_silent (h : Extends (EffectSilent c) J J') :
    ∀ rs, J' = J ++ rs → ∀ r ∈ rs, ∀ g, grantOf c r = some g → g.approved = none := by
  obtain ⟨rs', hJ, hrs⟩ := h
  rintro rs rfl r hr g hg
  rw [List.append_cancel_left hJ] at hr
  have hnone : grantOf c r = none := by
    rw [grantOf, hrs r hr {}]
    rfl
  rw [hnone] at hg
  cases hg

theorem Standing.claimed (hc : c.Lawful) {d : Disk} {alive : UInt32 → UInt64 → Bool} {me : Executor}
    {id : ApprovalIdentity} {i : UInt64} (h : Standing c key ⟨J, us⟩ l rl)
    (hinc : Increasing (claim c d alive me (claimKeys key id) J).1)
    (hok : (claim c d alive me (claimKeys key id) J).2 = .ok i) :
    ∃ l' rl', Standing c key ⟨(claim c d alive me (claimKeys key id) J).1, ⟨i, id, .claimed⟩ :: us⟩ l' rl' := by
  obtain ⟨l', rl', h', happ⟩ := h.call hc ⟨.claim d alive me _, hinc⟩ (no_grant_of_silent (claim_silent hc))
  obtain ⟨r, hJ, rfl, hk⟩ := claim_ok hc hok
  rw [hJ] at h' hinc ⊢
  have hfresh : ¬ ∃ r' ∈ J, r'.id = r.id := by
    rintro ⟨r', hr', he⟩
    exact absurd (he ▸ hinc.id_lt r' hr') (UInt64.lt_irrefl _)
  obtain ⟨rl₀, h0, h1⟩ := fromRecords_snoc_inv h'.replay
  obtain ⟨row, hrow, hkeys⟩ := read_accepts hk h1
  have hnone : l'.approvedByClaim[r.id]? = none := by
    rcases hgs : l'.approvedByClaim[r.id]? with _ | gs
    · rfl
    · rw [happ] at hgs
      exact absurd (h.named _ gs hgs) hfresh
  refine ⟨l', rl', h'.ledger, h'.replay, h'.named, ?_, ?_, ?_⟩
  · refine List.nodup_cons.2 ⟨fun hmem => ?_, h'.distinct⟩
    obtain ⟨u, hu, he⟩ := List.mem_map.1 hmem
    obtain ⟨r', hr', hid⟩ := h.seen u hu
    exact hfresh ⟨r', hr', hid.trans he⟩
  · intro u hu
    rcases List.mem_cons.1 hu with rfl | hu
    · exact ⟨r, by simp, rfl⟩
    · exact h'.seen u hu
  · intro u hu
    rcases List.mem_cons.1 hu with rfl | hu
    · exact ⟨⟨row, hrow, hkeys⟩, hnone⟩
    · exact h'.stands u hu

theorem commit_ok (hc : c.Lawful) {d : Disk} {me : Executor} {i n : UInt64} {e : CommitEvidence}
    (h : (commit c d me i e J).2 = .ok n) :
    ∃ rl rl' row row', ReplayLedger.fromRecords c J = .ok rl ∧ rl.claims[i]? = some row ∧
      ReplayLedger.fromRecords c (commit c d me i e J).1 = .ok rl' ∧ rl'.claims[i]? = some row' ∧
      row'.keys = row.keys ∧ row'.state = .committed ∧ row'.evidence = some e := by
  unfold commit step at h ⊢
  obtain ⟨rl, link, text, hl, hdec, hJ⟩ := call_ok h
  split at hdec
  · cases hdec
  rename_i row hrow
  rw [Result.guard_ok, Result.guard_ok] at hdec
  obtain ⟨-, hst, hdec⟩ := hdec
  cases Except.ok.inj hdec
  rw [ne_eq, not_not] at hst
  obtain ⟨row', hst', hk', -, hev', hread⟩ := read_phase hc .committed (Replay.flat_commitText (i := i) (e := e)) hrow
    (by rw [hst]; rfl) (fun _ => ⟨e, rfl⟩) n
  refine ⟨rl, { rl with claims := rl.claims.insert i row' }, row, row', hl, hrow, ?_, ?_, hk', hst', hev' e rfl rfl⟩
  · rw [hJ]
    exact Replay.Reads.snoc hl hread
  · rw [Table.get_insert, if_pos rfl]

theorem Standing.advance {u u' : Submit} {pre post : List Submit} (h : Standing c key ⟨J, pre ++ u :: post⟩ l rl)
    (hclaim : u'.claim = u.claim) (hu : Stands key l rl u') : Standing c key ⟨J, pre ++ u' :: post⟩ l rl := by
  refine ⟨h.ledger, h.replay, h.named, ?_, ?_, ?_⟩
  · have hd := h.distinct
    simp only [List.map_append, List.map_cons, hclaim] at hd ⊢
    exact hd
  · intro v hv
    rcases List.mem_append.1 hv with hv | hv
    · exact h.seen v (by simp [hv])
    · rcases List.mem_cons.1 hv with rfl | hv
      · rw [hclaim]
        exact h.seen u (by simp)
      · exact h.seen v (by simp [hv])
  · intro v hv
    rcases List.mem_append.1 hv with hv | hv
    · exact h.stands v (by simp [hv])
    · rcases List.mem_cons.1 hv with rfl | hv
      · exact hu
      · exact h.stands v (by simp [hv])

theorem Standing.sublist {us' : List Submit} (h : Standing c key ⟨J, us⟩ l rl) (hs : us'.Sublist us) :
    Standing c key ⟨J, us'⟩ l rl :=
  ⟨h.ledger, h.replay, h.named, h.distinct.sublist (hs.map _), fun u hu => h.seen u (hs.subset hu),
    fun u hu => h.stands u (hs.subset hu)⟩

theorem Standing.committed (hc : c.Lawful) {d : Disk} {me : Executor} {id : ApprovalIdentity} {i n : UInt64}
    {e : CommitEvidence} {pre post : List Submit} (h : Standing c key ⟨J, pre ++ ⟨i, id, .claimed⟩ :: post⟩ l rl)
    (hinc : Increasing (commit c d me i e J).1) (hok : (commit c d me i e J).2 = .ok n) :
    ∃ l' rl', Standing c key ⟨(commit c d me i e J).1, pre ++ ⟨i, id, .committed e⟩ :: post⟩ l' rl' := by
  have hsilent : Extends (EffectSilent c) J (commit c d me i e J).1 :=
    step_silent hc ⟨Replay.flat_commitText.1, rfl, rfl, rfl⟩
  obtain ⟨l', rl', h', -⟩ := h.call hc ⟨.commit d me i e, hinc⟩ (no_grant_of_silent hsilent)
  obtain ⟨rl₀, rl₁, row, row', hl, hrow, hl', hrow', hk, hst, hev⟩ := commit_ok hc hok
  have hstands : Stands key l' rl' ⟨i, id, .claimed⟩ := h'.stands _ (by simp)
  obtain ⟨⟨row₂, hrow₂, hk₂⟩, hnone⟩ := hstands
  have hsame : rl₁ = rl' := by
    have := h'.replay
    rw [hl'] at this
    exact Except.ok.inj this
  subst hsame
  rw [hrow'] at hrow₂
  cases Option.some.inj hrow₂
  refine ⟨l', rl₁, h'.advance rfl ?_⟩
  exact ⟨⟨row', hrow', hk₂, hst, hev⟩, hnone⟩

/-! ## The grant -/

theorem command_cases (d : Disk) (J : List RecordView) (kind : NoteKind)
    (decide : List RecordView → Except String (List UInt64 × Value)) :
    (command c d J kind decide).1 = J ∧ (∀ n, (command c d J kind decide).2 ≠ .ok n) ∨
      ∃ links text id, decide J = .ok (links, text) ∧ (∀ n, (command c d J kind decide).2 = .ok n → n = id) ∧
        (command c d J kind decide).1 = J ++ [hostNote id kind (links.filter (· ≠ 0)) (c.print text)] := by
  unfold command
  rcases withHome_cases d J _ with ⟨hJ, why, herr⟩ | ⟨hJ, hok⟩
  · exact Or.inl ⟨hJ, fun n hn => by rw [herr] at hn; cases hn⟩
  rw [hJ]
  rcases hd : decide J with e | ⟨links, text⟩
  · rw [hd] at hok
    exact Or.inl ⟨rfl, fun n hn => by cases hok n hn⟩
  rw [hd] at hok
  dsimp only at hok ⊢
  unfold appendEffect at hok ⊢
  cases ha : d.note 0 with
  | refused why =>
    rw [ha] at hok
    exact Or.inl ⟨rfl, fun n hn => by cases hok n hn⟩
  | written id =>
    rw [ha] at hok
    exact Or.inr ⟨links, text, id, rfl, fun n hn => (Except.ok.inj (hok n hn)).symm, rfl⟩
  | unread id why =>
    rw [ha] at hok
    exact Or.inr ⟨links, text, id, rfl, fun n hn => (by cases hok n hn), rfl⟩

/-- What writing the grant can leave: nothing, or the record that reads back as the grant. -/
theorem submitGrant_cases (hc : c.Lawful) (d : Disk) (w : World) (allen base : Option String) (u : Submit)
    (e : CommitEvidence) (J : List RecordView) :
    (submitGrant c key d w allen base u.identity u.claim e J).1 = J ∧
        (∀ n, (submitGrant c key d w allen base u.identity u.claim e J).2 ≠ .ok n) ∨
      ∃ r prior, (submitGrant c key d w allen base u.identity u.claim e J).1 = J ++ [r] ∧
        (∀ n, (submitGrant c key d w allen base u.identity u.claim e J).2 = .ok n → n = r.id) ∧
        ReplaySilent c r ∧
        ∀ l : Ledger, l.read c r = .ok (l.addGrant (submittedGrant key u e prior r.id) none) := by
  unfold submitGrant writeApprovedGrant
  rcases command_cases d J .authorization _ with h | ⟨links, text, id, hdec, hok, hJ⟩
  · exact Or.inl h
  · simp only [Result.bind_ok, Result.guard_ok] at hdec
    obtain ⟨held, -, prior, -, -, hdec⟩ := hdec
    cases Except.ok.inj hdec
    refine Or.inr ⟨_, prior, hJ, hok, authorization_silent id _ _, fun l => ?_⟩
    obtain ⟨v, hv, hget⟩ := hc.reads_back flat_approvedText
    rw [read_authorizationNote, hv]
    exact read_approvedText hget

theorem addGrant_approvedByClaim {u : Submit} {e : CommitEvidence} {prior : Option String} {n : UInt64}
    (hnone : l.approvedByClaim[u.claim]? = none) (x : UInt64) :
    (l.addGrant (submittedGrant key u e prior n) none).approvedByClaim[x]? =
      if u.claim = x then some [n] else l.approvedByClaim[x]? := by
  have hpush : (l.addGrant (submittedGrant key u e prior n) none).approvedByClaim =
      l.approvedByClaim.insert u.claim ((l.approvedByClaim[u.claim]?.getD []) ++ [n]) := rfl
  rw [hpush, Table.get_insert, hnone]
  rfl

/-- The record of a grant, written by the submission of its claim. -/
theorem Standing.grant {u : Submit} {e : CommitEvidence} {pre post : List Submit} {r : RecordView}
    {prior : Option String} (h : Standing c key ⟨J, pre ++ u :: post⟩ l rl) (hu : u.stage = .committed e)
    (hinc : Increasing (J ++ [r])) (hs : ReplaySilent c r)
    (hread : l.read c r = .ok (l.addGrant (submittedGrant key u e prior r.id) none)) :
    Standing c key ⟨J ++ [r], pre ++ { u with stage := .granted e r.id } :: post⟩
      (l.addGrant (submittedGrant key u e prior r.id) none) rl := by
  have hcons : Consistent c (J ++ [r]) (l.addGrant (submittedGrant key u e prior r.id) none) :=
    h.ledger.addGrant hinc rfl hread
  have hrl : ReplayLedger.fromRecords c (J ++ [r]) = .ok rl := reads_silent (.single hs) h.replay
  obtain ⟨hcom, hnone⟩ : ClaimCommitted key rl u e ∧ l.approvedByClaim[u.claim]? = none := by
    have hstands := h.stands u (by simp)
    rw [Stands, hu] at hstands
    exact hstands
  have hgr : ∀ (a : UInt64) (g : Grant), l.grants[a]? = some g →
      (l.addGrant (submittedGrant key u e prior r.id) none).grants[a]? = some g := by
    intro a g hg
    have hm : Move (fun _ _ => True) r.id l (l.addGrant (submittedGrant key u e prior r.id) none) := .grant _ _ rfl
    exact hm.grants (h.ledger.fresh_grant hinc) hg
  have hmem : ∀ i : UInt64, (∃ r' ∈ J, r'.id = i) → ∃ r' ∈ J ++ [r], r'.id = i := by
    rintro i ⟨r', hr', hid⟩
    exact ⟨r', by simp [hr'], hid⟩
  have hne : ∀ v, v ∈ pre ∨ v ∈ post → u.claim ≠ v.claim := by
    have hd := h.distinct
    rw [List.map_append, List.map_cons, List.nodup_middle, List.nodup_cons] at hd
    intro v hv he
    exact hd.1 (he ▸ by rcases hv with hv | hv <;> simp [List.mem_map_of_mem (f := Submit.claim) hv])
  have hother : ∀ v, v ∈ pre ∨ v ∈ post →
      Stands key (l.addGrant (submittedGrant key u e prior r.id) none) rl v := by
    intro v hv
    have hin : v ∈ pre ++ u :: post := by rcases hv with hv | hv <;> simp [hv]
    refine (h.stands v hin).mono h.replay hrl hinc (h.seen v hin) ?_ hgr
    rw [addGrant_approvedByClaim hnone, if_neg (hne v hv)]
  refine ⟨hcons, hrl, ?_, ?_, ?_, ?_⟩
  · intro i gs hgs
    rw [addGrant_approvedByClaim hnone] at hgs
    split_ifs at hgs with hi
    · exact hi ▸ hmem _ (h.seen u (by simp))
    · exact hmem i (h.named i gs hgs)
  · have hd := h.distinct
    simp only [List.map_append, List.map_cons] at hd ⊢
    exact hd
  · intro v hv
    rcases List.mem_append.1 hv with hv | hv
    · exact hmem _ (h.seen v (by simp [hv]))
    · rcases List.mem_cons.1 hv with rfl | hv
      · exact hmem _ (h.seen u (by simp))
      · exact hmem _ (h.seen v (by simp [hv]))
  · intro v hv
    rcases List.mem_append.1 hv with hv | hv
    · exact hother v (Or.inl hv)
    · rcases List.mem_cons.1 hv with rfl | hv
      · refine ⟨hcom, ?_, prior, ?_⟩
        · rw [addGrant_approvedByClaim hnone, if_pos rfl]
        · exact ExtTreeMap.getElem?_insert_self
      · exact hother v (Or.inr hv)

/-- **Every turn keeps the standing of the journal and the submissions.** -/
theorem Standing.shift (hc : c.Lawful) {s s' : Office} (h : Standing c key s l rl) (hs : Shift c key s s') :
    ∃ l' rl', Standing c key s' l' rl' := by
  cases hs with
  | call J J' us hstep hno =>
    obtain ⟨l', rl', h', -⟩ := h.call hc hstep hno
    exact ⟨l', rl', h'⟩
  | claimed d alive me id i J us hinc hok => exact h.claimed hc hinc hok
  | committed d me id i n e J pre post hinc hok => exact h.committed hc hinc hok
  | granted d w allen base id i n e J pre post hinc hok =>
    rcases submitGrant_cases hc d w allen base ⟨i, id, .committed e⟩ e J with ⟨-, hno⟩ | ⟨r, prior, hJ, hn, hs, hread⟩
    · exact absurd hok (hno n)
    · rw [hJ] at hinc ⊢
      rw [hn n hok]
      exact ⟨_, _, h.grant rfl hinc hs (hread l)⟩
  | ungranted d w allen base id i e J pre post hinc =>
    rcases submitGrant_cases hc d w allen base ⟨i, id, .committed e⟩ e J with ⟨hJ, -⟩ | ⟨r, prior, hJ, -, hs, hread⟩
    · rw [hJ]
      exact ⟨l, rl, h.sublist (by simp)⟩
    · rw [hJ] at hinc ⊢
      exact ⟨_, _, (h.grant rfl hinc hs (hread l)).sublist (by simp)⟩
  | lost J us us' hsub => exact ⟨l, rl, h.sublist hsub⟩

/-! ## The submission's grant and its check -/

/-- At most three links, zeros dropped, four slots: no link is lost. -/
theorem mem_links {xs : List UInt64} (hx : xs.length ≤ 3) {x : UInt64} (h : x ∈ xs) :
    x ∈ ((xs.filter (· ≠ 0)) ++ [0, 0, 0, 0]).take 4 := by
  have hlen : (xs.filter (· ≠ 0)).length ≤ 3 := (List.length_filter_le _ _).trans hx
  rw [List.take_append, List.mem_append]
  by_cases h0 : x = 0
  · right
    obtain ⟨k, hk⟩ : ∃ k, 4 - (xs.filter (· ≠ 0)).length = k + 1 := ⟨3 - (xs.filter (· ≠ 0)).length, by omega⟩
    rw [hk]
    simp [h0]
  · left
    rw [List.take_of_length_le (by omega)]
    simp [h, h0]

theorem Standing.backing {s : Office} {u : Submit} {e : CommitEvidence} {n : UInt64} (h : Standing c key s l rl)
    (hu : u ∈ s.submits) (hst : u.stage = .granted e n) :
    ∃ g, l.grants[n]? = some g ∧ checkApprovedBacking c key l g s.journal = .ok () := by
  have hstands := h.stands u hu
  rw [Stands, hst] at hstands
  obtain ⟨⟨row, hrow, hkeys, hcom, hev⟩, hone, prior, hg⟩ := hstands
  refine ⟨_, hg, ?_⟩
  have hlinks : ([e.cxPromotion, e.cxEvidence, u.claim].all fun x =>
      x ∈ (submittedGrant key u e prior n).links) = true := by
    rw [List.all_eq_true]
    intro x hx
    exact decide_eq_true (mem_links (by simp) hx)
  have hag : (submittedGrant key u e prior n).approved = some ⟨grantLink key u.identity u.claim e, u.identity⟩ := rfl
  unfold checkApprovedBacking
  rw [hag]
  simp only [Result.guard_ok]
  refine ⟨?_, ?_, ?_⟩
  · have hclaim : (grantLink key u.identity u.claim e).replayClaim = u.claim := rfl
    rw [hclaim, hone]
    simp
  · have htarget : (submittedGrant key u e prior n).target = some (Path.join u.identity.workspace u.identity.path) := rfl
    have hws : (submittedGrant key u e prior n).workspace = some u.identity.workspace := rfl
    rw [htarget, hws]
    simp [grantLink, Path.same]
  · have hclaim : (grantLink key u.identity u.claim e).replayClaim = u.claim := rfl
    rw [h.replay, hclaim]
    dsimp only
    rw [hrow]
    dsimp only
    rw [Result.guard_ok]
    refine ⟨?_, rfl⟩
    have hprop : (submittedGrant key u e prior n).proposalSha256 = e.composeProposalSha256 := rfl
    have hall : ([(grantLink key u.identity u.claim e).cxPromotion, (grantLink key u.identity u.claim e).cxEvidence,
        u.claim].all fun x => x ∈ (submittedGrant key u e prior n).links) = true := hlinks
    rw [hcom, hkeys, hev, hprop, hall]
    simp [claimKeys, grantLink]

end Standing

theorem Standing.start {c : Codec} {key : ApprovalIdentity → String} {J₀ : List RecordView} (h0 : Unreserved c J₀) :
    ∃ rl, Standing c key ⟨J₀, []⟩ {} rl := by
  obtain ⟨rl, hrl⟩ := h0.replayReads
  exact ⟨rl, h0.consistent, hrl, by simp, by simp, by simp, by simp⟩

theorem Standing.run {c : Codec} (hc : c.Lawful) {key : ApprovalIdentity → String} {J₀ : List RecordView}
    (h0 : Unreserved c J₀) {s : Office} (h : Relation.ReflTransGen (Shift c key) ⟨J₀, []⟩ s) :
    ∃ l rl, Standing c key s l rl := by
  induction h with
  | refl => exact ⟨{}, Standing.start h0⟩
  | tail _ hshift ih =>
    obtain ⟨l, rl, hs⟩ := ih
    exact hs.shift hc hshift

theorem Shift.history {c : Codec} {key : ApprovalIdentity → String} {s s' : Office}
    (h : Relation.ReflTransGen (Shift c key) s s') :
    History c key (fun _ _ => True) s.journal s'.journal := by
  induction h with
  | refl => exact .refl
  | tail _ hshift ih =>
    cases hshift with
    | call J J' us hstep hno => exact ih.tail hstep
    | claimed d alive me id i J us hinc hok => exact ih.tail ⟨.claim d alive me _, hinc⟩
    | committed d me id i n e J pre post hinc hok => exact ih.tail ⟨.commit d me i e, hinc⟩
    | granted d w allen base id i n e J pre post hinc hok =>
      exact ih.tail ⟨.approvedGrant d w allen _ _ _ _ _ _ _ base, hinc⟩
    | ungranted d w allen base id i e J pre post hinc =>
      exact ih.tail ⟨.approvedGrant d w allen _ _ _ _ _ _ _ base, hinc⟩
    | lost J us us' hsub => exact ih

/-- **Every intent is backed, and every submission's grant passes its own check.** In any history of submissions and
other calls over a journal that started without reserved notes: in front of an intent record stands its grant, with the
intent's path, content, proposal and target, and behind the grant a compose-commit record or a committed claim; and the
grant of a submission that answered COMMITTED passes the backing check at any later time. -/
theorem intents_and_grants_backed (c : Codec) (hc : c.Lawful) (key : ApprovalIdentity → String) (J₀ : List RecordView)
    (h0 : Unreserved c J₀) (s : Office) (h : Relation.ReflTransGen (Shift c key) ⟨J₀, []⟩ s) :
    (∀ pre r post, s.journal = pre ++ r :: post → ∀ i, intentSays c r = some i →
      ∃ gr ∈ pre, ∃ g, gr.id = i.authorization ∧ grantOf c gr = some g ∧ g.path = i.path ∧
        g.contentSha256 = i.contentSha256 ∧ g.proposalSha256 = i.proposalSha256 ∧ g.target = some i.target ∧
        Backed c key pre g) ∧
      ∀ u ∈ s.submits, ∀ e n, u.stage = .granted e n →
        ∃ l g, Ledger.fromRecords c s.journal = .ok l ∧ l.grants[n]? = some g ∧
          checkApprovedBacking c key l g s.journal = .ok () := by
  constructor
  · intro pre r post hJ i hi
    have hsome : (intentUnder c r).isSome := by
      unfold intentSays at hi
      obtain ⟨a, ha, -⟩ := Option.bind_eq_some_iff.1 hi
      rw [ha]
      rfl
    exact (every_intent_opened hc J₀ h0 (Shift.history h) pre r post hJ hsome).backed hc hi
  · intro u hu e n hst
    obtain ⟨l, rl, hs⟩ := Standing.run hc h0 h
    obtain ⟨g, hg, hcheck⟩ := hs.backing hu hst
    exact ⟨l, g, hs.ledger.reads, hg, hcheck⟩

/-! ## A submission that answers -/

section Forward

variable {c : Codec} {key : ApprovalIdentity → String} {J : List RecordView} {rl : ReplayLedger} {row : ClaimRow}
variable {me : Executor} {n i : UInt64} {e : CommitEvidence}

theorem step_writes {source : ClaimState} {text : Value} (hl : ReplayLedger.fromRecords c J = .ok rl)
    (hJ : J.length ≤ hostRecallMax) (hrow : rl.claims[i]? = some row)
    (hme : (row.executorPid, row.executorStart) = (me.pid, me.start)) (hst : row.state = source) :
    Replay.step c (.writes n) me i source text J = (J ++ [hostNote n .effect [i] (c.print text)], .ok n) := by
  have hledger : Replay.ledger c (.writes n) J = .ok rl := by
    simp [Replay.ledger, Disk.writes, Nat.not_lt.2 hJ, hl]
  unfold Replay.step
  refine call_writes hledger ?_
  simp [hrow, hme, hst]

/-- The first claim of a journal is put in flight and recorded committed. -/
theorem committed_first (hc : c.Lawful) (keys : ClaimKeys) (me : Executor) (e : CommitEvidence) :
    ∃ r₂ r₃, r₂.id = 2 ∧ r₃.id = 3 ∧
      markInFlight c (.writes 2) me 1 [accepting c keys me] = ([accepting c keys me, r₂], .ok 2) ∧
      commit c (.writes 3) me 1 e [accepting c keys me, r₂] = ([accepting c keys me, r₂, r₃], .ok 3) := by
  have hfree : ∀ k ∈ keys.keys, ({} : ReplayLedger).index[k]? = none := by simp
  obtain ⟨index, hread⟩ := read_accepted hc hfree me 1
  have hl₁ : ReplayLedger.fromRecords c [accepting c keys me] = .ok _ := Replay.Reads.snoc (J := []) rfl hread
  have hrow₁ : ((∅ : ExtTreeMap UInt64 ClaimRow).insert 1
      ⟨1, keys, me.pid, me.start, .accepted, 1, none, none, none⟩)[(1 : UInt64)]? = some _ :=
    ExtTreeMap.getElem?_insert_self
  obtain ⟨row₂, hst₂, -, hme₂, -, hread₂⟩ := read_phase hc .inFlight (flat_inFlightText (i := 1)) (l := ⟨_, index⟩) hrow₁
    rfl (by simp) 2
  have hl₂ : ReplayLedger.fromRecords c ([accepting c keys me] ++
      [hostNote 2 .effect [1] (c.print (phaseText "in_flight" 1 []))]) = .ok _ := Replay.Reads.snoc hl₁ hread₂
  refine ⟨hostNote 2 .effect [1] (c.print (phaseText "in_flight" 1 [])), _, rfl, ?_,
    step_writes hl₁ (by simp [hostRecallMax]) hrow₁ rfl rfl,
    step_writes hl₂ (by simp [hostRecallMax]) ExtTreeMap.getElem?_insert_self hme₂ hst₂⟩
  rfl

theorem submitGrant_writes (key : ApprovalIdentity → String) (id : ApprovalIdentity) (digest : String) (J : List RecordView) :
    ∃ r, r.id = n ∧ submitGrant c key (.writes n) (.seeing digest) none none id i e J = (J ++ [r], .ok n) := by
  refine ⟨hostNote n .authorization ([e.cxPromotion, e.cxEvidence, i].filter (· ≠ 0))
    (c.print (approvedText id.workspace id.path id.contentSha256 id.approver (Path.join id.workspace id.path)
      (some digest) (grantIds id) (grantLink key id i e) e.composeProposalSha256 {})), rfl, rfl⟩

end Forward

namespace OneApproval

def key : ApprovalIdentity → String := fun _ => "0123456789abcdef0123456789abcdef0123456789abcdef0123456789abcdef"

def identity : ApprovalIdentity := ⟨"trace", "request", "approval", "op", "f", "new", "desk-p", "k0", "/w"⟩

theorem keys_check : (claimKeys key identity).check = .ok () := by
  unfold ClaimKeys.check
  rw [if_neg (by decide), if_neg (by decide)]

def evidence : CommitEvidence := ⟨"p", 10, 11, 9⟩

/-- One approval is claimed, put in flight, committed and granted. -/
theorem run {c : Codec} (hc : c.Lawful) : ∃ J, Relation.ReflTransGen (Shift c key) ⟨[], []⟩ ⟨J, [⟨1, identity, .granted evidence 4⟩]⟩ := by
  let me : Executor := ⟨7, 70⟩
  have hclaim := claim_first (c := c) keys_check (show me.start ≠ 0 by decide)
  obtain ⟨r₂, r₃, hid₂, hid₃, hfly, hcom⟩ := committed_first hc (claimKeys key identity) me evidence
  obtain ⟨r₄, hid₄, hgrant⟩ := submitGrant_writes (c := c) key (n := 4) (i := 1) (e := evidence) identity "a"
    [accepting c (claimKeys key identity) me, r₂, r₃]
  have hid₁ : (accepting c (claimKeys key identity) me).id = 1 := rfl
  have h1 := @Shift.claimed c key (.writes 1) (fun _ _ => true) me identity 1 [] []
  rw [hclaim] at h1
  have h2 : Shift c key ⟨[accepting c (claimKeys key identity) me], [⟨1, identity, .claimed⟩]⟩
      ⟨(markInFlight c (.writes 2) me 1 [accepting c (claimKeys key identity) me]).1,
        [⟨1, identity, .claimed⟩]⟩ := by
    refine .call _ _ _ ⟨.markInFlight (.writes 2) me 1, ?_⟩ (no_grant_of_silent ?_)
    · rw [hfly]
      simp [Increasing, hid₁, hid₂]
    · exact step_silent hc ⟨(Replay.flat_inFlightText (i := 1)).1, rfl, rfl, rfl⟩
  rw [hfly] at h2
  have h3 := @Shift.committed c key (.writes 3) me identity 1 3 evidence
    [accepting c (claimKeys key identity) me, r₂] [] []
  rw [hcom] at h3
  have h4 := @Shift.granted c key (.writes 4) (.seeing "a") none none identity 1 4 evidence
    [accepting c (claimKeys key identity) me, r₂, r₃] [] []
  rw [hgrant] at h4
  have h₁ := h1 (List.pairwise_singleton _ _) rfl
  have h₃ := h3 (by simp [Increasing, hid₁, hid₂, hid₃]) rfl
  have h₄ := h4 (by simp [Increasing, hid₁, hid₂, hid₃, hid₄]) rfl
  exact ⟨_, (((Relation.ReflTransGen.single h₁).tail h2).tail h₃).tail h₄⟩

end OneApproval

/-- The grant of a submission, checked after the submission has answered. -/
theorem intents_and_grants_backed_submitted : ∃ s, Relation.ReflTransGen (Shift compact OneApproval.key) ⟨[], []⟩ s ∧
    ∃ l g, Ledger.fromRecords compact s.journal = .ok l ∧ l.grants[(4 : UInt64)]? = some g ∧
      checkApprovedBacking compact OneApproval.key l g s.journal = .ok () := by
  obtain ⟨J, hrun⟩ := OneApproval.run compact_lawful
  refine ⟨_, hrun, ?_⟩
  exact (intents_and_grants_backed compact compact_lawful OneApproval.key [] .nil _ hrun).2
    ⟨1, OneApproval.identity, .granted OneApproval.evidence 4⟩ (by simp) OneApproval.evidence 4 rfl

/-! ## A commit record names no approver -/

theorem grantOf_effect {c : Codec} {r : RecordView} (hn : r.note = some "effect") : grantOf c r = none := by
  unfold grantOf
  rcases h : ({} : Ledger).read c r with e | l
  · rfl
  · dsimp only
    cases read_kinds h with
    | grant g nonce hn' hc hg hid hbound =>
      rw [hn] at hn'
      simp at hn'
    | control stops resumes revoked h => rfl
    | commit row hn hc hrow => rfl
    | legacy spent hc => rfl
    | effect spent intents hc => rfl

theorem commitRowOf_authorization {c : Codec} {r : RecordView} (hn : r.note = some "authorization") :
    commitRowOf c r = none := by
  unfold commitRowOf
  rcases h : ({} : Ledger).read c r with e | l
  · rfl
  · dsimp only
    cases read_kinds h with
    | commit row hn' hc hrow =>
      rw [hn] at hn'
      simp at hn'
    | control stops resumes revoked h => rfl
    | grant g nonce hn hc hg hid hbound => rfl
    | legacy spent hc => rfl
    | effect spent intents hc => rfl

def approverOf (c : Codec) (kind : String) (r : RecordView) : Option String :=
  (bodyOf c kind r).bind fun v => (v.get "approver").bind Value.asStr

namespace NoApprover

variable (c : Codec)

def commitNote : RecordView :=
  hostNote 1 .effect [10, 11] (c.print (commitText "/w" 9 10 11 "p" "f" "new" none {}))

def grantNote : RecordView :=
  hostNote 2 .authorization [1] (c.print (stamp c
    (mintedText Twice.row "op" "/w/f" (some "a") none none) [commitNote c] 1))

def minted : Ledger := Twice.committed.addGrant (Twice.grant 2 "a") none

def intentNote : RecordView :=
  hostNote 3 .effect [2] (c.print (stamp c (intentText (Twice.request 2) (Twice.grant 2 "a") (some "a"))
    [commitNote c, grantNote c] 2))

variable {c}

theorem committed_step : Step c (fun _ => "") (fun _ _ => True) [] [commitNote c] := by
  have hstep : Step c (fun _ => "") (fun _ _ => True) [] _ :=
    .composeCommit (.writes 1) "/w" 9 10 11 "p" "f" "new" none {}
  unfold writeComposeCommit at hstep
  rwa [command_writes _ _ _ rfl] at hstep

theorem checks : minted.checkIntent (Twice.request 2) (some "a") = .ok (Twice.grant 2 "a") ∧
    checkMintedBacking minted (Twice.grant 2 "a") = .ok () := ⟨by rfl, by rfl⟩

section Lawful

variable (hc : c.Lawful)
include hc

theorem reads_committed : Ledger.fromRecords c [commitNote c] = .ok Twice.committed := by
  have hflat : (commitText "/w" 9 10 11 "p" "f" "new" none {}).Flat := flat_commitText
  obtain ⟨r, hr, hget⟩ := hc.reads_back hflat
  have hread : ({} : Ledger).read c (commitNote c) = .ok Twice.committed := by
    rw [commitNote, read_effectNote, hr]
    exact read_commitText hget
  unfold Ledger.fromRecords
  rw [List.foldlM_cons, hread]
  rfl

theorem grant_read (l : Ledger) : l.read c (grantNote c) = .ok (l.addGrant (Twice.grant 2 "a") none) := by
  have hflat : (mintedText Twice.row "op" "/w/f" (some "a") none none).Flat := flat_mintedText
  obtain ⟨r, hr, hget⟩ := hc.reads_back (hflat.set (plain_toJson (inherit c [commitNote c] 1)))
  rw [grantNote, read_authorizationNote, stamp, hr]
  exact read_mintedText hget

theorem reads_minted : Ledger.fromRecords c [commitNote c, grantNote c] = .ok minted := by
  have hsplit : [commitNote c, grantNote c] = [commitNote c] ++ [grantNote c] := rfl
  unfold Ledger.fromRecords
  rw [hsplit, List.foldlM_append, show List.foldlM (Ledger.read c) {} [commitNote c] = _ from reads_committed hc]
  rw [Result.ok_bind, List.foldlM_cons, grant_read hc]
  rfl

theorem minted_step : Step c (fun _ => "") (fun _ _ => True) [commitNote c] [commitNote c, grantNote c] := by
  have hdec := authorizeRecord_mints "a" Twice.mintRequest Twice.row 2 (reads_committed hc) (by simp [hostRecallMax])
    (by decide) rfl (by decide) rfl
    (by simp [Twice.committed])
  have hstep : Step c (fun _ => "") (fun _ _ => True) [commitNote c] _ :=
    .authorize (.writes 2) (.seeing "a") Twice.mintRequest none none
  rwa [show (authorize c (.writes 2) (.seeing "a") Twice.mintRequest none none [commitNote c]).1 = _ from
    command_writes _ _ _ hdec] at hstep

theorem opened_step : Step c (fun _ => "") (fun _ _ => True) [commitNote c, grantNote c]
    [commitNote c, grantNote c, intentNote c] := by
  have hdec := intentRecord_opens (fun _ => "") 3 (Twice.request 2) (reads_minted hc) (by simp [hostRecallMax])
    (g := Twice.grant 2 "a") (by decide) rfl checks.1 checks.2 rfl rfl
  have hstep : Step c (fun _ => "") (fun _ _ => True) [commitNote c, grantNote c] _ :=
    .openIntent (.writes 3) (.seeing "a") (Twice.request 2) fun _ _ _ _ => trivial
  rwa [show (openIntent c (fun _ => "") (.writes 3) (.seeing "a") (Twice.request 2) [commitNote c, grantNote c]).1 = _
    from command_writes _ _ _ hdec] at hstep

theorem grant_of : grantOf c (grantNote c) = some (Twice.grant 2 "a") := by
  rw [grantOf, grant_read hc]
  exact ExtTreeMap.getElem?_insert_self

/-- The proposal is committed, granted by `op` and its effect opened. -/
theorem run : Relation.ReflTransGen (Shift c fun _ => "") ⟨[], []⟩ ⟨[commitNote c, grantNote c, intentNote c], []⟩ := by
  have h1 : Shift c (fun _ => "") ⟨[], []⟩ ⟨[commitNote c], []⟩ := by
    refine .call _ _ _ ⟨committed_step, List.pairwise_singleton _ _⟩ ?_
    rintro rs rfl r hr g hg
    rw [List.mem_singleton.1 hr, grantOf_effect rfl] at hg
    cases hg
  have h2 : Shift c (fun _ => "") ⟨[commitNote c], []⟩ ⟨[commitNote c, grantNote c], []⟩ := by
    refine .call _ _ _ ⟨minted_step hc, by simp [Increasing, commitNote, grantNote, hostNote]⟩ ?_
    intro rs hrs r hr g hg
    obtain rfl : rs = [grantNote c] := (List.cons.inj hrs).2.symm
    rw [List.mem_singleton.1 hr, grant_of hc] at hg
    cases Option.some.inj hg
    rfl
  have h3 : Shift c (fun _ => "") ⟨[commitNote c, grantNote c], []⟩ ⟨[commitNote c, grantNote c, intentNote c], []⟩ := by
    refine .call _ _ _ ⟨opened_step hc, by simp [Increasing, commitNote, grantNote, intentNote, hostNote]⟩ ?_
    intro rs hrs r hr g hg
    obtain rfl : rs = [intentNote c] := (List.cons.inj (List.cons.inj hrs).2).2.symm
    rw [List.mem_singleton.1 hr, grantOf_effect rfl] at hg
    cases hg
  exact ((Relation.ReflTransGen.single h1).tail h2).tail h3

theorem intent_says : intentSays c (intentNote c) = some ⟨2, "p", "f", "/w/f", "new"⟩ := by
  have hflat : (intentText (Twice.request 2) (Twice.grant 2 "a") (some "a")).Flat := flat_intentText
  obtain ⟨v, hv, hget⟩ := hc.reads_back
    (hflat.set (plain_toJson (inherit c [commitNote c, grantNote c] 2)))
  have hbody : bodyOf c "effect" (intentNote c) = some v := by
    simp only [bodyOf, intentNote, hostNote, NoteKind.name, if_true, Option.bind_some, stamp]
    exact hv
  have h1 : v.get "compose_commit" = none := hget _
  have h2 : v.get "phase" = some (.str "intent") := hget _
  have h3 : v.get "authorization" = some (.num 2) := hget _
  have h4 : v.get "proposal_sha256" = some (.str "p") := hget _
  have h5 : v.get "path" = some (.str "f") := hget _
  have h6 : v.get "target" = some (.str "/w/f") := hget _
  have h7 : v.get "content_sha256" = some (.str "new") := hget _
  simp [intentSays, intentUnder, hbody, h1, h2, h3, h4, h5, h6, h7, Value.asStr, Value.asU64]

theorem approver_commit : approverOf c "effect" (commitNote c) = none := by
  have hflat : (commitText "/w" 9 10 11 "p" "f" "new" none {}).Flat := flat_commitText
  obtain ⟨v, hv, hget⟩ := hc.reads_back hflat
  have hbody : bodyOf c "effect" (commitNote c) = some v := by
    simp only [bodyOf, commitNote, hostNote, NoteKind.name, if_true, Option.bind_some]
    exact hv
  have happ : v.get "approver" = none := hget _
  simp [approverOf, hbody, happ]

theorem approver_grant : approverOf c "authorization" (grantNote c) = some "op" := by
  have hflat : (mintedText Twice.row "op" "/w/f" (some "a") none none).Flat := flat_mintedText
  obtain ⟨v, hv, hget⟩ := hc.reads_back (hflat.set (plain_toJson (inherit c [commitNote c] 1)))
  have hbody : bodyOf c "authorization" (grantNote c) = some v := by
    simp only [bodyOf, grantNote, hostNote, NoteKind.name, if_true, Option.bind_some, stamp]
    exact hv
  have happ : v.get "approver" = some (.str (trim "op")) := hget _
  have htrim : trim "op" = "op" := by decide
  simp [approverOf, hbody, happ, Value.asStr, htrim]

end Lawful

end NoApprover

/-- **The approver of a minted grant is backed by nothing.** Not every intent has, behind its grant, a committed claim
or a compose-commit record with the grant's approver: commit records name none. -/
theorem commit_names_no_approver : ¬ ∀ s, Relation.ReflTransGen (Shift compact fun _ => "") ⟨[], []⟩ s →
    ∀ pre r post, s.journal = pre ++ r :: post → ∀ i, intentSays compact r = some i →
      ∃ gr ∈ pre, gr.id = i.authorization ∧ (((grantOf compact gr).bind Grant.approved).isSome ∨
        ∃ br ∈ pre, (commitRowOf compact br).isSome ∧
          approverOf compact "effect" br = approverOf compact "authorization" gr) := by
  intro h
  obtain ⟨gr, hgr, hid, hback⟩ := h _ (NoApprover.run compact_lawful)
    [NoApprover.commitNote compact, NoApprover.grantNote compact] (NoApprover.intentNote compact)
    [] rfl ⟨2, "p", "f", "/w/f", "new"⟩ (NoApprover.intent_says compact_lawful)
  have he : gr = NoApprover.grantNote compact := by
    rcases List.mem_cons.1 hgr with rfl | hgr
    · exact absurd hid (by decide)
    · exact List.mem_singleton.1 hgr
  subst he
  rcases hback with happ | ⟨br, hbr, hrow, happ⟩
  · rw [NoApprover.grant_of compact_lawful] at happ
    cases happ
  · rw [NoApprover.approver_grant compact_lawful] at happ
    rcases List.mem_cons.1 hbr with rfl | hbr
    · rw [NoApprover.approver_commit compact_lawful] at happ
      cases happ
    · rw [List.mem_singleton.1 hbr, commitRowOf_authorization rfl] at hrow
      cases hrow

end SovereignCore.Effects
