import SovereignCore.Effects.Steps
import SovereignCore.Effects.ClaimSteps

/-!
# One journal, every party

The calls that any process may make on a shared compose home, in any order: the effect commands, the replay calls, the
daemon's own records and callers' notes. Each is one locked call, so a history is a sequence of them. The effect ledger
passes over the replay records and the replay ledger over the effect records, so the two ledgers of one journal can be
told about one at a time.

* `Step` : one call; `Next`, `History` : calls on a journal whose record ids grow;
* `step_advances` : the effect ledger; `step_reads` : the replay ledger.
-/

namespace SovereignCore.Effects

open Std SovereignCore.Json

/-- One call on the journal. `Q` is asked of the ledger and the authorization when an intent is to be opened, that is
when every check of the call passes. -/
inductive Step (c : Codec) (key : ApprovalIdentity → String) (Q : Ledger → UInt64 → Prop) (J : List RecordView) :
    List RecordView → Prop
  | authorize (d : Disk) (w : World) (req : MintRequest) (proof : Option DeskProof) (objectiveId : Option String) :
      Step c key Q J (authorize c d w req proof objectiveId J).1
  | openIntent (d : Disk) (w : World) (req : IntentRequest)
      (hq : ∀ l out, Ledger.fromRecords c J = .ok l → intentRecord c key d w req J = .ok out → Q l req.authorization) :
      Step c key Q J (openIntent c key d w req J).1
  | ack (d : Disk) (w : World) (intent : UInt64) (reported : Value) : Step c key Q J (ack c d w intent reported J).1
  | reconcile (d : Disk) (w : Nat → World) (declare : Option ReconcileDeclare) (who : String) :
      Step c key Q J (reconcile c d w declare who J).1
  | control (d : Disk) (action approver : String) (authorization : Option UInt64) :
      Step c key Q J (control c d action approver authorization J).1
  | composeCommit (d : Disk) (workspace : String) (task cxPromotion cxEvidence : UInt64)
      (proposalSha256 path contentSha256 : String) (goalSha256 : Option String) (prov : Provenance) :
      Step c key Q J (writeComposeCommit c d workspace task cxPromotion cxEvidence proposalSha256 path contentSha256
        goalSha256 prov J).1
  | approvedGrant (d : Disk) (w : World) (allen : Option String) (workspace path contentSha256 approver : String)
      (ids : ApprovedIds) (link : ApprovedLink) (proposalSha256 : String) (base : Option String) :
      Step c key Q J (writeApprovedGrant c d w allen workspace path contentSha256 approver ids link proposalSha256
        base J).1
  | claim (d : Disk) (alive : UInt32 → UInt64 → Bool) (me : Replay.Executor) (keys : Replay.ClaimKeys) :
      Step c key Q J (Replay.claim c d alive me keys J).1
  | markInFlight (d : Disk) (me : Replay.Executor) (i : UInt64) : Step c key Q J (Replay.markInFlight c d me i J).1
  | commit (d : Disk) (me : Replay.Executor) (i : UInt64) (e : Replay.CommitEvidence) :
      Step c key Q J (Replay.commit c d me i e J).1
  | fail (d : Disk) (me : Replay.Executor) (i : UInt64) (reason : String) :
      Step c key Q J (Replay.fail c d me i reason J).1
  | notExecuted (d : Disk) (me : Replay.Executor) (i : UInt64) (reason : String) :
      Step c key Q J (Replay.notExecuted c d me i reason J).1
  | uncertain (d : Disk) (me : Replay.Executor) (i : UInt64) (reason : String) :
      Step c key Q J (Replay.uncertain c d me i reason J).1
  | declare (d : Disk) (i : UInt64) (committed : Bool) (by_ note : String) :
      Step c key Q J (Replay.declare c d i committed by_ note J).1
  | reconcileAtStart (d : Disk) (alive : UInt32 → UInt64 → Bool) :
      Step c key Q J (Replay.reconcileAtStart c d alive J).1
  | note (d : Disk) (kind text : String) (links : List UInt64) : Step c key Q J (note c d kind text links J).1
  | other (r : RecordView) (h : Passed c r) : Step c key Q J (J ++ [r])

def Next (c : Codec) (key : ApprovalIdentity → String) (Q : Ledger → UInt64 → Prop) (J J' : List RecordView) : Prop :=
  Step c key Q J J' ∧ Increasing J'

/-- A history of calls. -/
abbrev History (c : Codec) (key : ApprovalIdentity → String) (Q : Ledger → UInt64 → Prop) :=
  Relation.ReflTransGen (Next c key Q)

/-! ## Extensions of a journal -/

def Extends (P : RecordView → Prop) (J J' : List RecordView) : Prop := ∃ rs, J' = J ++ rs ∧ ∀ r ∈ rs, P r

namespace Extends

variable {P : RecordView → Prop} {J J' J'' : List RecordView} {r : RecordView}

theorem refl : Extends P J J := ⟨[], by simp, by simp⟩

theorem single (h : P r) : Extends P J (J ++ [r]) := ⟨[r], rfl, by simpa using h⟩

theorem trans (h : Extends P J J') (h' : Extends P J' J'') : Extends P J J'' := by
  obtain ⟨rs, rfl, hrs⟩ := h
  obtain ⟨rs', rfl, hrs'⟩ := h'
  refine ⟨rs ++ rs', by simp, fun r hr => ?_⟩
  rcases List.mem_append.1 hr with hr | hr
  · exact hrs r hr
  · exact hrs' r hr

theorem isPrefix (h : Extends P J J') : J <+: J' := by
  obtain ⟨rs, rfl, -⟩ := h
  exact List.prefix_append _ _

end Extends

variable {c : Codec} {Q : Ledger → UInt64 → Prop} {J : List RecordView} {d : Disk}

def EffectSilent (c : Codec) (r : RecordView) : Prop := ∀ l : Ledger, l.read c r = .ok l

def ReplaySilent (c : Codec) (r : RecordView) : Prop := ∀ l : Replay.ReplayLedger, l.read c r = .ok l

theorem advances_silent {l : Ledger} {J' : List RecordView} (h : Extends (EffectSilent c) J J') (hi : Increasing J') :
    Advances c Q (J, l) (J', l) := by
  obtain ⟨rs, rfl, hrs⟩ := h
  induction rs using List.reverseRecOn with
  | nil => rw [List.append_nil]
  | append_singleton rs r ih =>
    rw [← List.append_assoc] at hi ⊢
    refine (ih (fun r' hr' => hrs r' (by simp [hr'])) hi.left).tail ?_
    exact ⟨⟨r, rfl, hrs r (by simp) l, .pass⟩, hi⟩

theorem reads_silent {l : Replay.ReplayLedger} {J' : List RecordView} (h : Extends (ReplaySilent c) J J')
    (hl : Replay.ReplayLedger.fromRecords c J = .ok l) : Replay.ReplayLedger.fromRecords c J' = .ok l := by
  obtain ⟨rs, rfl, hrs⟩ := h
  induction rs using List.reverseRecOn with
  | nil => simpa using hl
  | append_singleton rs r ih =>
    rw [← List.append_assoc]
    exact Replay.Reads.snoc (ih fun r' hr' => hrs r' (by simp [hr'])) (hrs r (by simp) l)

/-! ## Replay records are silent for the effect ledger -/

/-- A text that the effect ledger has no use for. -/
structure ReplayText (text : Value) : Prop where
  object : text.Object
  commit : text.get "compose_commit" = none
  phase : text.get "phase" = none
  tool : text.get "tool" = none

theorem ReplayText.silent (hc : c.Lawful) {text : Value} (h : ReplayText text) (id : UInt64) (links : List UInt64) :
    EffectSilent c (hostNote id .effect links (c.print text)) := by
  intro l
  rw [read_effectNote]
  rcases hr : c.parse (c.print text) with _ | r
  · rfl
  · have hkeep := hc.keeps text r h.object hr
    simp [Ledger.readEffect, (hkeep _).2 h.commit, (hkeep _).2 h.phase, Ledger.readLegacy, (hkeep _).2 h.tool]

theorem call_silent (hc : c.Lawful)
    {decide : Replay.ReplayLedger → Except Replay.Refusal (UInt64 × Value)}
    (hf : ∀ l link text, decide l = .ok (link, text) → ReplayText text) :
    Extends (EffectSilent c) J (Replay.locked d J fun J => Replay.record c d J decide).1 := by
  rcases Replay.call_cases (c := c) d J decide with ⟨hJ, -⟩ | ⟨l, link, text, id, -, hdec, hJ⟩
  · rw [hJ]
    exact .refl
  · rw [hJ]
    exact .single ((hf l link text hdec).silent hc id [link])

theorem step_silent (hc : c.Lawful) {me : Replay.Executor} {i : UInt64} {source : Replay.ClaimState} {text : Value}
    (h : ReplayText text) : Extends (EffectSilent c) J (Replay.step c d me i source text J).1 := by
  unfold Replay.step
  apply call_silent hc
  intro l link text' hdec
  split at hdec
  · cases hdec
  · rw [Result.guard_ok, Result.guard_ok] at hdec
    cases Except.ok.inj hdec.2.2
    exact h

theorem replayText_reason {phase reason : String} {i : UInt64} :
    ReplayText (Replay.phaseText phase i [("reason", .str reason)]) :=
  ⟨Replay.flat_reasonText.1, rfl, rfl, rfl⟩

theorem claim_silent (hc : c.Lawful) {alive : UInt32 → UInt64 → Bool} {me : Replay.Executor}
    {keys : Replay.ClaimKeys} : Extends (EffectSilent c) J (Replay.claim c d alive me keys J).1 := by
  unfold Replay.claim
  split
  · exact .refl
  · apply call_silent hc
    intro l link text hdec
    split at hdec
    · cases hdec
    · split_ifs at hdec
      cases Except.ok.inj hdec
      exact ⟨⟨_, rfl, by simp⟩, rfl, rfl, rfl⟩

theorem declare_silent (hc : c.Lawful) {i : UInt64} {committed : Bool} {by_ note : String} :
    Extends (EffectSilent c) J (Replay.declare c d i committed by_ note J).1 := by
  unfold Replay.declare
  apply call_silent hc
  intro l link text hdec
  split at hdec
  · cases hdec
  · rw [Result.guard_ok] at hdec
    cases Except.ok.inj hdec.2
    exact ⟨⟨_, rfl, by simp⟩, rfl, rfl, rfl⟩

theorem settleAll_silent (hc : c.Lawful) {alive : UInt32 → UInt64 → Bool} {rows : List Replay.ClaimRow} {n : Nat} :
    Extends (EffectSilent c) J (Replay.settleAll c d alive rows n J).1 := by
  induction rows generalizing n J with
  | nil => exact .refl
  | cons row rows ih =>
    unfold Replay.settleAll
    split_ifs
    · exact ih
    · have hone : Extends (EffectSilent c) J (Replay.appendRecord c d n J row.id (Replay.settleText row)).1 := by
        have htext : ReplayText (Replay.settleText row) := by
          refine ⟨Replay.flat_settleText.1, ?_, ?_, ?_⟩
          all_goals
            unfold Replay.settleText
            split
            rfl
        rcases Replay.appendRecord_cases (c := c) (d := d) (J := J) n row.id (Replay.settleText row)
          with ⟨hJ, -⟩ | ⟨id, hJ⟩
        · rw [hJ]
          exact .refl
        · rw [hJ]
          exact .single (htext.silent hc id _)
      rcases ha : Replay.appendRecord c d n J row.id (Replay.settleText row) with ⟨J', e | a⟩
      · rw [ha] at hone
        exact hone
      · rw [ha] at hone
        exact hone.trans ih

theorem reconcileAtStart_silent (hc : c.Lawful) {alive : UInt32 → UInt64 → Bool} :
    Extends (EffectSilent c) J (Replay.reconcileAtStart c d alive J).1 := by
  unfold Replay.reconcileAtStart
  apply Replay.locked_fst
  · exact .refl
  · rcases Replay.ledger c d J with e | l
    · exact .refl
    · exact settleAll_silent hc

/-! ## Effect records are silent for the replay ledger -/

theorem authorization_silent (id : UInt64) (links : List UInt64) (t : String) :
    ReplaySilent c (hostNote id .authorization links t) := by
  intro l
  simp [Replay.ReplayLedger.read, hostNote, NoteKind.name]

theorem effect_silent (hc : c.Lawful) {text : Value} (ho : text.Object)
    (hf : text.get "approved_submission" = none) (id : UInt64) (links : List UInt64) :
    ReplaySilent c (hostNote id .effect links (c.print text)) := by
  intro l
  have hread : l.read c (hostNote id .effect links (c.print text)) = l.readEffect id (c.parse (c.print text)) := rfl
  rw [hread]
  rcases hr : c.parse (c.print text) with _ | r
  · rfl
  · simp [Replay.ReplayLedger.readEffect, (hc.keeps text r ho hr _).2 hf]

theorem appendEffect_silent {P : RecordView → Prop} {n : Nat} {kind : NoteKind} {links : List UInt64} {text : Value}
    (h : ∀ id, P (hostNote id kind (links.filter (· ≠ 0)) (c.print text))) :
    Extends P J (appendEffect c d n J kind links text).1 := by
  rcases appendEffect_cases (c := c) (d := d) (J := J) n kind links text with hJ | ⟨id, hJ⟩
  · rw [hJ]
    exact .refl
  · rw [hJ]
    exact .single (h id)

theorem withHome_fst {α : Type} {f : List RecordView → List RecordView × Except String α} {P : List RecordView → Prop}
    (h0 : P J) (hf : P (f J).1) : P (withHome d J f).1 := by
  rcases withHome_cases d J f with ⟨hJ, -⟩ | ⟨hJ, -⟩
  · rw [hJ]
    exact h0
  · rw [hJ]
    exact hf

theorem command_silent {P : RecordView → Prop} {kind : NoteKind}
    {decide : List RecordView → Except String (List UInt64 × Value)}
    (h : ∀ links text, decide J = .ok (links, text) →
      ∀ id, P (hostNote id kind (links.filter (· ≠ 0)) (c.print text))) :
    Extends P J (command c d J kind decide).1 := by
  unfold command
  apply withHome_fst
  · exact .refl
  · rcases hd : decide J with e | ⟨links, text⟩
    · exact .refl
    · exact appendEffect_silent (h links text hd)

theorem authorize_silent {w : World} {req : MintRequest} {proof : Option DeskProof} {oid : Option String} :
    Extends (ReplaySilent c) J (authorize c d w req proof oid J).1 := by
  unfold authorize
  split
  · exact .refl
  · exact command_silent fun _ _ _ id => authorization_silent id _ _

theorem openIntent_silent (hc : c.Lawful) {key : ApprovalIdentity → String} {w : World} {req : IntentRequest} :
    Extends (ReplaySilent c) J (openIntent c key d w req J).1 := by
  unfold openIntent
  split
  · exact .refl
  · apply command_silent
    intro links text hdec id
    obtain ⟨l, g, current, views, -, -, -, rfl⟩ := intentRecord_ok hdec
    refine effect_silent hc flat_intentText.1.set ?_ id _
    unfold intentText
    cases g.objective with
    | none => rfl
    | some o => rfl

theorem ack_silent (hc : c.Lawful) {w : World} {intent : UInt64} {reported : Value} :
    Extends (ReplaySilent c) J (ack c d w intent reported J).1 := by
  unfold ack
  split
  · exact .refl
  · apply command_silent
    intro links text hdec id
    obtain ⟨l, row, st, disk, views, -, -, -, -, rfl⟩ := ackRecord_ok hdec
    refine effect_silent hc object_ackText.set ?_ id _
    unfold ackText
    cases row.objectiveId with
    | none => rfl
    | some o => rfl

theorem reconcileRows_silent (hc : c.Lawful) {w : Nat → World} {l : Ledger} {declare : Option ReconcileDeclare}
    {who : String} {rows : List IntentRow} {i n : Nat} :
    Extends (ReplaySilent c) J (reconcileRows c d w l declare who rows i n J).1 := by
  induction rows generalizing i n J with
  | nil => exact .refl
  | cons row rows ih =>
    rcases hv : reconcileRow (w i) l declare who row with e | o | ⟨text, outcome⟩
    · rw [reconcileRows_error hv]
      exact .refl
    · rw [reconcileRows_left hv]
      exact ih
    · have hone : Extends (ReplaySilent c) J (appendEffect c d n J .effect [row.id, row.authorization] text).1 := by
        obtain ⟨st, world, disk, who', objective, -, rfl⟩ := reconcileRow_write hv
        apply appendEffect_silent
        intro id
        refine effect_silent hc flat_reconcileText.1 ?_ id _
        cases objective with
        | none => rfl
        | some o => rfl
      rcases reconcileRows_write (c := c) (d := d) (J := J) (n := n) rows hv with h | h
      · rw [h]
        exact hone
      · rw [h]
        exact hone.trans ih

theorem reconcile_silent (hc : c.Lawful) {w : Nat → World} {declare : Option ReconcileDeclare} {who : String} :
    Extends (ReplaySilent c) J (reconcile c d w declare who J).1 := by
  unfold reconcile
  apply withHome_fst
  · exact .refl
  · rcases ledger c d J with e | l
    · exact .refl
    · dsimp only
      rcases reconcileTargets l declare with e | rows
      · exact .refl
      · exact reconcileRows_silent hc

theorem control_silent {action approver : String} {a : Option UInt64} :
    Extends (ReplaySilent c) J (control c d action approver a J).1 := by
  unfold control
  apply withHome_fst
  · exact .refl
  · rcases controlRecord c d action approver a J with e | _ | ⟨links, text⟩
    · exact .refl
    · exact .refl
    · have h : Extends (ReplaySilent c) J (appendEffect c d 0 J .authorization links text).1 :=
        appendEffect_silent fun id => authorization_silent id _ _
      dsimp only
      rcases ha : appendEffect c d 0 J .authorization links text with ⟨J', e | n⟩
      · rw [ha] at h
        exact h
      · rw [ha] at h
        exact h

/-! ## Notes -/

theorem note_extends {kind text : String} {links : List UInt64} : Extends (Passed c) J (note c d kind text links J).1 := by
  unfold note
  split
  · exact .refl
  · rename_i hcheck
    unfold writeNote
    split
    · exact .refl
    · rename_i k hk
      split_ifs
      · exact .refl
      · apply withHome_fst
        · exact .refl
        · rcases append_cases J k links text (d.note 0) with ⟨hJ, -⟩ | ⟨id, hJ, -⟩
          · rw [hJ]
            exact .refl
          · rw [hJ]
            exact .single (passed_of_accepted hk hcheck id links)

theorem Extends.imp {P P' : RecordView → Prop} {J' : List RecordView} (h : Extends P J J') (hp : ∀ r, P r → P' r) :
    Extends P' J J' := by
  obtain ⟨rs, rfl, hrs⟩ := h
  exact ⟨rs, rfl, fun r hr => hp r (hrs r hr)⟩

/-! ## Every call -/

section Every

variable {key : ApprovalIdentity → String} {J' : List RecordView}

theorem intent_advances (hc : c.Lawful) {w : World} {req : IntentRequest} {l : Ledger} (h : Consistent c J l)
    (hq : ∀ out, intentRecord c key d w req J = .ok out → Q l req.authorization)
    (hinc : Increasing (openIntent c key d w req J).1) :
    ∃ l', Advances c Q (J, l) ((openIntent c key d w req J).1, l') := by
  unfold openIntent at hinc ⊢
  split at hinc
  · exact ⟨l, .refl⟩
  · refine command_advances ?_ hinc
    intro links text hdec
    replace hq := hq _ hdec
    obtain ⟨l', g, current, views, hl', hg, ho, rfl⟩ := intentRecord_ok hdec
    rw [h.reads] at hl'
    cases Except.ok.inj hl'
    have hid := h.grant_id _ _ hg
    rw [← hid] at hg ho hq
    exact fits_intent hc (h.intentOf_none ho) (Table.mem_iff.2 ⟨g, hg⟩) hq

theorem ack_advances (hc : c.Lawful) {w : World} {intent : UInt64} {reported : Value} {l : Ledger}
    (h : Consistent c J l) (hinc : Increasing (ack c d w intent reported J).1) :
    ∃ l', Advances c Q (J, l) ((ack c d w intent reported J).1, l') := by
  unfold ack at hinc ⊢
  split at hinc
  · exact ⟨l, .refl⟩
  · refine command_advances ?_ hinc
    intro links text hdec
    obtain ⟨l', row, st, disk, views, hl', hrow, ht, hw, rfl⟩ := ackRecord_ok hdec
    rw [h.reads] at hl'
    cases Except.ok.inj hl'
    refine fits_ack hc hrow ht ?_
    have hne : (confinedWorldState w l row).1 ≠ .open := confinedWorldState_ne_open
    rw [hw] at hne
    exact hne

theorem reconcile_advances (hc : c.Lawful) {w : Nat → World} {declare : Option ReconcileDeclare} {who : String}
    {l : Ledger} (h : Consistent c J l) (hinc : Increasing (reconcile c d w declare who J).1) :
    ∃ l', Advances c Q (J, l) ((reconcile c d w declare who J).1, l') := by
  unfold reconcile at hinc ⊢
  rcases withHome_cases d J _ with ⟨hJ, -⟩ | ⟨hJ, -⟩
  · rw [hJ]
    exact ⟨l, .refl⟩
  · rw [hJ] at hinc ⊢
    rcases hl : ledger c d J with e | l'
    · exact ⟨l, .refl⟩
    · rw [hl] at hinc
      dsimp only at hinc ⊢
      rcases ht : reconcileTargets l' declare with e | rows
      · exact ⟨l, .refl⟩
      · rw [ht] at hinc
        have hl' : Ledger.fromRecords c J = .ok l' := by
          unfold ledger at hl
          rw [Result.bind_ok] at hl
          obtain ⟨views, hv, hl⟩ := hl
          cases hostViews_ok hv
          rwa [Result.mapError_ok] at hl
        rw [h.reads] at hl'
        cases Except.ok.inj hl'
        exact reconcileRows_advances hc (reconcileTargets_pending h ht) hinc

theorem control_advances (hc : c.Lawful) {action approver : String} {a : Option UInt64} {l : Ledger}
    (hinc : Increasing (control c d action approver a J).1) :
    ∃ l', Advances c Q (J, l) ((control c d action approver a J).1, l') := by
  unfold control at hinc ⊢
  rcases withHome_cases d J _ with ⟨hJ, -⟩ | ⟨hJ, -⟩
  · rw [hJ]
    exact ⟨l, .refl⟩
  · rw [hJ] at hinc ⊢
    rcases hr : controlRecord c d action approver a J with e | _ | ⟨links, text⟩
    · exact ⟨l, .refl⟩
    · exact ⟨l, .refl⟩
    · rw [hr] at hinc
      have hfits : Fits c Q l .authorization links text := by
        rcases controlRecord_ok hr with ⟨hact, rfl⟩ | ⟨a, rfl⟩
        · exact fits_control hc hact
        · exact fits_revoke hc
      have hadv : Increasing (appendEffect c d 0 J .authorization links text).1 →
          ∃ l', Advances c Q (J, l) ((appendEffect c d 0 J .authorization links text).1, l') :=
        appendEffect_advances hfits
      dsimp only at hinc ⊢
      rcases ha : appendEffect c d 0 J .authorization links text with ⟨J', e | n⟩
      · rw [ha] at hinc hadv
        exact hadv hinc
      · rw [ha] at hinc hadv
        exact hadv hinc

/-- **Every call takes a consistent journal to a consistent journal**, record by record. -/
theorem step_advances (hc : c.Lawful) {l : Ledger} (hs : Step c key Q J J') (hinc : Increasing J')
    (h : Consistent c J l) : ∃ l', Advances c Q (J, l) (J', l') := by
  cases hs with
  | authorize d w req proof oid =>
    unfold authorize at hinc ⊢
    split at hinc
    · exact ⟨l, .refl⟩
    · refine command_advances ?_ hinc
      intro links text hdec
      obtain ⟨row, target, prior, desk, objective, views, source, rfl⟩ := authorizeRecord_ok hdec
      exact fits_minted hc
  | openIntent d w req hq => exact intent_advances hc h (fun out => hq l out h.reads) hinc
  | ack d w intent reported => exact ack_advances hc h hinc
  | reconcile d w declare who => exact reconcile_advances hc h hinc
  | control d action approver a => exact control_advances hc hinc
  | composeCommit d workspace task p e proposal path content goal prov =>
    refine command_advances ?_ hinc
    intro links text hdec
    dsimp only at hdec
    split at hdec
    · cases Except.ok.inj hdec
      exact fits_commit hc
    · rw [Result.bind_ok] at hdec
      obtain ⟨views, -, hdec⟩ := hdec
      rw [Result.allow_ok] at hdec
      cases Except.ok.inj hdec.2
      exact fits_commit hc
  | approvedGrant d w allen workspace path content approver ids link proposal base =>
    refine command_advances ?_ hinc
    intro links text hdec
    dsimp only at hdec
    simp only [Result.bind_ok, Result.guard_ok] at hdec
    obtain ⟨held, -, prior, -, -, hdec⟩ := hdec
    cases Except.ok.inj hdec
    exact fits_approved hc
  | claim d alive me keys => exact ⟨l, advances_silent (claim_silent hc) hinc⟩
  | markInFlight d me i =>
    exact ⟨l, advances_silent (step_silent hc ⟨Replay.flat_inFlightText.1, rfl, rfl, rfl⟩) hinc⟩
  | commit d me i e => exact ⟨l, advances_silent (step_silent hc ⟨Replay.flat_commitText.1, rfl, rfl, rfl⟩) hinc⟩
  | fail d me i reason => exact ⟨l, advances_silent (step_silent hc replayText_reason) hinc⟩
  | notExecuted d me i reason => exact ⟨l, advances_silent (step_silent hc replayText_reason) hinc⟩
  | uncertain d me i reason => exact ⟨l, advances_silent (step_silent hc replayText_reason) hinc⟩
  | declare d i committed by_ note => exact ⟨l, advances_silent (declare_silent hc) hinc⟩
  | reconcileAtStart d alive => exact ⟨l, advances_silent (reconcileAtStart_silent hc) hinc⟩
  | note d kind text links => exact ⟨l, advances_silent (note_extends.imp fun _ hp => hp.read) hinc⟩
  | other r hp => exact ⟨l, advances_silent (.single hp.read) hinc⟩

/-- **Every call leaves a journal that the replay ledger reads back.** -/
theorem step_reads (hc : c.Lawful) (hs : Step c key Q J J') (hi : Increasing J) (h : Replay.Reads c J) :
    Replay.Reads c J' := by
  have hsilent : ∀ {K : List RecordView}, Extends (ReplaySilent c) J K → Replay.Reads c K := by
    intro K hK
    obtain ⟨l, hl⟩ := h
    exact ⟨l, reads_silent hK hl⟩
  cases hs with
  | authorize d w req proof oid => exact hsilent authorize_silent
  | openIntent d w req hq => exact hsilent (openIntent_silent hc)
  | ack d w intent reported => exact hsilent (ack_silent hc)
  | reconcile d w declare who => exact hsilent (reconcile_silent hc)
  | control d action approver a => exact hsilent control_silent
  | composeCommit d workspace task p e proposal path content goal prov =>
    refine hsilent (command_silent fun links text hdec id => ?_)
    have hsil : ReplaySilent c (hostNote id .effect (links.filter (· ≠ 0))
        (c.print (commitText workspace task p e proposal path content goal prov))) := by
      refine effect_silent hc flat_commitText.1 ?_ id _
      cases goal with
      | none => rfl
      | some g => rfl
    split at hdec
    · cases Except.ok.inj hdec
      exact hsil
    · rw [Result.bind_ok] at hdec
      obtain ⟨views, -, hdec⟩ := hdec
      rw [Result.allow_ok] at hdec
      cases Except.ok.inj hdec.2
      exact hsil
  | approvedGrant d w allen workspace path content approver ids link proposal base =>
    exact hsilent (command_silent fun _ _ _ id => authorization_silent id _ _)
  | claim d alive me keys => exact Replay.claim_reads hc hi h
  | markInFlight d me i => exact Replay.markInFlight_reads hc h
  | commit d me i e => exact Replay.commit_reads hc h
  | fail d me i reason => exact Replay.fail_reads hc h
  | notExecuted d me i reason => exact Replay.notExecuted_reads hc h
  | uncertain d me i reason => exact Replay.uncertain_reads hc h
  | declare d i committed by_ note => exact Replay.declare_reads hc h
  | reconcileAtStart d alive => exact Replay.reconcileAtStart_reads hc hi h
  | note d kind text links => exact hsilent (note_extends.imp fun _ hp => hp.replayRead)
  | other r hp => exact hsilent (.single hp.replayRead)

theorem Step.isPrefix (hc : c.Lawful) (hs : Step c key Q J J') : J <+: J' := by
  cases hs with
  | authorize d w req proof oid => exact authorize_silent.isPrefix
  | openIntent d w req hq => exact (openIntent_silent hc).isPrefix
  | ack d w intent reported => exact (ack_silent hc).isPrefix
  | reconcile d w declare who => exact (reconcile_silent hc).isPrefix
  | control d action approver a => exact control_silent.isPrefix
  | composeCommit d workspace task p e proposal path content goal prov =>
    exact (command_silent (P := fun _ => True) fun _ _ _ _ => trivial).isPrefix
  | approvedGrant d w allen workspace path content approver ids link proposal base =>
    exact (command_silent (P := fun _ => True) fun _ _ _ _ => trivial).isPrefix
  | claim d alive me keys => exact (claim_silent hc).isPrefix
  | markInFlight d me i => exact (step_silent hc ⟨Replay.flat_inFlightText.1, rfl, rfl, rfl⟩).isPrefix
  | commit d me i e => exact (step_silent hc ⟨Replay.flat_commitText.1, rfl, rfl, rfl⟩).isPrefix
  | fail d me i reason => exact (step_silent hc replayText_reason).isPrefix
  | notExecuted d me i reason => exact (step_silent hc replayText_reason).isPrefix
  | uncertain d me i reason => exact (step_silent hc replayText_reason).isPrefix
  | declare d i committed by_ note => exact (declare_silent hc).isPrefix
  | reconcileAtStart d alive => exact (reconcileAtStart_silent hc).isPrefix
  | note d kind text links => exact note_extends.isPrefix
  | other r hp => exact List.prefix_append _ _

end Every

end SovereignCore.Effects
