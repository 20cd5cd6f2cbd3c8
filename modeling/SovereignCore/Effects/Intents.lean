import SovereignCore.Effects.Runs

/-!
# What stood behind an intent when it was opened

The journal of any history, read record by record. An intent record is written by one call only, which checked the
whole effect boundary on the journal in front of it; no other call, and no note, writes a record that reads as one.

* `controlOf`, `grantOf`, `commitRowOf`, `intentUnder` : what a record says;
* `ReadKind`, `read_kinds` : what it does to the ledger, by what it says;
* `Each` : a property of every record and the journal in front of it;
* `Opening`, `every_intent_opened` : the checks that passed when an intent record was written;
* `stop_and_revoke_stay` : stops and revokes against the intents that follow them.
-/

namespace SovereignCore.Effects

open Std SovereignCore.Json

/-! ## Records by their text -/

def bodyOf (c : Codec) (kind : String) (r : RecordView) : Option Value :=
  if r.note = some kind then r.text.bind c.parse else none

/-- What an operator's control record says. -/
inductive Control
  | stop
  | resume
  | revoke (a : UInt64)
  deriving DecidableEq

def controlOf (c : Codec) (r : RecordView) : Option Control :=
  (bodyOf c "authorization" r).bind fun v =>
    match (v.get "control").bind Value.asStr with
    | some "stop" => some .stop
    | some "resume" => some .resume
    | some "revoke" => ((v.get "authorization").bind Value.asU64).map .revoke
    | _ => none

def intentUnder (c : Codec) (r : RecordView) : Option UInt64 :=
  (bodyOf c "effect" r).bind fun v =>
    if v.get "compose_commit" = none ∧ (v.get "phase").bind Value.asStr = some "intent" then
      (v.get "authorization").bind Value.asU64
    else none

/-! ## What a record does to the ledger -/

def grantOf (c : Codec) (r : RecordView) : Option Grant :=
  match ({} : Ledger).read c r with
  | .ok l => l.grants[r.id]?
  | .error _ => none

def commitRowOf (c : Codec) (r : RecordView) : Option CommitRow :=
  match ({} : Ledger).read c r with
  | .ok l => l.commits[r.id]?
  | .error _ => none

/-- What one record adds to the controls. -/
structure AddsControls (c : Codec) (r : RecordView) (l l' : Ledger) : Prop where
  stops : l'.stops = l.stops ++ if controlOf c r = some .stop then [r.id] else []
  resumes : l'.resumes = l.resumes ++ if controlOf c r = some .resume then [r.id] else []
  revoked : ∀ a, a ∈ l'.revoked ↔ a ∈ l.revoked ∨ controlOf c r = some (.revoke a)

/-- What the record does to the ledger, by what it says. -/
inductive ReadKind (c : Codec) (r : RecordView) (l : Ledger) : Ledger → Prop
  | control (stops resumes : List UInt64) (revoked : ExtTreeMap UInt64 UInt64)
      (h : AddsControls c r l { l with stops := stops, resumes := resumes, revoked := revoked }) :
      ReadKind c r l { l with stops := stops, resumes := resumes, revoked := revoked }
  | grant (g : Grant) (nonce : Option String) (hn : r.note = some "authorization") (hc : controlOf c r = none)
      (hg : grantOf c r = some g) (hid : g.id = r.id)
      (hbound : ∀ ag, g.approved = some ag → ag.identity.path = g.path ∧ ag.identity.contentSha256 = g.contentSha256) :
      ReadKind c r l (l.addGrant g nonce)
  | commit (row : CommitRow) (hn : r.note = some "effect") (hc : controlOf c r = none)
      (hrow : commitRowOf c r = some row) :
      ReadKind c r l { l with commits := l.commits.insert r.id row }
  | legacy (spent : ExtTreeMap UInt64 UInt64) (hc : controlOf c r = none) : ReadKind c r l { l with legacySpent := spent }
  | effect (spent : ExtTreeMap UInt64 UInt64) (intents : ExtTreeMap UInt64 IntentRow) (hc : controlOf c r = none) :
      ReadKind c r l { l with spent := spent, intents := intents }

section Kinds

variable {c : Codec} {l l' : Ledger} {r : RecordView} {id a : UInt64} {v : Value} {J : List RecordView}

theorem ReadKind.same (hc : controlOf c r = none) : ReadKind c r l l := .legacy l.legacySpent hc

theorem readControl_kind {control : Value} (hv : bodyOf c "authorization" r = some v)
    (hcon : v.get "control" = some control) (h : l.readControl r.id v control = .ok l') : ReadKind c r l l' := by
  unfold Ledger.readControl at h
  split at h
  · rename_i hact
    have hr : controlOf c r = some .stop := by simp [controlOf, hv, hcon, hact]
    cases Except.ok.inj h
    exact .control _ _ _ ⟨by simp [hr], by simp [hr], fun a => by simp [hr]⟩
  · rename_i hact
    have hr : controlOf c r = some .resume := by simp [controlOf, hv, hcon, hact]
    cases Except.ok.inj h
    exact .control _ _ _ ⟨by simp [hr], by simp [hr], fun a => by simp [hr]⟩
  · rename_i hact
    rw [Result.bind_ok] at h
    obtain ⟨a, ha, h⟩ := h
    have hfield : (v.get "authorization").bind Value.asU64 = some a := by
      unfold Field.u at ha
      split at ha
      · rename_i hx
        rw [hx, Except.ok.inj ha]
      · cases ha
    have hr : controlOf c r = some (.revoke a) := by
      simp only [controlOf, hv, Option.bind_some, hcon, hact, hfield, Option.map_some]
    cases Except.ok.inj h
    refine .control _ _ _ ⟨by simp [hr], by simp [hr], fun b => ?_⟩
    rw [hr, ExtTreeMap.mem_insertIfNew, Std.compare_eq_iff_eq, Option.some.injEq, Control.revoke.injEq]
    exact or_comm
  · cases h

theorem readApproved_bound {path content : String} {o : Option ApprovedGrant}
    (h : Ledger.readApproved v id path content = .ok o) {ag : ApprovedGrant} (ho : o = some ag) :
    ag.identity.path = path ∧ ag.identity.contentSha256 = content := by
  unfold Ledger.readApproved at h
  split at h
  · cases Except.ok.inj h
    cases ho
  · simp only [Result.bind_ok] at h
    obtain ⟨_, -, _, -, _, -, _, -, _, -, _, -, _, -, _, -, _, -, _, -, _, -, h⟩ := h
    cases Except.ok.inj h
    cases ho
    exact ⟨rfl, rfl⟩

theorem readGrant_cases {links : List UInt64} (h : l.readGrant id v links = .ok l') : l' = l ∨
    ∃ g nonce, l' = l.addGrant g nonce ∧ g.id = id ∧
      (∀ ag, g.approved = some ag → ag.identity.path = g.path ∧ ag.identity.contentSha256 = g.contentSha256) ∧
      ∀ l₀ : Ledger, l₀.readGrant id v links = .ok (l₀.addGrant g nonce) := by
  unfold Ledger.readGrant at h
  split at h
  · rename_i p path content hp hpath hcontent
    simp only [Result.bind_ok] at h
    obtain ⟨objective, hobj, prior, hprior, minted, hmint, approved, happ, h⟩ := h
    cases Except.ok.inj h
    refine Or.inr ⟨_, _, rfl, rfl, fun ag hag => readApproved_bound happ hag, fun l₀ => ?_⟩
    simp only [Ledger.readGrant, hp, hpath, hcontent, hobj, hprior, hmint, happ, Result.ok_bind]
  · cases Except.ok.inj h
    exact Or.inl rfl

theorem readIntent_kind (hc : controlOf c r = none) (h : l.readIntent id v = .ok l') : ReadKind c r l l' := by
  unfold Ledger.readIntent at h
  rw [Result.bind_ok] at h
  obtain ⟨a, -, h⟩ := h
  split at h
  · cases h
  · simp only [Result.bind_ok] at h
    obtain ⟨_, -, _, -, _, -, prior, -, h⟩ := h
    split at h
    · cases h
    · simp only [Result.bind_ok] at h
      obtain ⟨_, -, _, -, _, -, h⟩ := h
      cases Except.ok.inj h
      exact .effect _ _ hc

theorem readSettle_kind (hc : controlOf c r = none) (h : l.readSettle id v = .ok l') : ReadKind c r l l' := by
  unfold Ledger.readSettle at h
  simp only [Result.bind_ok] at h
  obtain ⟨i, -, name, -, h⟩ := h
  split at h
  · cases h
  · rw [Result.bind_ok] at h
    obtain ⟨disk, -, h⟩ := h
    split at h
    · cases h
    · rw [Result.guard_ok] at h
      cases Except.ok.inj h.2
      exact .effect l.spent _ hc

theorem read_kinds (h : l.read c r = .ok l') : ReadKind c r l l' := by
  unfold Ledger.read at h
  split_ifs at h with hver
  split at h
  · rename_i ht
    cases Except.ok.inj h
    exact .same (by simp [controlOf, bodyOf, ht])
  rename_i text ht
  split at h
  · rename_i hn
    have hbody : bodyOf c "authorization" r = c.parse text := by simp [bodyOf, hn, ht]
    unfold Ledger.readAuthorization at h
    split at h
    · rename_i hp
      cases Except.ok.inj h
      exact .same (by simp [controlOf, hbody, hp])
    rename_i v hp
    rw [hp] at hbody
    split at h
    · rename_i control hcon
      exact readControl_kind hbody hcon h
    rename_i hcon
    have hc : controlOf c r = none := by simp [controlOf, hbody, hcon]
    rcases readGrant_cases h with rfl | ⟨g, nonce, rfl, hid, hbound, hany⟩
    · exact .same hc
    · refine .grant g nonce hn hc ?_ hid hbound
      have hread : ({} : Ledger).read c r = .ok (({} : Ledger).addGrant g nonce) := by
        unfold Ledger.read
        rw [if_neg hver]
        simp only [ht, hn, Ledger.readAuthorization, hp, hcon]
        exact hany {}
      rw [grantOf, hread]
      have hget : (({} : Ledger).addGrant g nonce).grants[r.id]? = some g := by
        rw [← hid]
        exact ExtTreeMap.getElem?_insert_self
      exact hget
  · rename_i hn
    have hc : controlOf c r = none := by simp [controlOf, bodyOf, hn]
    unfold Ledger.readEffect at h
    split at h
    · cases Except.ok.inj h
      exact .same hc
    rename_i v hp
    split_ifs at h with hcommit
    · rw [Result.bind_ok] at h
      obtain ⟨row, hrow, h⟩ := h
      cases Except.ok.inj h
      refine .commit row hn hc ?_
      have hread : ({} : Ledger).read c r = .ok { commits := (∅ : ExtTreeMap UInt64 CommitRow).insert r.id row } := by
        unfold Ledger.read
        rw [if_neg hver]
        simp only [ht, hn, Ledger.readEffect, hp, hcommit, if_true, hrow, Result.ok_bind]
      rw [commitRowOf, hread]
      exact ExtTreeMap.getElem?_insert_self
    split at h
    · cases Except.ok.inj h
      unfold Ledger.readLegacy
      split_ifs
      · split
        · exact .legacy _ hc
        · exact .same hc
      · exact .same hc
    split at h
    · exact readIntent_kind hc h
    · exact readSettle_kind hc h
    · exact readSettle_kind hc h
    · cases h
  · rename_i hna _
    cases Except.ok.inj h
    have hbody : bodyOf c "authorization" r = none := if_neg hna
    exact .same (by simp [controlOf, hbody])

theorem addsNone (hs : l'.stops = l.stops) (hres : l'.resumes = l.resumes) (hrev : l'.revoked = l.revoked)
    (hr : controlOf c r = none) : AddsControls c r l l' :=
  ⟨by simp [hs, hr], by simp [hres, hr], fun a => by simp [hrev, hr]⟩

theorem ReadKind.adds (h : ReadKind c r l l') : AddsControls c r l l' := by
  cases h with
  | control stops resumes revoked h => exact h
  | grant g nonce hn hc hg hid hbound => exact addsNone rfl rfl rfl hc
  | commit row hn hc hrow => exact addsNone rfl rfl rfl hc
  | legacy spent hc => exact addsNone rfl rfl rfl hc
  | effect spent intents hc => exact addsNone rfl rfl rfl hc

/-- The controls of a ledger are those of the records it was read from. -/
structure Controls (c : Codec) (J : List RecordView) (l : Ledger) : Prop where
  stops : l.stops = (J.filter fun r => controlOf c r = some .stop).map RecordView.id
  resumes : l.resumes = (J.filter fun r => controlOf c r = some .resume).map RecordView.id
  revoked : ∀ a, a ∈ l.revoked ↔ ∃ r ∈ J, controlOf c r = some (.revoke a)

theorem ledger_snoc_inv (h : Ledger.fromRecords c (J ++ [r]) = .ok l') :
    ∃ l, Ledger.fromRecords c J = .ok l ∧ l.read c r = .ok l' := by
  unfold Ledger.fromRecords at h ⊢
  rw [List.foldlM_append, Result.bind_ok] at h
  obtain ⟨l, hl, h⟩ := h
  exact ⟨l, hl, by simpa using h⟩

theorem controls_of_reads (h : Ledger.fromRecords c J = .ok l) : Controls c J l := by
  induction J using List.reverseRecOn generalizing l with
  | nil =>
    cases Except.ok.inj h
    exact ⟨rfl, rfl, by simp⟩
  | append_singleton J r ih =>
    obtain ⟨l₀, hl₀, hr⟩ := ledger_snoc_inv h
    have hadd := (read_kinds hr).adds
    have ih := ih hl₀
    refine ⟨?_, ?_, fun a => ?_⟩
    · rw [hadd.stops, ih.stops, List.filter_append, List.map_append]
      congr 1
      by_cases hs : controlOf c r = some .stop
      · simp [hs]
      · simp [hs]
    · rw [hadd.resumes, ih.resumes, List.filter_append, List.map_append]
      congr 1
      by_cases hs : controlOf c r = some .resume
      · simp [hs]
      · simp [hs]
    · rw [hadd.revoked, ih.revoked]
      simp [or_and_right, exists_or]

end Kinds

/-! ## Every record and the journal in front of it -/

/-- `P` holds of every record and the journal in front of it. -/
def Each (P : List RecordView → RecordView → Prop) (J : List RecordView) : Prop :=
  ∀ pre r post, J = pre ++ r :: post → P pre r

section Each

variable {P : List RecordView → RecordView → Prop} {J : List RecordView} {r : RecordView}

theorem Each.snoc (h : Each P J) (hr : P J r) : Each P (J ++ [r]) := by
  intro pre r' post he
  rcases List.eq_nil_or_concat post with rfl | ⟨post, x, rfl⟩
  · obtain ⟨rfl, hr'⟩ := List.append_inj' he rfl
    cases hr'
    exact hr
  · rw [List.concat_eq_append, ← List.cons_append, ← List.append_assoc] at he
    exact h pre r' post (List.append_inj' he rfl).1

theorem each_of_mem (h : ∀ r ∈ J, ∀ pre, P pre r) : Each P J := by
  rintro pre r post rfl
  exact h r (by simp) pre

end Each

/-! ## Opened by the one call -/

/-- The record was written by `open_intent` on the journal `J`, every check passed. -/
structure Opening (c : Codec) (key : ApprovalIdentity → String) (J : List RecordView) (r : RecordView) (l : Ledger)
    (g : Grant) (req : IntentRequest) (current : Option String) : Prop where
  ledger : Consistent c J l
  checked : l.checkIntent req current = .ok g
  confined : g.workspace ≠ none
  approved : checkApprovedBacking c key l g J = .ok ()
  minted : checkMintedBacking l g = .ok ()
  note : r.note = some "effect"
  text : r.text = some (c.print (stamp c (intentText req g current) J g.id))

def Opened (c : Codec) (key : ApprovalIdentity → String) (J : List RecordView) (r : RecordView) : Prop :=
  ∃ l g req current, Opening c key J r l g req current

section Opened

variable {c : Codec} {key : ApprovalIdentity → String} {Q : Ledger → UInt64 → Prop} {J J' : List RecordView}
variable {l l' : Ledger} {r : RecordView} {a : UInt64}

theorem intentRecord_checked {d : Disk} {w : World} {req : IntentRequest} {links : List UInt64} {text : Value}
    (h : intentRecord c key d w req J = .ok (links, text)) :
    ∃ l g current, Ledger.fromRecords c J = .ok l ∧ l.checkIntent req current = .ok g ∧ g.workspace ≠ none ∧
      checkApprovedBacking c key l g J = .ok () ∧ checkMintedBacking l g = .ok () ∧
      text = stamp c (intentText req g current) J g.id := by
  unfold intentRecord at h
  simp only [Result.bind_ok, Result.mapError_ok] at h
  obtain ⟨views, hv, l, hl, ⟨current, deferred⟩, -, g, hg, h⟩ := h
  cases hostViews_ok hv
  rw [Result.guard_ok] at h
  obtain ⟨hws, h⟩ := h
  split at h
  · cases h
  · simp only [Result.bind_ok, Result.mapError_ok] at h
    obtain ⟨⟨⟩, happ, ⟨⟩, hmint, ⟨⟩, -, h⟩ := h
    cases Except.ok.inj h
    exact ⟨l, g, current, hl, hg, hws, happ, hmint, rfl⟩

theorem openIntent_cases (d : Disk) (w : World) (req : IntentRequest) (hl : Consistent c J l) :
    (openIntent c key d w req J).1 = J ∨
      ∃ r, (openIntent c key d w req J).1 = J ++ [r] ∧ Opened c key J r := by
  unfold openIntent
  split
  · exact Or.inl rfl
  unfold command
  rcases withHome_cases d J _ with ⟨hJ, -⟩ | ⟨hJ, -⟩
  · exact Or.inl hJ
  rw [hJ]
  rcases hd : intentRecord c key d w req J with e | ⟨links, text⟩
  · exact Or.inl rfl
  rcases appendEffect_cases (c := c) (d := d) (J := J) 0 .effect links text with h | ⟨id, h⟩
  · exact Or.inl h
  · obtain ⟨l', g, current, hl', hg, hws, happ, hmint, rfl⟩ := intentRecord_checked hd
    rw [hl.reads] at hl'
    cases Except.ok.inj hl'
    exact Or.inr ⟨_, h, l, g, req, current, hl, hg, hws, happ, hmint, rfl, rfl⟩

theorem read_spends (h : l.read c r = .ok l') (ha : intentUnder c r = some a) :
    l.spent[a]? = none ∧ l'.spent[a]? = some r.id := by
  obtain ⟨v, hv, ha⟩ := Option.bind_eq_some_iff.1 ha
  split_ifs at ha with hphase
  unfold bodyOf at hv
  split_ifs at hv with hn
  obtain ⟨t, ht, hp⟩ := Option.bind_eq_some_iff.1 hv
  obtain ⟨phase, hph, hstr⟩ := Option.bind_eq_some_iff.1 hphase.2
  have hu : Field.u v "authorization" r.id = .ok a := by simp only [Field.u, ha]
  unfold Ledger.read at h
  split_ifs at h
  simp only [ht, hn, hp, Ledger.readEffect, hphase.1, Option.isSome_none, Bool.false_eq_true, if_false, hph, hstr] at h
  unfold Ledger.readIntent at h
  rw [Result.bind_ok] at h
  obtain ⟨a', ha', h⟩ := h
  rw [hu] at ha'
  cases Except.ok.inj ha'
  split at h
  · cases h
  · rename_i hnone
    simp only [Result.bind_ok] at h
    obtain ⟨_, -, _, -, _, -, prior, -, h⟩ := h
    split at h
    · cases h
    · simp only [Result.bind_ok] at h
      obtain ⟨_, -, _, -, _, -, h⟩ := h
      cases Except.ok.inj h
      refine ⟨Option.eq_none_iff_forall_ne_some.2 hnone, ?_⟩
      rw [Table.get_insert, if_pos rfl]

theorem Advances.each {s s' : List RecordView × Ledger} (h : Advances c (fun _ _ => False) s s')
    {P : List RecordView → RecordView → Prop} (hs : Each (fun pre r => (intentUnder c r).isSome → P pre r) s.1) :
    Each (fun pre r => (intentUnder c r).isSome → P pre r) s'.1 := by
  induction h with
  | refl => exact hs
  | tail _ hadv ih =>
    obtain ⟨⟨r, hJ, hr, hm⟩, -⟩ := hadv
    rw [hJ]
    refine ih.snoc fun hi => ?_
    obtain ⟨a, ha⟩ := Option.isSome_iff_exists.1 hi
    have hsp := read_spends hr ha
    have hsame : ∀ {l l' : Ledger}, Move (fun _ _ => False) r.id l l' → l'.spent = l.spent := by
      intro l l' hm
      cases hm with
      | intent row hid ho hs hg hq => exact hq.elim
      | pass => rfl
      | control stops resumes revoked => rfl
      | commit row => rfl
      | grant g nonce hid => rfl
      | settle i row st disk hrow ht hst => rfl
    rw [hsame hm, hsp.1] at hsp
    cases hsp.2

theorem opens_or (h : Step c key Q J J') :
    (∃ d w req, J' = (openIntent c key d w req J).1) ∨ Step c key (fun _ _ => False) J J' := by
  cases h with
  | authorize d w req proof oid => exact Or.inr (.authorize d w req proof oid)
  | openIntent d w req hq => exact Or.inl ⟨d, w, req, rfl⟩
  | ack d w intent reported => exact Or.inr (.ack d w intent reported)
  | reconcile d w declare who => exact Or.inr (.reconcile d w declare who)
  | control d action approver a => exact Or.inr (.control d action approver a)
  | composeCommit d workspace task p e proposal path content goal prov =>
    exact Or.inr (.composeCommit d workspace task p e proposal path content goal prov)
  | approvedGrant d w allen workspace path content approver ids link proposal base =>
    exact Or.inr (.approvedGrant d w allen workspace path content approver ids link proposal base)
  | claim d alive me keys => exact Or.inr (.claim d alive me keys)
  | markInFlight d me i => exact Or.inr (.markInFlight d me i)
  | commit d me i e => exact Or.inr (.commit d me i e)
  | fail d me i reason => exact Or.inr (.fail d me i reason)
  | notExecuted d me i reason => exact Or.inr (.notExecuted d me i reason)
  | uncertain d me i reason => exact Or.inr (.uncertain d me i reason)
  | declare d i committed by_ note => exact Or.inr (.declare d i committed by_ note)
  | reconcileAtStart d alive => exact Or.inr (.reconcileAtStart d alive)
  | note d kind text links => exact Or.inr (.note d kind text links)
  | other r hp => exact Or.inr (.other r hp)

theorem Passed.not_intent (h : Passed c r) : intentUnder c r = none := by
  unfold intentUnder bodyOf
  split_ifs with hn
  · rw [Option.bind_eq_none_iff]
    intro v hv
    obtain ⟨t, ht, hp⟩ := Option.bind_eq_some_iff.1 hv
    rw [if_neg]
    rw [(h.unread hn t v ht hp).2.1]
    simp
  · rfl

/-- **Every intent record of a history was opened by the boundary**: the call that wrote it checked everything on the
journal in front of it. -/
theorem every_intent_opened (hc : c.Lawful) (J₀ : List RecordView) (h0 : Unreserved c J₀) (h : History c key Q J₀ J) :
    Each (fun pre r => (intentUnder c r).isSome → Opened c key pre r) J := by
  induction h with
  | refl => exact each_of_mem fun r hr pre hi => by simp [(h0.passed r hr).not_intent] at hi
  | tail hJ hstep ih =>
    obtain ⟨l, hl⟩ := History.advances hc hJ h0.consistent
    have hcons := h0.consistent.advances hl
    rcases opens_or hstep.1 with ⟨d, w, req, rfl⟩ | hfalse
    · rcases openIntent_cases d w req hcons with hsame | ⟨r, hsnoc, hop⟩
      · rw [hsame]
        exact ih
      · rw [hsnoc]
        exact ih.snoc fun _ => hop
    · obtain ⟨l', hl'⟩ := step_advances hc hfalse hstep.2 hcons
      exact hl'.each ih

theorem Opening.body (hc : c.Lawful) {g : Grant} {req : IntentRequest} {current : Option String}
    (h : Opening c key J r l g req current) : ∃ v, bodyOf c "effect" r = some v ∧
      ∀ k, v.get k = ((intentText req g current).set "provenance" (inherit c J g.id).toJson).get k := by
  have hflat : (intentText req g current).Flat := flat_intentText
  obtain ⟨v, hv, hget⟩ := hc.reads_back (hflat.set (plain_toJson (inherit c J g.id)))
  refine ⟨v, ?_, hget⟩
  rw [bodyOf, if_pos h.note, h.text]
  exact hv

theorem Opening.intentUnder (hc : c.Lawful) {g : Grant} {req : IntentRequest} {current : Option String}
    (h : Opening c key J r l g req current) : intentUnder c r = some g.id := by
  obtain ⟨v, hv, hget⟩ := h.body hc
  have hcommit : v.get "compose_commit" = none ∧ v.get "phase" = some (.str "intent") ∧
      v.get "authorization" = some (.num g.id) := by
    rw [hget, hget, hget]
    unfold intentText
    cases g.objective with
    | none => exact ⟨rfl, rfl, rfl⟩
    | some o => exact ⟨rfl, rfl, rfl⟩
  obtain ⟨hnone, hphase, hauth⟩ := hcommit
  rw [Effects.intentUnder, hv, Option.bind_some, hphase, hauth, if_pos ⟨hnone, rfl⟩]
  rfl

theorem Opening.under (hc : c.Lawful) {g : Grant} {req : IntentRequest} {current : Option String}
    (h : Opening c key J r l g req current) (ha : Effects.intentUnder c r = some a) :
    g.id = a ∧ req.authorization = a := by
  have hid : g.id = a := by
    rw [h.intentUnder hc] at ha
    exact Option.some.inj ha
  have hgrant := h.ledger.grant_id _ _ (checkIntent_ok h.checked).1
  exact ⟨hid, hgrant ▸ hid⟩

end Opened

/-! ## Stops and revokes -/

theorem checkIntent_controls {l : Ledger} {req : IntentRequest} {current : Option String} {g : Grant}
    (h : l.checkIntent req current = .ok g) :
    l.stopped = none ∧ req.authorization ∉ l.revoked ∧ ∀ s ∈ l.stops, ¬ req.authorization < s := by
  unfold Ledger.checkIntent at h
  dsimp only at h
  split at h
  · cases h
  rename_i hstop
  split at h
  · cases h
  rw [Result.guard_ok, Result.guard_ok] at h
  obtain ⟨-, -, h⟩ := h
  split at h
  · split_ifs at h
  split at h
  · cases h
  split at h
  · cases h
  rename_i hrev
  split at h
  · cases h
  rename_i hfind
  refine ⟨hstop, Table.notMem_iff.2 hrev, fun s hs => ?_⟩
  have := List.find?_eq_none.1 hfind s (List.mem_reverse.2 hs)
  simpa using this

theorem resumed_of_stopped_none {l : Ledger} (hs : l.stops.Pairwise (· < ·)) (h : l.stopped = none) {s : UInt64}
    (hmem : s ∈ l.stops) : ∃ r ∈ l.resumes, s < r := by
  unfold Ledger.stopped at h
  rcases List.eq_nil_or_concat l.stops with hnil | ⟨front, last, hlast⟩
  · rw [hnil] at hmem
    cases hmem
  rw [List.concat_eq_append] at hlast
  rw [hlast] at hmem hs
  rw [hlast, List.getLast?_concat] at h
  dsimp only at h
  split at h
  · rename_i r hr
    split_ifs at h with hlt
    refine ⟨r, List.mem_of_getLast? hr, ?_⟩
    rcases List.mem_append.1 hmem with hf | hl
    · exact UInt64.lt_trans ((List.pairwise_append.1 hs).2.2 s hf last (by simp)) hlt
    · rw [List.mem_singleton.1 hl]
      exact hlt
  · cases h

theorem mem_after {p q : List RecordView} {s r : RecordView} (hi : Increasing (p ++ s :: q)) (hr : r ∈ p ++ s :: q)
    (hlt : s.id < r.id) : r ∈ q := by
  rcases List.mem_append.1 hr with hp | hq
  · have hrs := (List.pairwise_append.1 hi).2.2 r hp s (by simp)
    exact absurd (UInt64.lt_trans hlt hrs) (UInt64.lt_irrefl _)
  · rcases List.mem_cons.1 hq with rfl | hq
    · exact absurd hlt (UInt64.lt_irrefl _)
    · exact hq

section Stay

variable {c : Codec} {key : ApprovalIdentity → String} {J : List RecordView} {r : RecordView} {a : UInt64}

theorem Opened.controls (hc : c.Lawful) (h : Opened c key J r) (ha : intentUnder c r = some a) :
    (∀ p s q, J = p ++ s :: q → controlOf c s = some .stop →
      (∃ s' ∈ q, controlOf c s' = some .resume) ∧ ∀ g ∈ p, g.id ≠ a) ∧
      ∀ s ∈ J, controlOf c s ≠ some (.revoke a) := by
  obtain ⟨l, g, req, current, hop⟩ := h
  have hinc := hop.ledger.increasing
  have hcon := controls_of_reads hop.ledger.reads
  obtain ⟨hstop, hrev, hstale⟩ := checkIntent_controls hop.checked
  rw [(hop.under hc ha).2] at hrev hstale
  have hsorted : l.stops.Pairwise (· < ·) := by
    rw [hcon.stops, List.pairwise_map]
    exact hinc.sublist List.filter_sublist
  constructor
  · rintro p s q rfl hs
    have hmem : s.id ∈ l.stops := by
      rw [hcon.stops]
      exact List.mem_map.2 ⟨s, List.mem_filter.2 ⟨by simp, by simpa using hs⟩, rfl⟩
    constructor
    · obtain ⟨x, hx, hlt⟩ := resumed_of_stopped_none hsorted hstop hmem
      rw [hcon.resumes] at hx
      obtain ⟨s', hs', rfl⟩ := List.mem_map.1 hx
      obtain ⟨hin, hres⟩ := List.mem_filter.1 hs'
      exact ⟨s', mem_after hinc hin hlt, by simpa using hres⟩
    · -- a grant in front of the stop has a smaller id, and the boundary refuses it as stale
      rintro g' hg' rfl
      exact hstale s.id hmem ((List.pairwise_append.1 hinc).2.2 g' hg' s (by simp))
  · intro s hs hcs
    exact hrev ((hcon.revoked a).2 ⟨s, hs, hcs⟩)

end Stay

/-- **Stop and revoke are permanent for older grants.** Wherever an intent record stands in the journal of a history:
every stop in front of it was resumed in between, no record in front of a stop is the intent's grant, and no record in
front of it revokes that grant. -/
theorem stop_and_revoke_stay (c : Codec) (hc : c.Lawful) (key : ApprovalIdentity → String) (J₀ J : List RecordView)
    (h0 : Unreserved c J₀) (h : History c key (fun _ _ => True) J₀ J) (pre post : List RecordView) (r : RecordView)
    (hJ : J = pre ++ r :: post) (a : UInt64) (ha : intentUnder c r = some a) :
    (∀ p s q, pre = p ++ s :: q → controlOf c s = some .stop →
      (∃ s' ∈ q, controlOf c s' = some .resume) ∧ ∀ g ∈ p, g.id ≠ a) ∧
      ∀ s ∈ pre, controlOf c s ≠ some (.revoke a) := by
  have hop := every_intent_opened hc J₀ h0 h pre r post hJ (by rw [ha]; rfl)
  exact hop.controls hc ha

/-! ## A grant minted after the stop -/

theorem controlRecord_writes {c : Codec} {J : List RecordView} {l : Ledger} (id : UInt64) {action : String}
    (hl : Ledger.fromRecords c J = .ok l) (hJ : J.length ≤ hostRecallMax) (ha : action = "stop" ∨ action = "resume") :
    controlRecord c (.writes id) action "op" none J =
      .ok (some ([], .obj [("control", .str action), ("approver", .str "op")])) := by
  have happ : trim "op" = "op" := by decide +kernel
  unfold controlRecord
  rw [happ, if_neg (by decide)]
  simp only [ledger, hostViews_writes hJ, hl, Except.mapError, Bind.bind, Except.bind]
  rw [if_pos ha]

theorem Leads.controls {c : Codec} {key : ApprovalIdentity → String} {Q : Ledger → UInt64 → Prop} {l l' : Ledger}
    {n : Nat} {id id' : UInt64} (hc : c.Lawful) (h : Leads c key Q n id l) (hlt : id < id') (hn : n ≤ hostRecallMax)
    {action : String} (ha : action = "stop" ∨ action = "resume")
    (hread : ∀ r : Value, r.get "control" = some (.str action) → ∀ links,
      l.readAuthorization id (some r) links = .ok l') (hm : Move Q id l l') : Leads c key Q (n + 1) id' l' := by
  refine h.write hlt fun J hcons hlen => ?_
  have hdec := controlRecord_writes id hcons.reads (hlen ▸ hn) ha
  refine ⟨hostNote id .authorization [] (c.print (.obj [("control", .str action), ("approver", .str "op")])), rfl,
    ?_, ?_, hm⟩
  · have hstep : Step c key Q J _ := .control (.writes id) action "op" none
    have hJ : (control c (.writes id) action "op" none J).1 =
        J ++ [hostNote id .authorization [] (c.print (.obj [("control", .str action), ("approver", .str "op")]))] := by
      simp only [Effects.control, withHome, Disk.writes] at hdec ⊢
      rw [hdec]
      rfl
    rwa [hJ] at hstep
  · have hflat : (Value.obj [("control", .str action), ("approver", .str "op")]).Flat := flat_obj (by simp) (by simp)
    obtain ⟨r, hr, hget⟩ := hc.reads_back hflat
    rw [read_authorizationNote, hr]
    exact hread r (hget _) _

theorem Leads.opening {c : Codec} {key : ApprovalIdentity → String} {l : Ledger} {n : Nat} {id : UInt64}
    (h : Leads c key (fun _ _ => True) n id l) (digest : String) (hn : n ≤ hostRecallMax) (req : IntentRequest) (g : Grant) {ws : String}
    (hg : l.grants[req.authorization]? = some g) (hws : g.workspace = some ws)
    (hcheck : l.checkIntent req (some digest) = .ok g) (hmint : checkMintedBacking l g = .ok ())
    (happ : g.approved = none) (hobj : g.objective = none) :
    ∃ J r, History c key (fun _ _ => True) [] (J ++ [r]) ∧ Opening c key J r l g req (some digest) := by
  obtain ⟨J, hJ, hcons, hlen, hids⟩ := h
  have hdec := intentRecord_opens key id _ hcons.reads (hlen ▸ hn) hg hws hcheck hmint happ hobj
  have hnote := command_writes c id .effect hdec
  refine ⟨J, hostNote id .effect ([g.id].filter (· ≠ 0)) (c.print (stamp c (intentText req g (some digest)) J g.id)),
    hJ.tail ⟨?_, ?_⟩, ⟨hcons, hcheck, by simp [hws], by simp [checkApprovedBacking, happ], hmint, rfl, rfl⟩⟩
  · exact hnote ▸ Step.openIntent (.writes id) (.seeing digest) req fun _ _ _ _ => trivial
  · refine List.pairwise_append.2 ⟨hcons.increasing, List.pairwise_singleton _ _, fun r hr r' hr' => ?_⟩
    rw [List.mem_singleton.1 hr']
    exact hids r hr

namespace AfterStop

def resumed : Ledger := { Twice.committed with stops := [2], resumes := [3] }

def minted : Ledger := resumed.addGrant (Twice.grant 4 "a") none

/-- The proposal is committed, the operator stops and resumes, and only then a grant is minted. -/
theorem leads_minted : Leads compact (fun _ => "") (fun _ _ => True) 4 5 minted := by
  have h₂ : Leads compact (fun _ => "") (fun _ _ => True) 2 3 { Twice.committed with stops := [2] } :=
    (Twice.leads_committed _).controls compact_lawful (by decide) (by decide) (Or.inl rfl)
      (fun r hr links => read_stop hr) (.control [2] _ _)
  have h₃ : Leads compact (fun _ => "") (fun _ _ => True) 3 4 resumed :=
    h₂.controls compact_lawful (by decide) (by decide) (Or.inr rfl) (fun r hr links => read_resume hr)
      (.control _ [3] _)
  exact h₃.mint compact_lawful (by decide) (by decide) Twice.mintRequest Twice.row (by decide +kernel) rfl
    (by decide +kernel) rfl (by simp [resumed, Twice.committed])

end AfterStop

/-- After a stop and a resume an intent is opened under a grant that was minted since. -/
theorem stop_and_revoke_stay_resumed : ∃ J r, History compact (fun _ => "") (fun _ _ => True) [] (J ++ [r]) ∧
    intentUnder compact r = some 4 ∧ (∃ s ∈ J, controlOf compact s = some .stop) ∧
      ∀ s ∈ J, controlOf compact s ≠ some (.revoke 4) := by
  obtain ⟨J, r, hist, hop⟩ := AfterStop.leads_minted.opening "a" (by decide) (Twice.request 4)
    (Twice.grant 4 "a") (by decide +kernel) rfl (by rfl) (by rfl) rfl rfl
  have hunder := hop.intentUnder compact_lawful
  refine ⟨J, r, hist, hunder, ?_, ?_⟩
  · have hmem : (2 : UInt64) ∈ AfterStop.minted.stops := by simp [AfterStop.minted, AfterStop.resumed, Ledger.addGrant]
    rw [(controls_of_reads hop.ledger.reads).stops] at hmem
    obtain ⟨s, hs, -⟩ := List.mem_map.1 hmem
    obtain ⟨hin, hcs⟩ := List.mem_filter.1 hs
    exact ⟨s, hin, by simpa using hcs⟩
  · exact (stop_and_revoke_stay compact compact_lawful _ [] _ .nil hist J [] r rfl 4 hunder).2

end SovereignCore.Effects
