import SovereignCore.Effects.Home

/-!
# Histories of the effect ledger

What holds after any history of calls, whichever process made them and whatever the world showed them.

* `ledger_consistent` : the ledger reads back, an authorization has at most one intent, a settled intent stays settled;
* `SiblingsSettled`, `one_done_effect` : when one committed proposal gives at most one DONE effect, and
  `two_done_effects`, a history in which it gives two.
-/

namespace SovereignCore.Effects

open Std SovereignCore.Json

section Histories

variable {c : Codec} {key : ApprovalIdentity → String} {Q : Ledger → UInt64 → Prop} {J J' : List RecordView}
variable {l : Ledger}

/-- A journal without reserved notes. -/
structure Unreserved (c : Codec) (J : List RecordView) : Prop where
  passed : ∀ r ∈ J, Passed c r
  increasing : Increasing J

theorem Unreserved.nil : Unreserved c [] := ⟨by simp, List.Pairwise.nil⟩

theorem Unreserved.reads (h : Unreserved c J) : Ledger.fromRecords c J = .ok {} := by
  obtain ⟨h, -⟩ := h
  unfold Ledger.fromRecords
  induction J with
  | nil => rfl
  | cons r J ih =>
    rw [List.foldlM_cons, (h r (by simp)).read]
    exact ih fun r' hr' => h r' (by simp [hr'])

theorem Unreserved.replayReads (h : Unreserved c J) : Replay.Reads c J := by
  obtain ⟨h, -⟩ := h
  refine ⟨{}, ?_⟩
  unfold Replay.ReplayLedger.fromRecords
  induction J with
  | nil => rfl
  | cons r J ih =>
    rw [List.foldlM_cons, (h r (by simp)).replayRead]
    exact ih fun r' hr' => h r' (by simp [hr'])

theorem Unreserved.consistent (h : Unreserved c J) : Consistent c J {} :=
  ⟨h.reads, h.increasing, by simp, by simp, by simp, by simp, by simp, by simp, by simp⟩

theorem History.advances (hc : c.Lawful) (h : History c key Q J J') (hl : Consistent c J l) :
    ∃ l', Advances c Q (J, l) (J', l') := by
  induction h with
  | refl => exact ⟨l, .refl⟩
  | tail _ hstep ih =>
    obtain ⟨l₁, h₁⟩ := ih
    have hl₁ := hl.advances h₁
    obtain ⟨l₂, h₂⟩ := step_advances hc hstep.1 hstep.2 hl₁
    exact ⟨l₂, h₁.trans h₂⟩

end Histories

/-! ## Self-consistency -/

/-- **The effect ledger of any history reads back.** From a journal without reserved notes, after any calls: the strict
reader accepts the journal, an authorization has at most one intent, and whatever is called after that, a settled
intent stays as it is. -/
theorem ledger_consistent (c : Codec) (hc : c.Lawful) (key : ApprovalIdentity → String) (J₀ J : List RecordView)
    (h0 : Unreserved c J₀) (h : History c key (fun _ _ => True) J₀ J) :
    ∃ l, Ledger.fromRecords c J = .ok l ∧
      (∀ (i j : UInt64) (row row' : IntentRow), l.intents[i]? = some row → l.intents[j]? = some row' →
        row.authorization = row'.authorization → i = j) ∧
      ∀ J', History c key (fun _ _ => True) J J' → ∃ l', Ledger.fromRecords c J' = .ok l' ∧
        ∀ (i : UInt64) (row : IntentRow), l.intents[i]? = some row → row.state.terminal = true →
          l'.intents[i]? = some row := by
  obtain ⟨l, hl⟩ := h.advances hc h0.consistent
  have hcons := h0.consistent.advances hl
  refine ⟨l, hcons.reads, ?_, ?_⟩
  · intro i j row row' hi hj ha
    exact hcons.one_intent hi hj ha
  · intro J' hJ'
    obtain ⟨l', hl'⟩ := hJ'.advances hc hcons
    refine ⟨l', (hcons.advances hl').reads, ?_⟩
    intro i row hrow ht
    exact Advances.settled hcons hl' hrow ht

/-! ## Effects of one committed proposal -/

def mintedFrom (l : Ledger) (a : UInt64) : Option UInt64 := (l.grants[a]?.bind Grant.minted).map MintedGrant.commit

/-- The DONE intents that were opened under grants minted from the compose-commit record `cm`. -/
def doneEffects (l : Ledger) (cm : UInt64) : List IntentRow :=
  (Table.values l.intents).filter fun row => row.state = .done ∧ mintedFrom l row.authorization = some cm

/-- Every intent of a grant minted from the same commit as `a` is settled NOT_DONE. -/
def SiblingsSettled (l : Ledger) (a : UInt64) : Prop :=
  ∀ (cm i : UInt64) (row : IntentRow), mintedFrom l a = some cm → l.intents[i]? = some row →
    mintedFrom l row.authorization = some cm → row.state = .notDone

def OneLive (l : Ledger) : Prop :=
  ∀ (cm i j : UInt64) (row row' : IntentRow), l.intents[i]? = some row → l.intents[j]? = some row' →
    mintedFrom l row.authorization = some cm → mintedFrom l row'.authorization = some cm →
      row.state ≠ .notDone → row'.state ≠ .notDone → i = j

section Commit

variable {c : Codec} {J : List RecordView} {l : Ledger} {r : RecordView}

/-- A new grant has a new id, so the intents' grants are what they were. -/
theorem Consistent.mintedFrom_addGrant (h : Consistent c J l) (hi : Increasing (J ++ [r])) {g : Grant}
    {nonce : Option String} (hid : g.id = r.id) {i : UInt64} {row : IntentRow} (hrow : l.intents[i]? = some row) :
    mintedFrom (l.addGrant g nonce) row.authorization = mintedFrom l row.authorization := by
  have hne : r.id ≠ row.authorization := by
    intro he
    exact h.fresh_grant hi (he ▸ h.row_grant i row hrow)
  have hgr : (l.addGrant g nonce).grants[row.authorization]? = l.grants[row.authorization]? := by
    rw [show (l.addGrant g nonce).grants = l.grants.insert g.id g from rfl, Table.get_insert, hid, if_neg hne]
  unfold mintedFrom
  rw [hgr]

theorem OneLive.openIntent (h : OneLive l) {row : IntentRow} (hq : SiblingsSettled l row.authorization) (id : UInt64) :
    OneLive { l with
      spent := l.spent.insert row.authorization id
      intents := l.intents.insert id row } := by
  intro cm i j ri rj hri hrj hmi hmj hni hnj
  dsimp only at hri hrj
  rw [Table.get_insert] at hri hrj
  split_ifs at hri with hi <;> split_ifs at hrj with hj
  · exact hi.symm.trans hj
  · cases Option.some.inj hri
    exact absurd (hq cm j rj hmi hrj hmj) hnj
  · cases Option.some.inj hrj
    exact absurd (hq cm i ri hmj hri hmi) hni
  · exact h cm i j ri rj hri hrj hmi hmj hni hnj

theorem OneLive.settle (h : OneLive l) {i id : UInt64} {row : IntentRow} {st : EffectState} {disk : Option String}
    (hrow : l.intents[i]? = some row) (ht : row.state.terminal = false) :
    OneLive { l with intents := l.intents.insert i (row.settled id st disk) } := by
  have hlive : row.state ≠ .notDone := by
    intro he
    rw [he] at ht
    cases ht
  -- a row that is live now was live before
  have hback : ∀ (j : UInt64) (rj : IntentRow), (l.intents.insert i (row.settled id st disk))[j]? = some rj →
      rj.state ≠ .notDone → ∃ r₀ : IntentRow, l.intents[j]? = some r₀ ∧ r₀.state ≠ .notDone ∧
        rj.authorization = r₀.authorization := by
    intro j rj hj hn
    rw [Table.get_insert] at hj
    split_ifs at hj with he
    · cases Option.some.inj hj
      exact ⟨row, he ▸ hrow, hlive, rfl⟩
    · exact ⟨rj, hj, hn, rfl⟩
  intro cm j k rj rk hrj hrk hmj hmk hnj hnk
  obtain ⟨r₁, h₁, hn₁, ha₁⟩ := hback j rj hrj hnj
  obtain ⟨r₂, h₂, hn₂, ha₂⟩ := hback k rk hrk hnk
  rw [ha₁] at hmj
  rw [ha₂] at hmk
  exact h cm j k r₁ r₂ h₁ h₂ hmj hmk hn₁ hn₂

theorem OneLive.advance {s s' : List RecordView × Ledger} (hcons : Consistent c s.1 s.2) (h : OneLive s.2)
    (ha : Advance c SiblingsSettled s s') : OneLive s'.2 := by
  obtain ⟨J, l⟩ := s
  obtain ⟨J', l'⟩ := s'
  obtain ⟨⟨r, hJ, hr, hm⟩, hi⟩ := ha
  dsimp only at hcons h hJ hr hm hi ⊢
  subst hJ
  cases hm with
  | pass => exact h
  | control stops resumes revoked => exact h
  | commit row => exact h
  | grant g nonce hid =>
    intro cm i j ri rj hri hrj hmi hmj hni hnj
    rw [hcons.mintedFrom_addGrant hi hid hri] at hmi
    rw [hcons.mintedFrom_addGrant hi hid hrj] at hmj
    exact h cm i j ri rj hri hrj hmi hmj hni hnj
  | intent row hid ho hs hg hq => exact h.openIntent hq _
  | settle i row st disk hrow ht hst => exact h.settle hrow ht

theorem OneLive.advances {s s' : List RecordView × Ledger} (hcons : Consistent c s.1 s.2) (h : OneLive s.2)
    (ha : Advances c SiblingsSettled s s') : OneLive s'.2 := by
  induction ha with
  | refl => exact h
  | tail hs hstep ih => exact ih.advance (hcons.advances hs) hstep

theorem OneLive.done_le_one (hcons : Consistent c J l) (h : OneLive l) (cm : UInt64) :
    (doneEffects l cm).length ≤ 1 := by
  have hnd : ((doneEffects l cm).map IntentRow.id).Nodup :=
    (Table.values_map_nodup hcons.row_id).sublist (List.filter_sublist.map _)
  have hsame : ∀ row ∈ doneEffects l cm, ∀ row' ∈ doneEffects l cm, row.id = row'.id := by
    intro row hrow row' hrow'
    obtain ⟨hmem, hp⟩ := List.mem_filter.1 hrow
    obtain ⟨hmem', hp'⟩ := List.mem_filter.1 hrow'
    obtain ⟨i, hi⟩ := Table.mem_values.1 hmem
    obtain ⟨j, hj⟩ := Table.mem_values.1 hmem'
    obtain ⟨hd, hm⟩ := of_decide_eq_true hp
    obtain ⟨hd', hm'⟩ := of_decide_eq_true hp'
    rw [hcons.row_id i row hi, hcons.row_id j row' hj]
    exact h cm i j row row' hi hj hm hm' (by rw [hd]; decide) (by rw [hd']; decide)
  exact Table.length_le_one hnd hsame

end Commit

/-- **One committed proposal, at most one DONE effect**, in every history in which an intent is opened only while every
intent under a grant of the same commit is settled NOT_DONE. -/
theorem one_done_effect (c : Codec) (hc : c.Lawful) (key : ApprovalIdentity → String) (J₀ J : List RecordView)
    (h0 : Unreserved c J₀) (h : History c key SiblingsSettled J₀ J) :
    ∃ l, Ledger.fromRecords c J = .ok l ∧ ∀ cm, (doneEffects l cm).length ≤ 1 := by
  obtain ⟨l, hl⟩ := h.advances hc h0.consistent
  have hcons := h0.consistent.advances hl
  have hlive : OneLive l := OneLive.advances h0.consistent (by intro cm i j ri rj hri; simp at hri) hl
  exact ⟨l, hcons.reads, fun cm => hlive.done_le_one hcons cm⟩

/-! ## Calls that succeed -/

def Disk.writes (id : UInt64) : Disk := { note := fun _ => .written id }

/-- A world in which every target is a confined file of this digest and a workspace path is its own canonical form. -/
def World.seeing (digest : String) : World where
  openConfined := fun _ _ _ => .ok (.ok (some digest))
  fileSha256 := fun _ => .ok (some digest)
  canonicalize := fun ws => .ok ws
  objective := fun _ _ => .error ("ObjectiveUnknown", "no objective record")
  executorAlive := fun _ _ => true
  desk := none
  reconcileFailed := none

section Forward

variable {c : Codec} {key : ApprovalIdentity → String} {Q : Ledger → UInt64 → Prop} {J : List RecordView} {l : Ledger}
variable {id : UInt64} {digest : String}

theorem command_writes (c : Codec) (id : UInt64) (kind : NoteKind) {decide : List RecordView → Except String (List UInt64 × Value)}
    {links : List UInt64} {text : Value} (h : decide J = .ok (links, text)) :
    (command c (.writes id) J kind decide).1 = J ++ [hostNote id kind (links.filter (· ≠ 0)) (c.print text)] := by
  simp [command, withHome, Disk.writes, h, appendEffect, append]

theorem hostViews_writes (h : J.length ≤ hostRecallMax) : hostViews (.writes id) J = .ok J := by
  simp [hostViews, Disk.writes, h]

theorem authorizeRecord_mints (digest : String) (req : MintRequest) (row : CommitRow) (id : UInt64) (hl : Ledger.fromRecords c J = .ok l) (hJ : J.length ≤ hostRecallMax)
    (happ : trim req.approver ≠ "") (hcon : req.constraints = [])
    (hrow : commitOf l req = some row) (hws : req.workspace = row.workspace)
    (hsib : ∀ gid ∈ l.mintedByCommit[row.id]?.getD [], siblingCheck l (some digest) gid = .ok ()) :
    authorizeRecord c (.writes id) (.seeing digest) req none none J = .ok ([row.id],
      stamp c (mintedText row req.approver (Path.join row.workspace row.path) (some digest) none none) J row.id) := by
  have hall : ∀ gs : List UInt64, (∀ gid ∈ gs, siblingCheck l (some digest) gid = .ok ()) →
      gs.forM (siblingCheck l (some digest)) = .ok () := by
    intro gs hgs
    induction gs with
    | nil => rfl
    | cons g gs ih =>
      unfold List.forM
      rw [hgs g (by simp)]
      exact ih fun gid hgid => hgs gid (by simp [hgid])
  unfold authorizeRecord
  rw [if_neg happ, if_neg (by simp [hcon])]
  simp only [World.seeing, deskOf, hostViews_writes hJ, hl, Except.mapError, hrow, deskCheck, objectiveOf,
    Bind.bind, Except.bind, hall _ hsib, hws, hcon]
  simp

theorem siblingCheck_stale {gid : UInt64} {prior : Option String} (hi : l.intentOf gid = none)
    (hp : l.grants[gid]?.bind Grant.priorSha256 ≠ some prior) : siblingCheck l prior gid = .ok () := by
  unfold siblingCheck
  rw [hi]
  dsimp only
  split_ifs
  · rfl
  · rfl

theorem intentRecord_opens (key : ApprovalIdentity → String) (id : UInt64) (req : IntentRequest)
    (hl : Ledger.fromRecords c J = .ok l) (hJ : J.length ≤ hostRecallMax) {g : Grant} {ws : String}
    (hg : l.grants[req.authorization]? = some g) (hws : g.workspace = some ws)
    (hcheck : l.checkIntent req (some digest) = .ok g) (hmint : checkMintedBacking l g = .ok ())
    (happ : g.approved = none) (hobj : g.objective = none) :
    intentRecord c key (.writes id) (.seeing digest) req J =
      .ok ([g.id], stamp c (intentText req g (some digest)) J g.id) := by
  have hcur : intentCurrent (.seeing digest) l req = .ok (some digest, none) := by
    simp [intentCurrent, intentPrior, hg, hws, World.seeing]
  unfold intentRecord
  simp [hostViews_writes hJ, hl, Except.mapError, hcur, hcheck, hmint, hws, checkApprovedBacking, happ,
    objectiveStands, hobj, Bind.bind, Except.bind]

theorem ackRecord_done (id : UInt64) (hl : Ledger.fromRecords c J = .ok l) (hJ : J.length ≤ hostRecallMax) {intent : UInt64}
    {row : IntentRow} {g : Grant} {ws : String} (hrow : l.intents[intent]? = some row)
    (ht : row.state.terminal = false) (hg : l.grants[row.authorization]? = some g) (hon : g.honoured = true)
    (hws : g.workspace = some ws) :
    ackRecord c (.writes id) (.seeing row.contentSha256) intent .null J = .ok ([intent, row.authorization],
      stamp c (ackText intent row .done (.ok (some row.contentSha256)) .null) J intent) := by
  have hseen : confinedWorldState (.seeing row.contentSha256) l row = (.done, .ok (some row.contentSha256)) := by
    simp [confinedWorldState, hg, hon, hws, World.seeing, stateFrom]
  unfold ackRecord
  simp [hostViews_writes hJ, hl, Except.mapError, hrow, ht, hseen, Bind.bind, Except.bind]

end Forward

/-- A history from the empty journal leads to this ledger, with `n` records, all of ids below `next`. -/
def Leads (c : Codec) (key : ApprovalIdentity → String) (Q : Ledger → UInt64 → Prop) (n : Nat) (next : UInt64)
    (l : Ledger) : Prop :=
  ∃ J, History c key Q [] J ∧ Consistent c J l ∧ J.length = n ∧ ∀ r ∈ J, r.id < next

namespace Leads

variable {c : Codec} {key : ApprovalIdentity → String} {Q : Ledger → UInt64 → Prop} {l l' : Ledger} {n : Nat}
variable {id id' : UInt64} {digest : String}

theorem start : Leads c key Q 0 1 {} := ⟨[], .refl, Unreserved.nil.consistent, rfl, by simp⟩

/-- A call that appends the record `id` and no other. -/
theorem write (h : Leads c key Q n id l) (hlt : id < id')
    (hcall : ∀ J, Consistent c J l → J.length = n →
      ∃ r, r.id = id ∧ Step c key Q J (J ++ [r]) ∧ l.read c r = .ok l' ∧ Move Q id l l') :
    Leads c key Q (n + 1) id' l' := by
  obtain ⟨J, hJ, hcons, hlen, hids⟩ := h
  obtain ⟨r, hid, hstep, hr, hm⟩ := hcall J hcons hlen
  have hinc : Increasing (J ++ [r]) := by
    refine List.pairwise_append.2 ⟨hcons.increasing, List.pairwise_singleton _ _, ?_⟩
    intro r₁ hr₁ r₂ hr₂
    rw [List.mem_singleton.1 hr₂, hid]
    exact hids r₁ hr₁
  refine ⟨_, hJ.tail ⟨hstep, hinc⟩, ?_, ?_, ?_⟩
  · have hadv : Advance c Q (J, l) (J ++ [r], l') := ⟨⟨r, rfl, hr, hid ▸ hm⟩, hinc⟩
    exact hcons.advance hadv
  · simp [hlen]
  · intro r' hr'
    rcases List.mem_append.1 hr' with hr' | hr'
    · exact UInt64.lt_trans (hids r' hr') hlt
    · rw [List.mem_singleton.1 hr', hid]
      exact hlt

section Lawful

variable (hc : c.Lawful) (h : Leads c key Q n id l) (hlt : id < id') (hn : n ≤ hostRecallMax)
include hc h hlt

theorem commit (workspace : String) (task p e : UInt64) (proposal path content : String) :
    Leads c key Q (n + 1) id' { l with
      commits := l.commits.insert id ⟨id, p, e, proposal, path, content, workspace, none⟩ } := by
  refine h.write hlt fun J _ _ => ⟨hostNote id .effect ([p, e].filter (· ≠ 0))
    (c.print (commitText workspace task p e proposal path content none {})), rfl, ?_, ?_, .commit _⟩
  · have hstep : Step c key Q J _ := .composeCommit (.writes id) workspace task p e proposal path content none {}
    unfold writeComposeCommit at hstep
    rwa [command_writes _ _ _ rfl] at hstep
  · have hflat : (commitText workspace task p e proposal path content none {}).Flat := flat_commitText
    obtain ⟨r, hr, hget⟩ := hc.reads_back hflat
    rw [read_effectNote, hr]
    exact read_commitText hget

include hn

theorem mint (req : MintRequest) (row : CommitRow) (happ : trim req.approver ≠ "") (hcon : req.constraints = [])
    (hrow : commitOf l req = some row) (hws : req.workspace = row.workspace)
    (hsib : ∀ gid ∈ l.mintedByCommit[row.id]?.getD [], siblingCheck l (some digest) gid = .ok ()) :
    Leads c key Q (n + 1) id' (l.addGrant (mintedGrant id (([row.id].filter (· ≠ 0) ++ [0, 0, 0, 0]).take 4) row
      (Path.join row.workspace row.path) (some digest) none) none) := by
  refine h.write hlt fun J hcons hlen => ?_
  have hdec := authorizeRecord_mints _ _ _ id hcons.reads (hlen ▸ hn) happ hcon hrow hws hsib
  refine ⟨hostNote id .authorization ([row.id].filter (· ≠ 0)) (c.print (stamp c
    (mintedText row req.approver (Path.join row.workspace row.path) (some digest) none none) J row.id)),
    rfl, ?_, ?_, .grant _ _ rfl⟩
  · rw [← command_writes _ _ _ hdec]
    exact .authorize (.writes id) (.seeing digest) req none none
  · have hflat : (mintedText row req.approver (Path.join row.workspace row.path) (some digest) none none).Flat :=
      flat_mintedText
    obtain ⟨r, hr, hget⟩ := hc.reads_back (hflat.set (plain_toJson (inherit c J row.id)))
    rw [read_authorizationNote, stamp, hr]
    exact read_mintedText hget

theorem opens (req : IntentRequest) (g : Grant) {ws : String} (hg : l.grants[req.authorization]? = some g)
    (hws : g.workspace = some ws) (hcheck : l.checkIntent req (some digest) = .ok g)
    (hmint : checkMintedBacking l g = .ok ()) (happ : g.approved = none) (hobj : g.objective = none)
    (hq : Q l req.authorization) :
    Leads c key Q (n + 1) id' { l with
      spent := l.spent.insert g.id id
      intents := l.intents.insert id (openedRow id req g (some digest)) } := by
  refine h.write hlt fun J hcons hlen => ?_
  have hdec := intentRecord_opens key id _ hcons.reads (hlen ▸ hn) hg hws hcheck hmint happ hobj
  have hid := hcons.grant_id _ _ hg
  have hs : l.spent[g.id]? = none := hid ▸ hcons.intentOf_none (checkIntent_ok hcheck).2
  have hmem : g.id ∈ l.grants := hid ▸ Table.mem_iff.2 ⟨g, hg⟩
  have hq' : Q l g.id := hid ▸ hq
  refine ⟨hostNote id .effect ([g.id].filter (· ≠ 0)) (c.print (stamp c (intentText req g (some digest)) J g.id)),
    rfl, ?_, ?_, .intent (openedRow id req g (some digest)) rfl rfl hs hmem hq'⟩
  · rw [← command_writes _ _ _ hdec]
    refine .openIntent (.writes id) (.seeing digest) req ?_
    intro l' out hl' _
    rw [hcons.reads] at hl'
    cases Except.ok.inj hl'
    exact hq
  · have hflat : (intentText req g (some digest)).Flat := flat_intentText
    obtain ⟨r, hr, hget⟩ := hc.reads_back (hflat.set (plain_toJson (inherit c J g.id)))
    rw [read_effectNote, stamp, hr]
    exact read_intentText hget hs

theorem acks (intent : UInt64) {row : IntentRow} {g : Grant} {ws : String} (hrow : l.intents[intent]? = some row)
    (ht : row.state.terminal = false) (hobj : row.objectiveId = none) (hg : l.grants[row.authorization]? = some g)
    (hon : g.honoured = true) (hws : g.workspace = some ws) :
    Leads c key Q (n + 1) id' { l with
      intents := l.intents.insert intent (row.settled id .done (some row.contentSha256)) } := by
  refine h.write hlt fun J hcons hlen => ?_
  have hdec := ackRecord_done id hcons.reads (hlen ▸ hn) hrow ht hg hon hws
  refine ⟨hostNote id .effect ([intent, row.authorization].filter (· ≠ 0)) (c.print (stamp c
    (ackText intent row .done (.ok (some row.contentSha256)) .null) J intent)),
    rfl, ?_, ?_, .settle _ _ _ _ hrow ht (by decide)⟩
  · rw [← command_writes _ _ _ hdec]
    exact .ack (.writes id) (.seeing row.contentSha256) intent .null
  · have hflat : (ackText intent row .done (.ok (some row.contentSha256)) .null).Flat := by
      unfold ackText
      rw [hobj]
      apply flat_obj
      · simp
      · simp
    obtain ⟨r, hr, hget⟩ := hc.reads_back (hflat.set (plain_toJson (inherit c J intent)))
    have hget' : ∀ k, r.get k = ((ackText intent { row with objectiveId := none } .done
        (.ok (some row.contentSha256)) .null).set "provenance" (inherit c J intent).toJson).get k := by
      rw [← hobj]
      exact hget
    rw [read_effectNote, stamp, hr]
    exact read_settle "ack" (hget' _) (hget' _) (Or.inl rfl) (hget' _) (hget' _) (by decide) (hget' _) hrow ht

end Lawful

end Leads

/-! ## A proposal with two effects -/

namespace Twice

def row : CommitRow := ⟨1, 10, 11, "p", "f", "new", "/w", none⟩

def mintRequest : MintRequest := ⟨10, "p", "/w", "op", []⟩

/-- The grant minted as record `id` while the target's digest was `digest`. -/
def grant (id : UInt64) (digest : String) : Grant := mintedGrant id [1, 0, 0, 0] row "/w/f" (some digest) none

def request (a : UInt64) : IntentRequest := ⟨a, "p", "f", "/w/f", "new", 7, 70⟩

def committed : Ledger := { commits := (∅ : ExtTreeMap UInt64 CommitRow).insert 1 row }

def minted : Ledger := (committed.addGrant (grant 2 "a") none).addGrant (grant 3 "b") none

def openIntent (l : Ledger) (a id : UInt64) (digest : String) : Ledger :=
  { l with
    spent := l.spent.insert a id
    intents := l.intents.insert id (openedRow id (request a) (grant a digest) (some digest)) }

def ackDone (l : Ledger) (i a id : UInt64) (digest : String) : Ledger :=
  { l with
    intents := l.intents.insert i
      ((openedRow i (request a) (grant a digest) (some digest)).settled id .done (some "new")) }

section Run

variable {Q : Ledger → UInt64 → Prop} (key : ApprovalIdentity → String)

theorem leads_committed : Leads compact key Q 1 2 committed :=
  Leads.start.commit compact_lawful (by decide) "/w" 9 10 11 "p" "f" "new"

/-- The digest changed from "a" to "b" after the first grant, so it does not stand in the way of the second. -/
theorem leads_minted : Leads compact key Q 3 4 minted := by
  have h₂ : Leads compact key Q 2 3 (committed.addGrant (grant 2 "a") none) :=
    (leads_committed key).mint compact_lawful (by decide) (by decide) mintRequest row (by decide) rfl (by decide) rfl
      (by simp [committed])
  refine h₂.mint compact_lawful (by decide) (by decide) mintRequest row (by decide) rfl
    (by decide) rfl ?_
  intro gid hgid
  have he : gid = 2 := List.mem_singleton.1 hgid
  subst he
  exact siblingCheck_stale (by decide) (by decide)

/-- The intent of grant 3 is opened and done while the digest is "b". -/
theorem leads_once (hq : Q minted 3) : Leads compact key Q 5 6 (ackDone (openIntent minted 3 4 "b") 4 3 5 "b") := by
  have h₄ : Leads compact key Q 4 5 (openIntent minted 3 4 "b") :=
    (leads_minted key).opens compact_lawful (by decide) (by decide) (request 3) (grant 3 "b") (by decide) rfl
      (by rfl) (by rfl) rfl rfl hq
  exact h₄.acks compact_lawful (by decide) (by decide) 4 (g := grant 3 "b") (by decide) rfl rfl
    (by decide) rfl rfl

/-- The digest goes back to "a": grant 2 is unspent and no longer stale. -/
theorem leads_twice (hq : ∀ l a, Q l a) : Leads compact key Q 7 8
    (ackDone (openIntent (ackDone (openIntent minted 3 4 "b") 4 3 5 "b") 2 6 "a") 6 2 7 "a") := by
  have h₆ : Leads compact key Q 6 7 (openIntent (ackDone (openIntent minted 3 4 "b") 4 3 5 "b") 2 6 "a") :=
    (leads_once key (hq minted 3)).opens compact_lawful (by decide) (by decide) (request 2) (grant 2 "a")
      (by decide) rfl (by rfl) (by rfl) rfl rfl (hq _ _)
  exact h₆.acks compact_lawful (by decide) (by decide) 6 (g := grant 2 "a") (by decide) rfl rfl
    (by decide) rfl rfl

end Run

end Twice

/-- **Two DONE effects of one committed proposal.** The target's digest changes after the first grant, so a second is
minted; that one is spent and done; the digest changes back, and the first grant, unspent all along, is spent too. -/
theorem two_done_effects : ¬ ∀ J, History compact (fun _ => "") (fun _ _ => True) [] J →
    ∀ l, Ledger.fromRecords compact J = .ok l → ∀ cm, (doneEffects l cm).length ≤ 1 := by
  intro h
  obtain ⟨J, hJ, hcons, -, -⟩ := Twice.leads_twice (Q := fun _ _ => True) (fun _ => "") fun _ _ => trivial
  have hlen := h J hJ _ hcons.reads 1
  have htwo : (doneEffects (Twice.ackDone (Twice.openIntent
    (Twice.ackDone (Twice.openIntent Twice.minted 3 4 "b") 4 3 5 "b") 2 6 "a") 6 2 7 "a") 1).length = 2 := by
    decide
  omega

/-- A history that spends one of the two grants of the proposal. -/
theorem one_done_effect_spent : ∃ J, History compact (fun _ => "") SiblingsSettled [] J ∧ J.length = 5 ∧
    ∃ l, Ledger.fromRecords compact J = .ok l ∧ ∀ cm, (doneEffects l cm).length ≤ 1 := by
  have hq : SiblingsSettled Twice.minted 3 := by
    intro cm i row _ hrow
    simp [Twice.minted, Twice.committed, Ledger.addGrant] at hrow
  obtain ⟨J, hJ, -, hlen, -⟩ := Twice.leads_once (fun _ => "") hq
  exact ⟨J, hJ, hlen, one_done_effect compact compact_lawful _ [] J .nil hJ⟩

/-- The history of `two_done_effects` is consistent all the same. -/
theorem ledger_consistent_spent : ∃ J, History compact (fun _ => "") (fun _ _ => True) [] J ∧ J.length = 7 ∧
    ∃ l, Ledger.fromRecords compact J = .ok l := by
  obtain ⟨J, hJ, -, hlen, -⟩ := Twice.leads_twice (Q := fun _ _ => True) (fun _ => "") fun _ _ => trivial
  obtain ⟨l, hl, -⟩ := ledger_consistent compact compact_lawful _ [] J .nil hJ
  exact ⟨J, hJ, hlen, l, hl⟩

end SovereignCore.Effects
