import SovereignCore.Effects.Runs

/-!
# Submissions of approved proposals

`submit` of `approved.rs`, run by any number of processes over one journal: claim the approval's keys, put the claim in
flight, start the compose run. A call that answers with an error ends the submission; a process may stop anywhere. The
run is the one effect that the journal does not hold, so the system keeps the list of runs started.

* `System`, `Turn` : submissions under way, and what can happen next;
* `approved_runs_once` : the journal reads back, keys are claimed once, and an approval's run is started at most once.
-/

namespace SovereignCore.Effects.Replay

open Std SovereignCore.Json

/-- A submission under way: its claim and the keys it claimed; `cleared` once the claim is in flight. -/
structure Submission where
  claim : UInt64
  keys : ClaimKeys
  cleared : Bool

structure System where
  journal : List RecordView
  under : List Submission := []
  /-- The compose runs started, each with the claim and the keys it was started for. -/
  started : List (UInt64 × ClaimKeys) := []

/-- What can happen next. The submissions are in no order: `pre` and `post` are those of the other processes. -/
inductive Turn (c : Codec) (key : ApprovalIdentity → String) : System → System → Prop
  | call (J J' : List RecordView) (us : List Submission) (ss : List (UInt64 × ClaimKeys))
      (h : Next c key (fun _ _ => True) J J') : Turn c key ⟨J, us, ss⟩ ⟨J', us, ss⟩
  | claimed (d : Disk) (alive : UInt32 → UInt64 → Bool) (me : Executor) (keys : ClaimKeys) (i : UInt64)
      (J : List RecordView) (us : List Submission) (ss : List (UInt64 × ClaimKeys))
      (hinc : Increasing (claim c d alive me keys J).1) (h : (claim c d alive me keys J).2 = .ok i) :
      Turn c key ⟨J, us, ss⟩ ⟨(claim c d alive me keys J).1, ⟨i, keys, false⟩ :: us, ss⟩
  | flying (d : Disk) (me : Executor) (i n : UInt64) (keys : ClaimKeys) (J : List RecordView)
      (pre post : List Submission) (ss : List (UInt64 × ClaimKeys)) (hinc : Increasing (markInFlight c d me i J).1)
      (h : (markInFlight c d me i J).2 = .ok n) :
      Turn c key ⟨J, pre ++ ⟨i, keys, false⟩ :: post, ss⟩
        ⟨(markInFlight c d me i J).1, pre ++ ⟨i, keys, true⟩ :: post, ss⟩
  | start (i : UInt64) (keys : ClaimKeys) (J : List RecordView) (pre post : List Submission)
      (ss : List (UInt64 × ClaimKeys)) :
      Turn c key ⟨J, pre ++ ⟨i, keys, true⟩ :: post, ss⟩ ⟨J, pre ++ post, (i, keys) :: ss⟩
  | lost (J : List RecordView) (us us' : List Submission) (ss : List (UInt64 × ClaimKeys)) (h : us'.Sublist us) :
      Turn c key ⟨J, us, ss⟩ ⟨J, us', ss⟩

section Calls

variable {c : Codec} {d : Disk} {J : List RecordView} {i : UInt64}

theorem call_ok {decide : ReplayLedger → Except Refusal (UInt64 × Value)}
    (h : (locked d J fun J => record c d J decide).2 = .ok i) :
    ∃ l link text, ReplayLedger.fromRecords c J = .ok l ∧ decide l = .ok (link, text) ∧
      (locked d J fun J => record c d J decide).1 = J ++ [hostNote i .effect [link] (c.print text)] := by
  have hrec : (record c d J decide).2 = .ok i := by
    rcases locked_cases d J fun J => record c d J decide with ⟨-, e, he⟩ | ⟨-, ⟨e, he⟩ | he⟩
    · rw [he] at h
      cases h
    · rw [he] at h
      cases h
    · rwa [he] at h
  have hfst : (locked d J fun J => record c d J decide).1 = (record c d J decide).1 := by
    rcases locked_cases d J fun J => record c d J decide with ⟨-, e, he⟩ | ⟨hJ, -⟩
    · rw [he] at h
      cases h
    · exact hJ
  rw [hfst]
  unfold record at hrec ⊢
  rcases hl : ledger c d J with e | l
  · rw [hl] at hrec
    cases hrec
  rw [hl] at hrec
  dsimp only at hrec ⊢
  rcases hdec : decide l with e | ⟨link, text⟩
  · rw [hdec] at hrec
    cases hrec
  rw [hdec] at hrec
  refine ⟨l, link, text, ledger_ok hl, hdec, ?_⟩
  dsimp only at hrec ⊢
  unfold appendRecord at hrec ⊢
  cases hn : d.note 0 with
  | refused why =>
    rw [hn] at hrec
    cases hrec
  | written id =>
    rw [hn] at hrec
    cases Except.ok.inj hrec
    rfl
  | unread id why =>
    rw [hn] at hrec
    cases hrec

variable (hc : c.Lawful)
include hc

theorem claim_ok {alive : UInt32 → UInt64 → Bool} {me : Executor} {keys : ClaimKeys}
    (h : (claim c d alive me keys J).2 = .ok i) :
    ∃ r, (claim c d alive me keys J).1 = J ++ [r] ∧ r.id = i ∧ keysOf c r = some keys := by
  unfold claim at h ⊢
  split at h
  · cases h
  obtain ⟨l, link, text, -, hdec, hJ⟩ := call_ok h
  split at hdec
  · cases hdec
  split_ifs at hdec
  cases Except.ok.inj hdec
  refine ⟨_, hJ, rfl, ?_⟩
  have hex : (Value.obj [("pid", .num me.pid.toUInt64), ("start", .num me.start)]).plain = true :=
    plain_obj ["pid", "start"] rfl (by decide +kernel) (by simp [Value.scalar])
  have hflat : (acceptedText keys me).Flat := by
    apply flat_obj
    · simp
    · simp [hex]
  obtain ⟨r, hr, hget⟩ := hc.reads_back hflat
  have hfield : r.get "approved_submission" = some (.str "accepted") := hget _
  have hkey : r.get "approval_key" = some (.str keys.approvalKey) := hget _
  have hreq : r.get "request_id" = some (.str keys.requestId) := hget _
  have happ : r.get "approval_id" = some (.str keys.approvalId) := hget _
  have htrace : r.get "trace_id" = some (.str keys.traceId) := hget _
  simp [keysOf, hostNote, NoteKind.name, hr, hfield, hkey, hreq, happ, htrace, Value.asStr]

theorem markInFlight_ok {me : Executor} {n : UInt64} (h : (markInFlight c d me i J).2 = .ok n) :
    ∃ l row r, ReplayLedger.fromRecords c J = .ok l ∧ l.claims[i]? = some row ∧ row.state = .accepted ∧
      (markInFlight c d me i J).1 = J ++ [r] ∧ flies c i r = true := by
  unfold markInFlight step at h ⊢
  obtain ⟨l, link, text, hl, hdec, hJ⟩ := call_ok h
  split at hdec
  · cases hdec
  rename_i row hrow
  rw [Result.guard_ok, Result.guard_ok] at hdec
  obtain ⟨-, hst, hdec⟩ := hdec
  cases Except.ok.inj hdec
  refine ⟨l, row, _, hl, hrow, by simpa using hst, hJ, ?_⟩
  have hflat : (phaseText "in_flight" i []).Flat := flat_inFlightText
  obtain ⟨r, hr, hget⟩ := hc.reads_back hflat
  have hfield : r.get "approved_submission" = some (.str "in_flight") := hget _
  have hclaim : r.get "claim" = some (.num i) := hget _
  simp [flies, phaseOf, hostNote, NoteKind.name, hr, hfield, hclaim, Value.asStr, Value.asU64]

end Calls

section Invariant

variable {c : Codec} {key : ApprovalIdentity → String} {J J' : List RecordView} {s s' : System} {i : UInt64}
variable {keys : ClaimKeys}

/-- The runs that have been started or may still be: a claim in flight, and the keys of its submission. -/
def System.runs (s : System) : List (UInt64 × ClaimKeys) :=
  ((s.under.filter Submission.cleared).map fun u => (u.claim, u.keys)) ++ s.started

def System.claims (s : System) : List (UInt64 × ClaimKeys) := (s.under.map fun u => (u.claim, u.keys)) ++ s.started

def Held (c : Codec) (J : List RecordView) (p : UInt64 × ClaimKeys) : Prop :=
  ∀ l, ReplayLedger.fromRecords c J = .ok l → ∃ row, l.claims[p.1]? = some row ∧ row.keys = p.2

/-- What holds of the system after any turns. -/
structure Sound (c : Codec) (s : System) : Prop where
  reads : Reads c s.journal
  increasing : Increasing s.journal
  held : ∀ p ∈ s.claims, Held c s.journal p
  flown : ∀ p ∈ s.runs, 1 ≤ s.journal.countP (flies c p.1)
  distinct : (s.runs.map Prod.fst).Nodup

theorem Held.mono {p : UInt64 × ClaimKeys} (h : Held c J p) (hr : Reads c J) (hp : J <+: J') (hi : Increasing J') :
    Held c J' p := by
  obtain ⟨rs, rfl⟩ := hp
  obtain ⟨l, hl⟩ := hr
  intro l' hl'
  obtain ⟨row, hrow, hk⟩ := h l hl
  obtain ⟨row', hrow', hk'⟩ := fromRecords_keeps hl hl' hi hrow
  exact ⟨row', hrow', hk'.trans hk⟩

theorem flies_mono (hp : J <+: J') (i : UInt64) : J.countP (flies c i) ≤ J'.countP (flies c i) :=
  hp.sublist.countP_le

theorem Sound.grow {us : List Submission} {ss : List (UInt64 × ClaimKeys)} (h : Sound c ⟨J, us, ss⟩) (hr : Reads c J')
    (hp : J <+: J') (hi : Increasing J') : Sound c ⟨J', us, ss⟩ where
  reads := hr
  increasing := hi
  held := fun p hp' => (h.held p hp').mono h.reads hp hi
  flown := fun p hp' => (h.flown p hp').trans (flies_mono hp p.1)
  distinct := h.distinct

theorem Sound.claimed (hc : c.Lawful) {d : Disk} {alive : UInt32 → UInt64 → Bool} {me : Executor}
    {us : List Submission} {ss : List (UInt64 × ClaimKeys)} (h : Sound c ⟨J, us, ss⟩)
    (hinc : Increasing (claim c d alive me keys J).1) (hok : (claim c d alive me keys J).2 = .ok i) :
    Sound c ⟨(claim c d alive me keys J).1, ⟨i, keys, false⟩ :: us, ss⟩ := by
  have hr : Reads c (claim c d alive me keys J).1 := claim_reads hc h.increasing h.reads
  obtain ⟨r, hJ, rfl, hk⟩ := claim_ok hc hok
  rw [hJ] at hr hinc ⊢
  have hgrow := h.grow hr (List.prefix_append _ _) hinc
  refine ⟨hr, hinc, ?_, hgrow.flown, hgrow.distinct⟩
  intro p hp
  rcases List.mem_cons.1 hp with rfl | hp
  · intro l hl
    obtain ⟨l₀, -, hread⟩ := fromRecords_snoc_inv hl
    exact read_accepts hk hread
  · exact hgrow.held p hp

theorem Sound.flying (hc : c.Lawful) {d : Disk} {me : Executor} {n : UInt64} {pre post : List Submission}
    {ss : List (UInt64 × ClaimKeys)} (h : Sound c ⟨J, pre ++ ⟨i, keys, false⟩ :: post, ss⟩)
    (hinc : Increasing (markInFlight c d me i J).1) (hok : (markInFlight c d me i J).2 = .ok n) :
    Sound c ⟨(markInFlight c d me i J).1, pre ++ ⟨i, keys, true⟩ :: post, ss⟩ := by
  have hr : Reads c (markInFlight c d me i J).1 := markInFlight_reads hc h.reads
  obtain ⟨l, row, r, hl, hrow, hst, hJ, hfl⟩ := markInFlight_ok hc hok
  rw [hJ] at hr hinc ⊢
  have hgrow := h.grow hr (List.prefix_append _ _) hinc
  -- the claim was accepted and not in flight, so no run of it was started or cleared
  have hzero : J.countP (flies c i) = 0 := by
    rw [((kept_of_reads hl h.increasing).counts i row hrow).1, hst]
    rfl
  have hnew : i ∉ (System.runs ⟨J, pre ++ ⟨i, keys, false⟩ :: post, ss⟩).map Prod.fst := by
    intro hmem
    obtain ⟨p, hp, rfl⟩ := List.mem_map.1 hmem
    have hone := h.flown p hp
    rw [hzero] at hone
    omega
  have hruns : (System.runs ⟨J ++ [r], pre ++ ⟨i, keys, true⟩ :: post, ss⟩).Perm
      ((i, keys) :: System.runs ⟨J, pre ++ ⟨i, keys, false⟩ :: post, ss⟩) := by
    simp [System.runs]
  refine ⟨hr, hinc, ?_, ?_, ?_⟩
  · intro p hp
    refine hgrow.held p ?_
    simpa [System.claims] using hp
  · intro p hp
    rcases List.mem_cons.1 (hruns.mem_iff.1 hp) with rfl | hp
    · rw [countP_snoc, hfl]
      simp
    · exact hgrow.flown p hp
  · rw [(hruns.map Prod.fst).nodup_iff, List.map_cons, List.nodup_cons]
    exact ⟨hnew, h.distinct⟩

theorem Sound.start {pre post : List Submission} {ss : List (UInt64 × ClaimKeys)}
    (h : Sound c ⟨J, pre ++ ⟨i, keys, true⟩ :: post, ss⟩) : Sound c ⟨J, pre ++ post, (i, keys) :: ss⟩ := by
  have hclaims : (System.claims ⟨J, pre ++ post, (i, keys) :: ss⟩).Perm
      (System.claims ⟨J, pre ++ ⟨i, keys, true⟩ :: post, ss⟩) := by
    simp only [System.claims, List.map_append, List.map_cons, List.append_assoc]
    exact List.Perm.append_left _ List.perm_middle
  have hruns : (System.runs ⟨J, pre ++ post, (i, keys) :: ss⟩).Perm
      (System.runs ⟨J, pre ++ ⟨i, keys, true⟩ :: post, ss⟩) := by
    simp only [System.runs, List.filter_append, List.filter_cons_of_pos, List.map_append, List.map_cons,
      List.append_assoc]
    exact List.Perm.append_left _ List.perm_middle
  refine ⟨h.reads, h.increasing, ?_, ?_, ?_⟩
  · exact fun p hp => h.held p (hclaims.mem_iff.1 hp)
  · exact fun p hp => h.flown p (hruns.mem_iff.1 hp)
  · rw [(hruns.map Prod.fst).nodup_iff]
    exact h.distinct

theorem Sound.lost {us us' : List Submission} {ss : List (UInt64 × ClaimKeys)} (h : Sound c ⟨J, us, ss⟩)
    (hs : us'.Sublist us) : Sound c ⟨J, us', ss⟩ := by
  have hclaims : (System.claims ⟨J, us', ss⟩).Sublist (System.claims ⟨J, us, ss⟩) :=
    (hs.map _).append (List.Sublist.refl _)
  have hruns : (System.runs ⟨J, us', ss⟩).Sublist (System.runs ⟨J, us, ss⟩) :=
    ((hs.filter _).map _).append (List.Sublist.refl _)
  refine ⟨h.reads, h.increasing, ?_, ?_, ?_⟩
  · exact fun p hp => h.held p (hclaims.subset hp)
  · exact fun p hp => h.flown p (hruns.subset hp)
  · exact h.distinct.sublist (hruns.map _)

theorem Sound.turn (hc : c.Lawful) (h : Sound c s) (ht : Turn c key s s') : Sound c s' := by
  cases ht with
  | call J J' us ss hnext => exact h.grow (Effects.step_reads hc hnext.1 h.increasing h.reads) (hnext.1.isPrefix hc) hnext.2
  | claimed d alive me keys i J us ss hinc hok => exact h.claimed hc hinc hok
  | flying d me i n keys J pre post ss hinc hok => exact h.flying hc hinc hok
  | start i keys J pre post ss => exact h.start
  | lost J us us' ss hs => exact h.lost hs

theorem Sound.turns (hc : c.Lawful) (h : Sound c s) (ht : Relation.ReflTransGen (Turn c key) s s') : Sound c s' := by
  induction ht with
  | refl => exact h
  | tail _ hstep ih => exact ih.turn hc hstep

theorem Sound.started_le_one (h : Sound c s) (k : String) :
    (s.started.filter fun p => k ∈ p.2.keys).length ≤ 1 := by
  obtain ⟨l, hl⟩ := h.reads
  have hkept := kept_of_reads hl h.increasing
  have hnd : ((s.started.filter fun p => k ∈ p.2.keys).map Prod.fst).Nodup := by
    refine h.distinct.sublist ?_
    unfold System.runs
    rw [List.map_append]
    exact (List.filter_sublist.map _).trans (List.sublist_append_right _ _)
  have hsame : ∀ p ∈ s.started.filter fun p => k ∈ p.2.keys, l.index[k]? = some p.1 := by
    intro p hp
    obtain ⟨hp, hk⟩ := List.mem_filter.1 hp
    obtain ⟨row, hrow, hkeys⟩ := h.held p (List.mem_append_right _ hp) l hl
    exact hkept.indexed p.1 row k hrow (hkeys ▸ of_decide_eq_true hk)
  refine Table.length_le_one hnd fun p hp q hq => ?_
  have hpq := hsame p hp
  rw [hsame q hq] at hpq
  exact (Option.some.inj hpq).symm

end Invariant

/-! ## A submission that runs -/

section Forward

variable {c : Codec} {keys : ClaimKeys} {me : Executor}

def accepting (c : Codec) (keys : ClaimKeys) (me : Executor) : RecordView :=
  hostNote 1 .effect [0] (c.print (acceptedText keys me))

theorem call_writes {id link : UInt64} {J : List RecordView} {l : ReplayLedger} {text : Value}
    {decide : ReplayLedger → Except Refusal (UInt64 × Value)} (hl : ledger c (.writes id) J = .ok l)
    (hdec : decide l = .ok (link, text)) :
    (locked (.writes id) J fun J => record c (.writes id) J decide) =
      (J ++ [hostNote id .effect [link] (c.print text)], .ok id) := by
  have hrec : record c (.writes id) J decide = (J ++ [hostNote id .effect [link] (c.print text)], .ok id) := by
    unfold record
    rw [hl]
    dsimp only
    rw [hdec]
    rfl
  unfold locked
  dsimp only
  rw [hrec]
  rfl

theorem claim_first (hkeys : keys.check = .ok ()) (hme : me.start ≠ 0) :
    claim c (.writes 1) (fun _ _ => true) me keys [] = ([accepting c keys me], .ok 1) := by
  have hfree : ReplayLedger.check {} (fun _ _ => true) keys = none := by
    simp [ReplayLedger.check, ReplayLedger.find, ClaimKeys.keys]
  unfold claim
  rw [hkeys]
  refine call_writes (l := {}) rfl ?_
  simp [hfree, hme]

theorem markInFlight_first (hc : c.Lawful) (keys : ClaimKeys) (me : Executor) : ∃ r, r.id = 2 ∧
    markInFlight c (.writes 2) me 1 [accepting c keys me] = ([accepting c keys me, r], .ok 2) := by
  have hfree : ∀ k ∈ keys.keys, ({} : ReplayLedger).index[k]? = none := by simp
  obtain ⟨index, hread⟩ := read_accepted hc hfree me 1
  have hl : ReplayLedger.fromRecords c [accepting c keys me] = .ok _ := Replay.Reads.snoc (J := []) rfl hread
  refine ⟨hostNote 2 .effect [1] (c.print (phaseText "in_flight" 1 [])), rfl, ?_⟩
  refine call_writes hl ?_
  simp

end Forward

def onceKeys : ClaimKeys :=
  ⟨"0123456789abcdef0123456789abcdef0123456789abcdef0123456789abcdef", "request", "approval", "trace"⟩

theorem onceKeys_check : onceKeys.check = .ok () := by
  unfold ClaimKeys.check
  rw [if_neg (by decide +kernel), if_neg (by decide +kernel)]

end SovereignCore.Effects.Replay
