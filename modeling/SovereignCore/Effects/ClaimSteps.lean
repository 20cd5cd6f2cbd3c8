import SovereignCore.Effects.Claims

/-!
# Every replay call leaves a journal that reads back

One lemma for each call of the replay ledger: whatever its arguments, whichever process makes it and wherever the disk
fails it, the records it leaves behind are records that the strict reader accepts.

* `Reads` : the journal reads back; `claim_reads`, `step_reads`, `declare_reads`, `reconcileAtStart_reads`;
* `markInFlight_ok` : a call that answers puts an accepted claim in flight.
-/

namespace SovereignCore.Effects.Replay

open Std SovereignCore.Json

def Reads (c : Codec) (J : List RecordView) : Prop := ∃ l, ReplayLedger.fromRecords c J = .ok l

variable {c : Codec} {d : Disk} {J : List RecordView} {l : ReplayLedger} {link id i : UInt64} {text : Value}

theorem Reads.snoc {r : RecordView} {l' : ReplayLedger} (h : ReplayLedger.fromRecords c J = .ok l)
    (hr : l.read c r = .ok l') : ReplayLedger.fromRecords c (J ++ [r]) = .ok l' := by
  unfold ReplayLedger.fromRecords at h ⊢
  rw [List.foldlM_append, h]
  simpa using hr

/-! ## What a call can leave behind -/

theorem locked_cases {α : Type} (d : Disk) (J : List RecordView)
    (f : List RecordView → List RecordView × Except Refusal α) :
    ((locked d J f).1 = J ∧ ∃ e, (locked d J f).2 = .error e) ∨ (locked d J f).1 = (f J).1 ∧
      ((∃ e, (locked d J f).2 = .error e) ∨ (locked d J f).2 = (f J).2) := by
  unfold locked
  rcases d.opens with _ | why
  · right
    rcases f J with ⟨J', e | a⟩
    · exact ⟨rfl, Or.inr rfl⟩
    · rcases d.mark with _ | why
      · exact ⟨rfl, Or.inr rfl⟩
      · exact ⟨rfl, Or.inl ⟨_, rfl⟩⟩
  · exact Or.inl ⟨rfl, _, rfl⟩

theorem locked_fst {α : Type} {f : List RecordView → List RecordView × Except Refusal α} {P : List RecordView → Prop}
    (h0 : P J) (hf : P (f J).1) : P (locked d J f).1 := by
  rcases locked_cases d J f with ⟨hJ, -⟩ | ⟨hJ, -⟩
  · rw [hJ]
    exact h0
  · rw [hJ]
    exact hf

theorem appendRecord_cases (n : Nat) (link : UInt64) (text : Value) :
    ((appendRecord c d n J link text).1 = J ∧ ∃ e, (appendRecord c d n J link text).2 = .error e) ∨
      ∃ id, (appendRecord c d n J link text).1 = J ++ [hostNote id .effect [link] (c.print text)] := by
  unfold appendRecord
  rcases append_cases J .effect [link] (c.print text) (d.note n) with ⟨hJ, why, hr⟩ | ⟨id, hJ, -⟩
  · rcases ha : append J .effect [link] (c.print text) (d.note n) with ⟨J', e | a⟩
    · rw [ha] at hJ
      exact Or.inl ⟨hJ, _, rfl⟩
    · rw [ha] at hr
      cases hr
  · rcases ha : append J .effect [link] (c.print text) (d.note n) with ⟨J', e | a⟩
    · rw [ha] at hJ
      exact Or.inr ⟨id, hJ⟩
    · rw [ha] at hJ
      exact Or.inr ⟨id, hJ⟩

theorem ledger_ok (h : ledger c d J = .ok l) : ReplayLedger.fromRecords c J = .ok l := by
  unfold ledger at h
  split at h
  · cases h
  · rw [Result.guard_ok] at h
    exact h.2

/-- A call that decides on one record leaves that record or nothing. It answers only when it left it. -/
theorem call_cases (d : Disk) (J : List RecordView) (decide : ReplayLedger → Except Refusal (UInt64 × Value)) :
    ((locked d J fun J => record c d J decide).1 = J ∧ ∃ e, (locked d J fun J => record c d J decide).2 = .error e) ∨
      ∃ l link text id, ReplayLedger.fromRecords c J = .ok l ∧ decide l = .ok (link, text) ∧
        (locked d J fun J => record c d J decide).1 = J ++ [hostNote id .effect [link] (c.print text)] := by
  have hrec : ((record c d J decide).1 = J ∧ ∃ e, (record c d J decide).2 = .error e) ∨
      ∃ l link text id, ReplayLedger.fromRecords c J = .ok l ∧ decide l = .ok (link, text) ∧
        (record c d J decide).1 = J ++ [hostNote id .effect [link] (c.print text)] := by
    unfold record
    rcases hl : ledger c d J with e | l
    · exact Or.inl ⟨rfl, _, rfl⟩
    · dsimp only
      rcases hdec : decide l with e | ⟨link, text⟩
      · exact Or.inl ⟨rfl, _, rfl⟩
      · rcases appendRecord_cases (c := c) (d := d) (J := J) 0 link text with h | ⟨id, h⟩
        · exact Or.inl h
        · exact Or.inr ⟨l, link, text, id, ledger_ok hl, hdec, h⟩
  rcases locked_cases d J fun J => record c d J decide with h | ⟨hJ, hout⟩
  · exact Or.inl h
  · rcases hrec with ⟨hJ', e, he⟩ | ⟨l, link, text, id, hl, hdec, hJ'⟩
    · refine Or.inl ⟨hJ.trans hJ', ?_⟩
      rcases hout with he' | heq
      · exact he'
      · exact ⟨e, heq.trans he⟩
    · exact Or.inr ⟨l, link, text, id, hl, hdec, hJ.trans hJ'⟩

/-- A call leaves a journal that reads back when the record it decides on does. -/
theorem call_reads {decide : ReplayLedger → Except Refusal (UInt64 × Value)} (h : Reads c J)
    (hf : ∀ l link text, ReplayLedger.fromRecords c J = .ok l → decide l = .ok (link, text) →
      ∀ id, ∃ l', l.readEffect id (c.parse (c.print text)) = .ok l') :
    Reads c (locked d J fun J => record c d J decide).1 := by
  rcases call_cases (c := c) d J decide with ⟨hJ, -⟩ | ⟨l, link, text, id, hl, hdec, hJ⟩
  · rw [hJ]
    exact h
  · rw [hJ]
    obtain ⟨l', hl'⟩ := hf l link text hl hdec id
    exact ⟨l', Reads.snoc hl hl'⟩

/-! ## The records read back -/

theorem Field.s_ok {v : Value} {k x : String} (h : v.get k = some (.str x)) : Field.s v k id = .ok x := by
  simp [Field.s, h, Value.asStr]

theorem Field.u_ok {v : Value} {k : String} {n : UInt64} (h : v.get k = some (.num n)) : Field.u v k id = .ok n := by
  simp [Field.u, h, Value.asU64]

section Lawful

variable (hc : c.Lawful)
include hc

theorem read_accepted {keys : ClaimKeys} (hfree : ∀ k ∈ keys.keys, l.index[k]? = none) (me : Executor) (id : UInt64) :
    ∃ index, l.readEffect id (c.parse (c.print (acceptedText keys me))) = .ok ⟨l.claims.insert id
      ⟨id, keys, me.pid, me.start, .accepted, id, none, none, none⟩, index⟩ := by
  have hex : (Value.obj [("pid", .num me.pid.toUInt64), ("start", .num me.start)]).plain = true :=
    plain_obj ["pid", "start"] rfl (by decide +kernel) (by simp [Value.scalar])
  have hflat : (acceptedText keys me).Flat := by
    apply flat_obj
    · simp
    · simp [hex]
  obtain ⟨r, hr, h⟩ := hc.reads_back hflat
  obtain ⟨index, hix⟩ := claimKeys_total id keys.keys_nodup hfree
  have hfield : r.get "approved_submission" = some (.str "accepted") := h _
  have hkey : r.get "approval_key" = some (.str keys.approvalKey) := h _
  have hreq : r.get "request_id" = some (.str keys.requestId) := h _
  have happ : r.get "approval_id" = some (.str keys.approvalId) := h _
  have htrace : r.get "trace_id" = some (.str keys.traceId) := h _
  have hexec : r.get "executor" = some (.obj [("pid", .num me.pid.toUInt64), ("start", .num me.start)]) := h _
  have hpid : Field.u (.obj [("pid", .num me.pid.toUInt64), ("start", .num me.start)]) "pid" id =
      .ok me.pid.toUInt64 := Field.u_ok rfl
  have hstart : Field.u (.obj [("pid", .num me.pid.toUInt64), ("start", .num me.start)]) "start" id =
      .ok me.start := Field.u_ok rfl
  rw [hr]
  simp only [ReplayLedger.readEffect, Option.bind_some, hfield, Option.map_some, Value.asStr, ReplayLedger.readValue,
    if_true, ReplayLedger.readAccepted, Field.s_ok hkey, Field.s_ok hreq, Field.s_ok happ, Field.s_ok htrace, hexec,
    Option.getD_some, hpid, hstart, Bind.bind, Except.bind, hix]
  exact ⟨index, by simp⟩

theorem read_phase {phase : String} {more : List (String × Value)} {row : ClaimRow} (st : ClaimState)
    (hflat : (phaseText phase i more).Flat) (hrow : l.claims[i]? = some row)
    (hst : ReplayLedger.next phase row.state = some st)
    (hev : st = .committed → ∃ e : CommitEvidence, (phaseText phase i more).get "evidence" = some e.toValue)
    (id : UInt64) : ∃ row', row'.state = st ∧
      row'.keys = row.keys ∧ (row'.executorPid, row'.executorStart) = (row.executorPid, row.executorStart) ∧
      (∀ e : CommitEvidence, st = .committed → (phaseText phase i more).get "evidence" = some e.toValue →
        row'.evidence = some e) ∧
      l.readEffect id (c.parse (c.print (phaseText phase i more))) = .ok { l with claims := l.claims.insert i row' } := by
  obtain ⟨r, hr, h⟩ := hc.reads_back hflat
  have hfield : r.get "approved_submission" = some (.str phase) := h _
  have hclaim : r.get "claim" = some (.num i) := h _
  have hacc : phase ≠ "accepted" := by
    rintro rfl
    simp [ReplayLedger.next] at hst
  have hdecl : phase ≠ "declared" := by
    rintro rfl
    simp [ReplayLedger.next] at hst
  obtain ⟨evidence, hkept, hevidence⟩ : ∃ e, (∀ e' : CommitEvidence, st = .committed →
      (phaseText phase i more).get "evidence" = some e'.toValue → e = some e') ∧
      ReplayLedger.readEvidence row id st r = .ok e := by
    unfold ReplayLedger.readEvidence
    split_ifs with hcom
    · obtain ⟨e, he⟩ := hev hcom
      have hback : ∀ e : CommitEvidence, CommitEvidence.fromValue e.toValue = some e := fun _ => rfl
      rw [h, he, Option.getD_some, hback]
      refine ⟨some e, fun e' _ he' => ?_, rfl⟩
      have hval := Option.some.inj he'
      rw [← hback e, hval, hback]
    · exact ⟨_, fun e' hst' => absurd hst' hcom, rfl⟩
  refine ⟨{ row with
    state := st
    stateRecord := id
    evidence := evidence
    reason := (r.get "reason").bind Value.asStr }, rfl, rfl, rfl, hkept, ?_⟩
  rw [hr]
  simp only [ReplayLedger.readEffect, Option.bind_some, hfield, Option.map_some, Value.asStr, ReplayLedger.readValue,
    if_neg hacc, Field.u_ok hclaim, Bind.bind, Except.bind, hrow, ReplayLedger.readPhase, hdecl, false_and, if_false,
    hst, hevidence]

theorem read_declared {row : ClaimRow} {committed : Bool} {by_ note : String} (hrow : l.claims[i]? = some row)
    (hst : row.state = .uncertain) (hd : row.declared = none) (id : UInt64) :
    ∃ l', l.readEffect id (c.parse (c.print (phaseText "declared" i
      [("declared", .str (declaredName committed)), ("by", .str by_), ("note", .str note)]))) = .ok l' := by
  have hflat : (phaseText "declared" i
      [("declared", .str (declaredName committed)), ("by", .str by_), ("note", .str note)]).Flat := by
    apply flat_obj
    · simp
    · simp
  obtain ⟨r, hr, h⟩ := hc.reads_back hflat
  have hfield : r.get "approved_submission" = some (.str "declared") := h _
  have hclaim : r.get "claim" = some (.num i) := h _
  have hname : r.get "declared" = some (.str (declaredName committed)) := h _
  have hvalid : ¬ (declaredName committed ≠ "committed" ∧ declaredName committed ≠ "not_committed") := by
    cases committed <;> simp [declaredName]
  rw [hr]
  simp only [ReplayLedger.readEffect, Option.bind_some, hfield, Option.map_some, Value.asStr, ReplayLedger.readValue,
    show ("declared" = "accepted") = False by simp, if_false, Field.u_ok hclaim, Bind.bind, Except.bind, hrow,
    ReplayLedger.readPhase, hst, and_self, if_true, ReplayLedger.readDeclared, hd, Option.isSome_none,
    Bool.false_eq_true, Field.s_ok hname, if_neg hvalid]
  exact ⟨_, rfl⟩

/-! ## The calls -/

omit hc in
theorem free_of_find {keys : ClaimKeys} (h : Kept c J l) (hf : l.find keys = none) :
    ∀ k ∈ keys.keys, l.index[k]? = none := by
  unfold ReplayLedger.find at hf
  rcases hs : keys.keys.findSome? fun k => l.index[k]? with _ | i
  · exact List.findSome?_eq_none_iff.1 hs
  · rw [hs, Option.bind_some] at hf
    obtain ⟨k, -, hk⟩ := List.exists_of_findSome?_eq_some hs
    obtain ⟨row, hrow⟩ := h.index_row k i hk
    rw [hf] at hrow
    cases hrow

theorem claim_reads {alive : UInt32 → UInt64 → Bool} {me : Executor} {keys : ClaimKeys} (hi : Increasing J)
    (h : Reads c J) : Reads c (claim c d alive me keys J).1 := by
  unfold claim
  split
  · exact h
  · apply call_reads h
    intro l link text hl hdec
    split at hdec
    · cases hdec
    · rename_i hcheck
      split_ifs at hdec
      cases Except.ok.inj hdec
      have hfind : l.find keys = none := by
        unfold ReplayLedger.check at hcheck
        split at hcheck
        · assumption
        · cases hcheck
      intro id
      obtain ⟨index, hread⟩ := read_accepted hc (free_of_find (kept_of_reads hl hi) hfind) me id
      exact ⟨_, hread⟩

/-- The lifecycle calls: the phase must follow from the state that the call asks for. -/
theorem step_reads {me : Executor} {source st : ClaimState} {phase : String} {more : List (String × Value)}
    (hflat : (phaseText phase i more).Flat) (hst : ReplayLedger.next phase source = some st)
    (hev : st = .committed → ∃ e : CommitEvidence, (phaseText phase i more).get "evidence" = some e.toValue)
    (h : Reads c J) : Reads c (step c d me i source (phaseText phase i more) J).1 := by
  unfold step
  apply call_reads h
  intro l link text hl hdec id
  split at hdec
  · cases hdec
  · rename_i row hrow
    rw [Result.guard_ok, Result.guard_ok] at hdec
    obtain ⟨-, hs, hdec⟩ := hdec
    cases Except.ok.inj hdec
    rw [ne_eq, not_not] at hs
    obtain ⟨row', -, -, -, -, hread⟩ := read_phase hc _ hflat hrow (hs ▸ hst) hev id
    exact ⟨_, hread⟩

theorem declare_reads {committed : Bool} {by_ note : String} (h : Reads c J) :
    Reads c (declare c d i committed by_ note J).1 := by
  unfold declare
  apply call_reads h
  intro l link text hl hdec id
  split at hdec
  · cases hdec
  · rename_i row hrow
    rw [Result.guard_ok, not_or] at hdec
    obtain ⟨⟨hs, hd⟩, hdec⟩ := hdec
    cases Except.ok.inj hdec
    exact read_declared hc hrow (by simpa using hs) (by simpa using hd) id

end Lawful

theorem flat_reasonText {phase reason : String} : (phaseText phase i [("reason", .str reason)]).Flat := by
  apply flat_obj
  · simp
  · simp

theorem flat_inFlightText : (phaseText "in_flight" i []).Flat := by
  apply flat_obj
  · simp
  · simp

theorem flat_commitText {e : CommitEvidence} : (phaseText "committed" i [("evidence", e.toValue)]).Flat := by
  have he : e.toValue.plain = true :=
    plain_obj ["compose_proposal_sha256", "cx_evidence", "cx_promotion", "task"] rfl (by decide +kernel)
      (by simp [Value.scalar])
  apply flat_obj
  · simp
  · simp [he]

theorem markInFlight_reads (hc : c.Lawful) {me : Executor} (h : Reads c J) : Reads c (markInFlight c d me i J).1 :=
  step_reads hc flat_inFlightText rfl (by simp) h

theorem commit_reads (hc : c.Lawful) {me : Executor} {e : CommitEvidence} (h : Reads c J) :
    Reads c (commit c d me i e J).1 :=
  step_reads hc flat_commitText rfl (fun _ => ⟨e, rfl⟩) h

theorem fail_reads (hc : c.Lawful) {me : Executor} {reason : String} (h : Reads c J) :
    Reads c (fail c d me i reason J).1 :=
  step_reads hc flat_reasonText rfl (by simp) h

theorem notExecuted_reads (hc : c.Lawful) {me : Executor} {reason : String} (h : Reads c J) :
    Reads c (notExecuted c d me i reason J).1 :=
  step_reads hc flat_reasonText rfl (by simp) h

theorem uncertain_reads (hc : c.Lawful) {me : Executor} {reason : String} (h : Reads c J) :
    Reads c (uncertain c d me i reason J).1 :=
  step_reads hc flat_reasonText rfl (by simp) h

/-! ## Settling at start -/

section Settle

variable {alive : UInt32 → UInt64 → Bool} {row : ClaimRow} {rows : List ClaimRow} {n : Nat}

theorem flat_settleText : (settleText row).Flat := by
  unfold settleText
  split
  apply flat_obj
  · simp
  · simp

/-- The rows still to settle stand in the ledger as they were read. -/
structure Waiting (l : ReplayLedger) (rows : List ClaimRow) : Prop where
  stands : ∀ row ∈ rows, l.claims[row.id]? = some row
  distinct : (rows.map ClaimRow.id).Nodup

theorem Waiting.of_cons (h : Waiting l (row :: rows)) : Waiting l rows :=
  ⟨fun r hr => h.stands r (by simp [hr]), h.distinct.of_cons⟩

theorem Waiting.settle (h : Waiting l (row :: rows)) (row' : ClaimRow) :
    Waiting { l with claims := l.claims.insert row.id row' } rows := by
  have hd := h.distinct
  rw [List.map_cons, List.nodup_cons] at hd
  refine ⟨fun r hr => ?_, hd.2⟩
  have hne : row.id ≠ r.id := fun he => hd.1 (he ▸ List.mem_map_of_mem hr)
  rw [Table.get_insert, if_neg hne]
  exact h.of_cons.stands r hr

theorem read_settleText (hc : c.Lawful) (hrow : l.claims[row.id]? = some row) (ht : row.state.terminal = false)
    (id : UInt64) : ∃ row', l.readEffect id (c.parse (c.print (settleText row))) =
      .ok { l with claims := l.claims.insert row.id row' } := by
  have hflat : (settleText row).Flat := flat_settleText
  cases hst : row.state with
  | accepted =>
    simp only [settleText, hst, if_true] at hflat ⊢
    obtain ⟨row', -, -, -, -, hread⟩ := read_phase hc _ hflat hrow (by rw [hst]; rfl) (by simp) id
    exact ⟨row', hread⟩
  | inFlight =>
    simp only [settleText, hst, reduceCtorEq, if_false] at hflat ⊢
    obtain ⟨row', -, -, -, -, hread⟩ := read_phase hc _ hflat hrow (by rw [hst]; rfl) (by simp) id
    exact ⟨row', hread⟩
  | _ =>
    rw [hst] at ht
    cases ht

theorem settleAll_reads (hc : c.Lawful) (hl : ReplayLedger.fromRecords c J = .ok l) (hw : Waiting l rows) :
    Reads c (settleAll c d alive rows n J).1 := by
  induction rows generalizing n J l with
  | nil => exact ⟨l, hl⟩
  | cons row rows ih =>
    unfold settleAll
    split_ifs with hskip
    · exact ih hl hw.of_cons
    · have ht : row.state.terminal = false := by
        simp only [Bool.or_eq_true, not_or, Bool.not_eq_true] at hskip
        exact hskip.1
      rcases ha : appendRecord c d n J row.id (settleText row) with ⟨J', e | a⟩
      all_goals rcases appendRecord_cases (c := c) (d := d) (J := J) n row.id (settleText row) with ⟨hJ, e', he⟩ | ⟨id, hJ⟩
      · rw [ha] at hJ
        cases hJ
        exact ⟨l, hl⟩
      · rw [ha] at hJ
        cases hJ
        obtain ⟨row', hread⟩ := read_settleText hc (hw.stands row (by simp)) ht id
        exact ⟨_, Reads.snoc hl hread⟩
      · rw [ha] at he
        cases he
      · rw [ha] at hJ
        cases hJ
        obtain ⟨row', hread⟩ := read_settleText hc (hw.stands row (by simp)) ht id
        exact ih (Reads.snoc hl hread) (hw.settle row')

theorem reconcileAtStart_reads (hc : c.Lawful) (hi : Increasing J) (h : Reads c J) :
    Reads c (reconcileAtStart c d alive J).1 := by
  unfold reconcileAtStart
  apply locked_fst h
  rcases hl : ledger c d J with e | l
  · exact h
  · have hl' := ledger_ok hl
    have hk := kept_of_reads hl' hi
    refine settleAll_reads hc hl' ⟨?_, Table.values_map_nodup hk.row_id⟩
    intro row hrow
    obtain ⟨i, hi⟩ := Table.mem_values.1 hrow
    exact hk.row_id i row hi ▸ hi

end Settle

end SovereignCore.Effects.Replay
