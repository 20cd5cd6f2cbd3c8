import SovereignCore.Effects.Moves

/-!
# Every command advances a consistent ledger

One lemma for each command: whatever its arguments, what the world shows it and what the disk answers, the records it
leaves behind are records that the strict reader accepts.

* `Step` : one call of any party on the shared journal;
* `step_advances` : a call takes a consistent journal to a consistent journal, record by record.
-/

namespace SovereignCore.Effects

open Std SovereignCore.Json

/-- A journal and its ledger, some records later. -/
abbrev Advances (c : Codec) (Q : Ledger → UInt64 → Prop) :=
  Relation.ReflTransGen (Advance c Q)

variable {c : Codec} {Q : Ledger → UInt64 → Prop} {J : List RecordView} {l : Ledger} {d : Disk} {w : World}
variable {links : List UInt64} {text : Value}

theorem Consistent.advances {s s' : List RecordView × Ledger} (h : Consistent c s.1 s.2) (ha : Advances c Q s s') :
    Consistent c s'.1 s'.2 := by
  induction ha with
  | refl => exact h
  | tail _ hstep ih => exact ih.advance hstep

theorem Advances.settled {s s' : List RecordView × Ledger} (h : Consistent c s.1 s.2) (ha : Advances c Q s s')
    {i : UInt64} {row : IntentRow} (hrow : s.2.intents[i]? = some row) (ht : row.state.terminal = true) :
    s'.2.intents[i]? = some row := by
  induction ha with
  | refl => exact hrow
  | tail hs hstep ih => exact hstep.settled (h.advances hs) ih ht

/-! ## One append -/

def Fits (c : Codec) (Q : Ledger → UInt64 → Prop) (l : Ledger) (kind : NoteKind) (links : List UInt64)
    (text : Value) : Prop :=
  ∀ id, ∃ l', l.read c (hostNote id kind (links.filter (· ≠ 0)) (c.print text)) = .ok l' ∧ Move Q id l l'

theorem appendEffect_cases (i : Nat) (kind : NoteKind) (links : List UInt64) (text : Value) :
    (appendEffect c d i J kind links text).1 = J ∨ ∃ id, (appendEffect c d i J kind links text).1 =
      J ++ [hostNote id kind (links.filter (· ≠ 0)) (c.print text)] := by
  have hfst : (appendEffect c d i J kind links text).1 =
      (append J kind (links.filter (· ≠ 0)) (c.print text) (d.note i)).1 := by
    unfold appendEffect
    rcases append J kind (links.filter (· ≠ 0)) (c.print text) (d.note i) with ⟨J', e | a⟩ <;> rfl
  rw [hfst]
  rcases append_cases J kind (links.filter (· ≠ 0)) (c.print text) (d.note i) with ⟨hJ, -⟩ | ⟨id, hJ, -⟩
  · exact Or.inl hJ
  · exact Or.inr ⟨id, hJ⟩

theorem appendEffect_advances {i : Nat} {kind : NoteKind} (hf : Fits c Q l kind links text)
    (hinc : Increasing (appendEffect c d i J kind links text).1) :
    ∃ l', Advances c Q (J, l) ((appendEffect c d i J kind links text).1, l') := by
  rcases appendEffect_cases (c := c) (d := d) (J := J) i kind links text with hJ | ⟨id, hJ⟩
  · rw [hJ]
    exact ⟨l, .refl⟩
  · rw [hJ] at hinc ⊢
    obtain ⟨l', hr, hm⟩ := hf id
    exact ⟨l', .single ⟨⟨_, rfl, hr, hm⟩, hinc⟩⟩

/-- A command advances the ledger when the record it decides on fits. -/
theorem command_advances {kind : NoteKind} {decide : List RecordView → Except String (List UInt64 × Value)}
    (hf : ∀ links text, decide J = .ok (links, text) → Fits c Q l kind links text)
    (hinc : Increasing (command c d J kind decide).1) :
    ∃ l', Advances c Q (J, l) ((command c d J kind decide).1, l') := by
  unfold command at hinc ⊢
  rcases withHome_cases d J _ with ⟨hJ, -⟩ | ⟨hJ, -⟩
  · rw [hJ]
    exact ⟨l, .refl⟩
  · rw [hJ] at hinc ⊢
    rcases hd : decide J with e | ⟨links, text⟩
    · exact ⟨l, .refl⟩
    · rw [hd] at hinc
      exact appendEffect_advances (hf links text hd) hinc

/-! ## What the commands decide -/

theorem hostViews_ok {views : List RecordView} (h : hostViews d J = .ok views) : views = J := by
  unfold hostViews at h
  split at h
  · cases h
  · split_ifs at h
    exact (Except.ok.inj h).symm

theorem authorizeRecord_ok {req : MintRequest} {proof : Option DeskProof} {oid : Option String}
    (h : authorizeRecord c d w req proof oid J = .ok (links, text)) :
    ∃ row target prior desk objective views source,
      text = stamp c (mintedText row req.approver target prior desk objective) views source := by
  unfold authorizeRecord at h
  rw [Result.guard_ok, Result.guard_ok] at h
  simp only [Result.bind_ok] at h
  obtain ⟨-, -, desk, -, views, -, l, -, h⟩ := h
  split at h
  · cases h
  · rename_i row hrow
    simp only [Result.bind_ok, Result.guard_ok] at h
    obtain ⟨ws, -, -, held, -, -, -, prior, -, -, -, objective, -, h⟩ := h
    cases Except.ok.inj h
    exact ⟨_, _, _, _, _, _, _, rfl⟩

theorem checkIntent_ok {req : IntentRequest} {current : Option String} {g : Grant}
    (h : l.checkIntent req current = .ok g) :
    l.grants[req.authorization]? = some g ∧ l.intentOf req.authorization = none := by
  unfold Ledger.checkIntent at h
  dsimp only at h
  split at h
  · cases h
  split at h
  · cases h
  rename_i g' hg'
  rw [Result.guard_ok, Result.guard_ok] at h
  obtain ⟨-, -, h⟩ := h
  split at h
  · split_ifs at h
  rename_i ho
  split at h
  · cases h
  split at h
  · cases h
  split at h
  · cases h
  split at h
  · rw [Result.guard_ok, Result.guard_ok] at h
    cases Except.ok.inj h.2.2
    exact ⟨hg', ho⟩
  · cases h

theorem intentRecord_ok {key : ApprovalIdentity → String} {req : IntentRequest}
    (h : intentRecord c key d w req J = .ok (links, text)) :
    ∃ l g current views, Ledger.fromRecords c J = .ok l ∧ l.grants[req.authorization]? = some g ∧
      l.intentOf req.authorization = none ∧ text = stamp c (intentText req g current) views g.id := by
  unfold intentRecord at h
  simp only [Result.bind_ok, Result.mapError_ok] at h
  obtain ⟨views, hv, l, hl, ⟨current, deferred⟩, -, g, hg, h⟩ := h
  cases hostViews_ok hv
  rw [Result.guard_ok] at h
  obtain ⟨-, h⟩ := h
  split at h
  · cases h
  · simp only [Result.bind_ok] at h
    obtain ⟨-, -, -, -, -, -, h⟩ := h
    cases Except.ok.inj h
    obtain ⟨hgr, ho⟩ := checkIntent_ok hg
    exact ⟨l, g, current, _, hl, hgr, ho, rfl⟩

theorem ackRecord_ok {intent : UInt64} {reported : Value} (h : ackRecord c d w intent reported J = .ok (links, text)) :
    ∃ l row st disk views, Ledger.fromRecords c J = .ok l ∧ l.intents[intent]? = some row ∧
      row.state.terminal = false ∧ confinedWorldState w l row = (st, disk) ∧
      text = stamp c (ackText intent row st disk reported) views intent := by
  unfold ackRecord at h
  simp only [Result.bind_ok, Result.mapError_ok] at h
  obtain ⟨views, hv, l, hl, h⟩ := h
  cases hostViews_ok hv
  split at h
  · cases h
  · rename_i row hrow
    rw [Result.guard_ok] at h
    obtain ⟨ht, h⟩ := h
    cases Except.ok.inj h
    exact ⟨l, row, _, _, _, hl, hrow, by simpa using ht, rfl, rfl⟩

theorem stateFrom_ne_open {row : IntentRow} {now : Except String (Option String)} : (stateFrom row now).1 ≠ .open := by
  unfold stateFrom
  rcases now with e | seen
  · simp
  · dsimp only
    split_ifs <;> simp

theorem confinedWorldState_ne_open {row : IntentRow} : (confinedWorldState w l row).1 ≠ .open := by
  unfold confinedWorldState
  split
  · simp
  · split_ifs
    · simp
    · split
      · simp
      · split
        · split_ifs <;> simp
        · exact stateFrom_ne_open

theorem decided_ne_open {world st : EffectState} {declare : Option ReconcileDeclare} {who who' : String}
    (hw : world ≠ .open) (h : decided world declare who = .ok (st, who')) : st ≠ .open := by
  unfold decided at h
  split at h
  · cases Except.ok.inj h
    exact hw
  · simp only [Result.bind_ok, Result.guard_ok] at h
    obtain ⟨st', hst', -, h⟩ := h
    cases Except.ok.inj h
    unfold declaredState at hst'
    split_ifs at hst'
    · cases Except.ok.inj hst'
      simp
    · cases Except.ok.inj hst'
      simp

theorem reconcileRow_write {declare : Option ReconcileDeclare} {who : String} {row : IntentRow}
    {outcome : UInt64 → ReconcileOutcome} (h : reconcileRow w l declare who row = .ok (.write text outcome)) :
    ∃ st world disk who' objective, st ≠ .open ∧ text = reconcileText row st world disk who' objective := by
  unfold reconcileRow at h
  dsimp only at h
  split_ifs at h
  · cases Except.ok.inj h
  · simp only [Result.bind_ok, Result.guard_ok] at h
    obtain ⟨⟨st, who'⟩, hst, -, h⟩ := h
    dsimp only at h
    split_ifs at h
    · cases Except.ok.inj h
    cases Except.ok.inj h
    exact ⟨st, _, _, who', _, decided_ne_open confinedWorldState_ne_open hst, rfl⟩

theorem controlRecord_ok {action approver : String} {a : Option UInt64}
    (h : controlRecord c d action approver a J = .ok (some (links, text))) :
    ((action = "stop" ∨ action = "resume") ∧ text = .obj [("control", .str action), ("approver", .str (trim approver))]) ∨
      ∃ a, text = .obj [("control", .str "revoke"), ("authorization", .num a), ("approver", .str (trim approver))] := by
  unfold controlRecord at h
  rw [Result.guard_ok] at h
  simp only [Result.bind_ok] at h
  obtain ⟨-, l, -, h⟩ := h
  split_ifs at h with hstop hrev
  · cases Except.ok.inj h
    exact Or.inl ⟨hstop, rfl⟩
  · split at h
    · cases h
    · rename_i a
      split_ifs at h
      · cases Except.ok.inj h
      cases Except.ok.inj h
      exact Or.inr ⟨a, rfl⟩

/-! ## The records fit -/

section Fit

variable (hc : c.Lawful)
include hc

theorem fits_flat_effect (hflat : text.Flat)
    (hread : ∀ r : Value, (∀ k, r.get k = text.get k) → ∀ id, ∃ l', l.readEffect id (some r) = .ok l' ∧ Move Q id l l') :
    Fits c Q l .effect links text := by
  intro id
  obtain ⟨r, hr, hget⟩ := hc.reads_back hflat
  rw [read_effectNote, hr]
  exact hread r hget id

theorem fits_flat_authorization (hflat : text.Flat)
    (hread : ∀ r : Value, (∀ k, r.get k = text.get k) → ∀ id links, ∃ l',
      l.readAuthorization id (some r) links = .ok l' ∧ Move Q id l l') : Fits c Q l .authorization links text := by
  intro id
  obtain ⟨r, hr, hget⟩ := hc.reads_back hflat
  rw [read_authorizationNote, hr]
  exact hread r hget id _

theorem fits_commit {workspace : String} {task p e : UInt64} {proposal path content : String} {goal : Option String}
    {prov : Provenance} :
    Fits c Q l .effect links (commitText workspace task p e proposal path content goal prov) :=
  fits_flat_effect hc flat_commitText fun _ h _ => ⟨_, read_commitText h, .commit _⟩

theorem fits_minted {row : CommitRow} {approver target : String} {prior : Option String}
    {desk : Option (DeskKey × DeskProof)} {objective : Option Seen} {views : List RecordView} {source : UInt64} :
    Fits c Q l .authorization links (stamp c (mintedText row approver target prior desk objective) views source) :=
  fits_flat_authorization hc (flat_mintedText.set (plain_toJson _)) fun _ h _ _ =>
    ⟨_, read_mintedText h, .grant _ _ rfl⟩

theorem fits_approved {workspace path content approver target : String} {prior : Option String} {ids : ApprovedIds}
    {link : ApprovedLink} {proposal : String} {prov : Provenance} :
    Fits c Q l .authorization links
      (approvedText workspace path content approver target prior ids link proposal prov) :=
  fits_flat_authorization hc flat_approvedText fun _ h _ _ => ⟨_, read_approvedText h, .grant _ _ rfl⟩

theorem fits_intent {req : IntentRequest} {g : Grant} {current : Option String} {views : List RecordView}
    (hs : l.spent[g.id]? = none) (hg : g.id ∈ l.grants) (hq : Q l g.id) :
    Fits c Q l .effect links (stamp c (intentText req g current) views g.id) :=
  fits_flat_effect hc (flat_intentText.set (plain_toJson _)) fun _ h id =>
    ⟨_, read_intentText h hs, .intent (openedRow id req g current) rfl rfl hs hg hq⟩

theorem read_reconcileText {row : IntentRow} {st world : EffectState} {disk : Except String (Option String)}
    {who : String} {objective : Option ObjectiveBinding} {id : UInt64} (hrow : l.intents[row.id]? = some row)
    (ht : row.state.terminal = false) (hst : st ≠ .open) :
    l.read c (hostNote id .effect links (c.print (reconcileText row st world disk who objective))) =
      .ok { l with intents := l.intents.insert row.id (row.settled id st (diskHex disk)) } := by
  have hflat : (reconcileText row st world disk who objective).Flat := flat_reconcileText
  obtain ⟨r, hr, h⟩ := hc.reads_back hflat
  rw [read_effectNote, hr]
  refine read_settle "reconcile" ?_ ?_ (Or.inr rfl) ?_ ?_ hst ?_ hrow ht
  all_goals
    rw [h]
    cases objective with
    | none => rfl
    | some o => rfl

/-- An ack carries what the executor reported, which may not read back. Then the record is passed over. -/
theorem fits_ack {intent : UInt64} {row : IntentRow} {st : EffectState} {disk : Except String (Option String)}
    {reported : Value} {views : List RecordView} (hrow : l.intents[intent]? = some row)
    (ht : row.state.terminal = false) (hst : st ≠ .open) :
    Fits c Q l .effect links (stamp c (ackText intent row st disk reported) views intent) := by
  intro id
  rw [read_effectNote]
  rcases hr : c.parse (c.print (stamp c (ackText intent row st disk reported) views intent)) with _ | r
  · exact ⟨l, rfl, .pass⟩
  · have hkeep := hc.keeps _ r object_ackText.set hr
    have hcommit : r.get "compose_commit" = none := (hkeep _).2 (by unfold ackText; split <;> rfl)
    have hphase : r.get "phase" = some (.str "ack") := (hkeep _).1 _ (by unfold ackText; split <;> rfl) rfl
    have hint : r.get "intent" = some (.num intent) := (hkeep _).1 _ (by unfold ackText; split <;> rfl) rfl
    have hstate : r.get "state" = some (.str st.name) := (hkeep _).1 _ (by unfold ackText; split <;> rfl) rfl
    have hdisk : r.get "disk_sha256" = some (.ofOption (diskHex disk)) :=
      (hkeep _).1 _ (by unfold ackText; split <;> rfl) (plain_ofOption _)
    exact ⟨_, read_settle _ hcommit hphase (Or.inl rfl) hint hstate hst hdisk hrow ht, .settle _ _ _ _ hrow ht hst⟩

theorem fits_control {action approver : String} (h : action = "stop" ∨ action = "resume") :
    Fits c Q l .authorization links (.obj [("control", .str action), ("approver", .str approver)]) := by
  apply fits_flat_authorization hc
  · apply flat_obj
    · simp
    · simp
  · intro r hget id links
    rcases h with rfl | rfl
    · exact ⟨_, read_stop (hget _), .control (l.stops ++ [id]) l.resumes l.revoked⟩
    · exact ⟨_, read_resume (hget _), .control l.stops (l.resumes ++ [id]) l.revoked⟩

theorem fits_revoke {a : UInt64} {approver : String} : Fits c Q l .authorization links
    (.obj [("control", .str "revoke"), ("authorization", .num a), ("approver", .str approver)]) := by
  apply fits_flat_authorization hc
  · apply flat_obj
    · simp
    · simp
  · intro r hget id links
    exact ⟨_, read_revoke (hget _) (hget _), .control l.stops l.resumes (l.revoked.insertIfNew a id)⟩

end Fit

/-! ## Reconcile -/

theorem Increasing.of_extends {K : List RecordView} (h : Increasing K) (hJ : J <+: K) : Increasing J := by
  obtain ⟨K', rfl⟩ := hJ
  exact h.left

section Rows

variable {ws : Nat → World} {l₀ : Ledger} {declare : Option ReconcileDeclare} {who : String} {row : IntentRow}
variable {rows : List IntentRow} {i n : Nat}

theorem reconcileRows_error {e : String} (h : reconcileRow (ws i) l₀ declare who row = .error e) :
    (reconcileRows c d ws l₀ declare who (row :: rows) i n J).1 = J := by
  rw [reconcileRows, h]

theorem reconcileRows_left {o : ReconcileOutcome} (h : reconcileRow (ws i) l₀ declare who row = .ok (.left o)) :
    (reconcileRows c d ws l₀ declare who (row :: rows) i n J).1 =
      (reconcileRows c d ws l₀ declare who rows (i + 1) n J).1 := by
  rw [reconcileRows, h]
  dsimp only
  rcases reconcileRows c d ws l₀ declare who rows (i + 1) n J with ⟨J', e | os⟩ <;> rfl

/-- A row that writes: the loop ends at a failed append and goes on after the other. -/
theorem reconcileRows_write (rows : List IntentRow) {outcome : UInt64 → ReconcileOutcome}
    (h : reconcileRow (ws i) l₀ declare who row = .ok (.write text outcome)) :
    (reconcileRows c d ws l₀ declare who (row :: rows) i n J).1 =
        (appendEffect c d n J .effect [row.id, row.authorization] text).1 ∨
      (reconcileRows c d ws l₀ declare who (row :: rows) i n J).1 =
        (reconcileRows c d ws l₀ declare who rows (i + 1) (n + 1)
          (appendEffect c d n J .effect [row.id, row.authorization] text).1).1 := by
  rw [reconcileRows, h]
  dsimp only
  rcases appendEffect c d n J .effect [row.id, row.authorization] text with ⟨J', e | id⟩
  · exact Or.inl rfl
  · dsimp only
    rcases reconcileRows c d ws l₀ declare who rows (i + 1) (n + 1) J' with ⟨J'', e | os⟩
    · exact Or.inr rfl
    · exact Or.inr rfl

theorem appendEffect_extends {kind : NoteKind} : J <+: (appendEffect c d n J kind links text).1 := by
  rcases appendEffect_cases (c := c) (d := d) (J := J) n kind links text with hJ | ⟨id, hJ⟩
  · rw [hJ]
  · rw [hJ]
    exact List.prefix_append _ _

theorem reconcileRows_extends : J <+: (reconcileRows c d ws l₀ declare who rows i n J).1 := by
  induction rows generalizing i n J with
  | nil => exact List.prefix_rfl
  | cons row rows ih =>
    rcases hv : reconcileRow (ws i) l₀ declare who row with e | o | ⟨text, outcome⟩
    · rw [reconcileRows_error hv]
    · rw [reconcileRows_left hv]
      exact ih
    · rcases reconcileRows_write (c := c) (d := d) (J := J) (n := n) rows hv with h | h
      · rw [h]
        exact appendEffect_extends
      · rw [h]
        exact appendEffect_extends.trans ih

/-- The rows still to settle stand in the ledger as they were read, unsettled and distinct. -/
structure Pending (l : Ledger) (rows : List IntentRow) : Prop where
  stands : ∀ row ∈ rows, l.intents[row.id]? = some row
  unsettled : ∀ row ∈ rows, row.state.terminal = false
  distinct : (rows.map IntentRow.id).Nodup

theorem Pending.of_cons (h : Pending l (row :: rows)) : Pending l rows :=
  ⟨fun r hr => h.stands r (by simp [hr]), fun r hr => h.unsettled r (by simp [hr]), h.distinct.of_cons⟩

theorem Pending.settle (h : Pending l (row :: rows)) (row' : IntentRow) :
    Pending { l with intents := l.intents.insert row.id row' } rows := by
  have hd := h.distinct
  rw [List.map_cons, List.nodup_cons] at hd
  refine ⟨fun r hr => ?_, h.of_cons.unsettled, hd.2⟩
  have hne : row.id ≠ r.id := fun he => hd.1 (he ▸ List.mem_map_of_mem hr)
  rw [Table.get_insert, if_neg hne]
  exact h.of_cons.stands r hr

/-- A row's record advances the ledger and leaves the other rows pending. -/
theorem appendRow_advances (hc : c.Lawful) {st world : EffectState} {disk : Except String (Option String)}
    {who : String} {objective : Option ObjectiveBinding} (hp : Pending l (row :: rows)) (hst : st ≠ .open)
    (hinc : Increasing (appendEffect c d n J .effect [row.id, row.authorization]
      (reconcileText row st world disk who objective)).1) :
    ∃ l', Advances c Q (J, l) ((appendEffect c d n J .effect [row.id, row.authorization]
      (reconcileText row st world disk who objective)).1, l') ∧ Pending l' rows := by
  have hrow := hp.stands row (by simp)
  have ht := hp.unsettled row (by simp)
  rcases appendEffect_cases (c := c) (d := d) (J := J) n .effect [row.id, row.authorization]
    (reconcileText row st world disk who objective) with hJ | ⟨id, hJ⟩
  · rw [hJ]
    exact ⟨l, .refl, hp.of_cons⟩
  · rw [hJ] at hinc ⊢
    refine ⟨_, .single ⟨⟨_, rfl, read_reconcileText hc hrow ht hst, ?_⟩, hinc⟩, hp.settle _⟩
    exact .settle _ _ _ _ hrow ht hst

/-- The loop of a reconcile: `l₀` is the ledger it read once, `l` the ledger of the journal so far. -/
theorem reconcileRows_advances (hc : c.Lawful) (hp : Pending l rows)
    (hinc : Increasing (reconcileRows c d ws l₀ declare who rows i n J).1) :
    ∃ l', Advances c Q (J, l) ((reconcileRows c d ws l₀ declare who rows i n J).1, l') := by
  induction rows generalizing i n J l with
  | nil => exact ⟨l, .refl⟩
  | cons row rows ih =>
    rcases hv : reconcileRow (ws i) l₀ declare who row with e | o | ⟨text, outcome⟩
    · rw [reconcileRows_error hv]
      exact ⟨l, .refl⟩
    · rw [reconcileRows_left hv] at hinc ⊢
      exact ih hp.of_cons hinc
    · obtain ⟨st, world, disk, who', objective, hst, rfl⟩ := reconcileRow_write hv
      rcases reconcileRows_write (c := c) (d := d) (J := J) (n := n) rows hv with h | h
      · rw [h] at hinc ⊢
        obtain ⟨l', ha, -⟩ := appendRow_advances (Q := Q) hc hp hst hinc
        exact ⟨l', ha⟩
      · rw [h] at hinc ⊢
        obtain ⟨l₁, ha, hp₁⟩ := appendRow_advances (Q := Q) hc hp hst (hinc.of_extends reconcileRows_extends)
        obtain ⟨l', hb⟩ := ih hp₁ hinc
        exact ⟨l', ha.trans hb⟩

theorem reconcileTargets_pending (h : Consistent c J l) (ht : reconcileTargets l declare = .ok rows) :
    Pending l rows := by
  unfold reconcileTargets at ht
  split at ht
  · cases Except.ok.inj ht
    refine ⟨?_, ?_, ?_⟩
    · intro row hrow
      obtain ⟨i, hi⟩ := Table.mem_values.1 (List.mem_of_mem_filter hrow)
      exact h.row_id i row hi ▸ hi
    · intro row hrow
      simpa using List.of_mem_filter hrow
    · exact (Table.values_map_nodup h.row_id).sublist (List.filter_sublist.map _)
  · split at ht
    · cases ht
    · rename_i dec row hrow
      rw [Result.guard_ok] at ht
      obtain ⟨hterm, ht⟩ := ht
      cases Except.ok.inj ht
      refine ⟨?_, ?_, by simp⟩
      · intro row' hrow'
        rw [List.mem_singleton] at hrow'
        subst hrow'
        exact h.row_id _ _ hrow ▸ hrow
      · intro row' hrow'
        rw [List.mem_singleton] at hrow'
        subst hrow'
        simpa using hterm

end Rows

end SovereignCore.Effects
