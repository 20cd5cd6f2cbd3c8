import SovereignCore.Effects.Records

/-!
# What one record does to the effect ledger

`Move` lists everything a record can do; `Consistent` is what holds of a journal and the ledger read from it, and every
move keeps it. The predicate `Q` is asked of the authorization under which an intent is opened.

* `Move`, `Advance` : one record; `Consistent.advance` : a record keeps the ledger consistent;
* `Advance.settled` : a settled intent stays as it is;
* `Consistent.one_intent` : an authorization has at most one intent.
-/

namespace SovereignCore.Effects

open Std SovereignCore.Json

/-- What the record `id` does to the ledger. -/
inductive Move (Q : Ledger → UInt64 → Prop) (id : UInt64) (l : Ledger) : Ledger → Prop
  | pass : Move Q id l l
  | control (stops resumes : List UInt64) (revoked : ExtTreeMap UInt64 UInt64) :
      Move Q id l { l with stops := stops, resumes := resumes, revoked := revoked }
  | commit (row : CommitRow) : Move Q id l { l with commits := l.commits.insert id row }
  | grant (g : Grant) (nonce : Option String) (hid : g.id = id) : Move Q id l (l.addGrant g nonce)
  | intent (row : IntentRow) (hid : row.id = id) (ho : row.state = .open) (hs : l.spent[row.authorization]? = none)
      (hg : row.authorization ∈ l.grants) (hq : Q l row.authorization) :
      Move Q id l { l with
        spent := l.spent.insert row.authorization id
        intents := l.intents.insert id row }
  | settle (i : UInt64) (row : IntentRow) (st : EffectState) (disk : Option String) (hrow : l.intents[i]? = some row)
      (ht : row.state.terminal = false) (hst : st ≠ .open) :
      Move Q id l { l with intents := l.intents.insert i (row.settled id st disk) }

/-- What holds of a journal and the ledger read from it. -/
structure Consistent (c : Codec) (J : List RecordView) (l : Ledger) : Prop where
  reads : Ledger.fromRecords c J = .ok l
  increasing : Increasing J
  row_id : ∀ (i : UInt64) (row : IntentRow), l.intents[i]? = some row → row.id = i
  row_spent : ∀ (i : UInt64) (row : IntentRow), l.intents[i]? = some row → l.spent[row.authorization]? = some i
  row_grant : ∀ (i : UInt64) (row : IntentRow), l.intents[i]? = some row → row.authorization ∈ l.grants
  spent_row : ∀ (a i : UInt64), l.spent[a]? = some i → ∃ row, l.intents[i]? = some row
  grant_id : ∀ (a : UInt64) (g : Grant), l.grants[a]? = some g → g.id = a
  intent_seen : ∀ (i : UInt64) (row : IntentRow), l.intents[i]? = some row → ∃ r ∈ J, r.id = i
  grant_seen : ∀ a : UInt64, a ∈ l.grants → ∃ r ∈ J, r.id = a

/-- One record appended to a journal, and what it did to the ledger. -/
structure Advance (c : Codec) (Q : Ledger → UInt64 → Prop) (s s' : List RecordView × Ledger) : Prop where
  record : ∃ r, s'.1 = s.1 ++ [r] ∧ s.2.read c r = .ok s'.2 ∧ Move Q r.id s.2 s'.2
  increasing : Increasing s'.1

variable {c : Codec} {Q : Ledger → UInt64 → Prop} {J : List RecordView} {l l' : Ledger} {r : RecordView}

namespace Consistent

theorem fresh_intent (h : Consistent c J l) (hi : Increasing (J ++ [r])) : l.intents[r.id]? = none := by
  rcases hrow : l.intents[r.id]? with _ | row
  · rfl
  · obtain ⟨r', hr', he⟩ := h.intent_seen _ _ hrow
    exact absurd (he ▸ hi.id_lt r' hr') (UInt64.lt_irrefl _)

theorem fresh_grant (h : Consistent c J l) (hi : Increasing (J ++ [r])) : r.id ∉ l.grants := by
  intro hg
  obtain ⟨r', hr', he⟩ := h.grant_seen _ hg
  exact absurd (he ▸ hi.id_lt r' hr') (UInt64.lt_irrefl _)

theorem intentOf_none (h : Consistent c J l) {a : UInt64} (ho : l.intentOf a = none) : l.spent[a]? = none := by
  rcases hs : l.spent[a]? with _ | i
  · rfl
  · obtain ⟨row, hrow⟩ := h.spent_row a i hs
    simp [Ledger.intentOf, hs, hrow] at ho

theorem one_intent (h : Consistent c J l) {i j : UInt64} {row row' : IntentRow} (hi : l.intents[i]? = some row)
    (hj : l.intents[j]? = some row') (ha : row.authorization = row'.authorization) : i = j := by
  have hsi := h.row_spent i row hi
  have hsj := h.row_spent j row' hj
  rw [ha, hsj] at hsi
  exact (Option.some.inj hsi).symm

theorem fromRecords_snoc (h : Consistent c J l) (hr : l.read c r = .ok l') :
    Ledger.fromRecords c (J ++ [r]) = .ok l' := by
  have hJ := h.reads
  unfold Ledger.fromRecords at hJ ⊢
  rw [List.foldlM_append, hJ]
  simpa using hr

theorem seen_snoc {i : UInt64} (h : ∃ r' ∈ J, r'.id = i) : ∃ r' ∈ J ++ [r], r'.id = i := by
  obtain ⟨r', hr', he⟩ := h
  exact ⟨r', by simp [hr'], he⟩

end Consistent

/-- A record that leaves intents, spent marks and grants alone keeps the ledger consistent. -/
theorem Consistent.same (h : Consistent c J l) (hi : Increasing (J ++ [r])) (hr : l.read c r = .ok l')
    (hint : l'.intents = l.intents) (hsp : l'.spent = l.spent) (hgr : l'.grants = l.grants) :
    Consistent c (J ++ [r]) l' where
  reads := h.fromRecords_snoc hr
  increasing := hi
  row_id := by rw [hint]; exact h.row_id
  row_spent := by rw [hint, hsp]; exact h.row_spent
  row_grant := by rw [hint, hgr]; exact h.row_grant
  spent_row := by rw [hint, hsp]; exact h.spent_row
  grant_id := by rw [hgr]; exact h.grant_id
  intent_seen := by
    rw [hint]
    exact fun i row hrow => seen_snoc (h.intent_seen i row hrow)
  grant_seen := by
    rw [hgr]
    exact fun a ha => seen_snoc (h.grant_seen a ha)

theorem Consistent.addGrant (h : Consistent c J l) (hi : Increasing (J ++ [r])) {g : Grant} {nonce : Option String}
    (hid : g.id = r.id) (hr : l.read c r = .ok (l.addGrant g nonce)) : Consistent c (J ++ [r]) (l.addGrant g nonce) := by
  have hgr : ∀ a, (l.addGrant g nonce).grants[a]? = if r.id = a then some g else l.grants[a]? := by
    intro a
    rw [← hid]
    exact Table.get_insert
  have hmem : ∀ a, a ∈ l.grants → a ∈ (l.addGrant g nonce).grants := by
    intro a ha
    obtain ⟨g', hg'⟩ := Table.mem_iff.1 ha
    refine Table.mem_iff.2 ?_
    rw [hgr]
    split_ifs
    · exact ⟨g, rfl⟩
    · exact ⟨g', hg'⟩
  refine ⟨h.fromRecords_snoc hr, hi, h.row_id, h.row_spent, ?_, h.spent_row, ?_, ?_, ?_⟩
  · exact fun i row hrow => hmem _ (h.row_grant i row hrow)
  · intro a g' hg'
    rw [hgr] at hg'
    split_ifs at hg' with ha
    · cases Option.some.inj hg'
      exact hid.trans ha
    · exact h.grant_id a g' hg'
  · exact fun i row hrow => seen_snoc (h.intent_seen i row hrow)
  · intro a ha
    obtain ⟨g', hg'⟩ := Table.mem_iff.1 ha
    rw [hgr] at hg'
    split_ifs at hg' with he
    · exact ⟨r, by simp, he⟩
    · exact seen_snoc (h.grant_seen a (Table.mem_iff.2 ⟨g', hg'⟩))

theorem Consistent.openIntent (h : Consistent c J l) (hi : Increasing (J ++ [r])) {row : IntentRow}
    (hid : row.id = r.id) (hs : l.spent[row.authorization]? = none) (hg : row.authorization ∈ l.grants)
    (hr : l.read c r = .ok { l with
      spent := l.spent.insert row.authorization r.id
      intents := l.intents.insert r.id row }) :
    Consistent c (J ++ [r]) { l with
      spent := l.spent.insert row.authorization r.id
      intents := l.intents.insert r.id row } := by
  have hfresh := h.fresh_intent hi
  refine ⟨h.fromRecords_snoc hr, hi, ?_, ?_, ?_, ?_, h.grant_id, ?_, ?_⟩
  · intro i row' hrow'
    rw [Table.get_insert] at hrow'
    split_ifs at hrow' with hir
    · cases Option.some.inj hrow'
      exact hid.trans hir
    · exact h.row_id i row' hrow'
  · intro i row' hrow'
    rw [Table.get_insert] at hrow' ⊢
    split_ifs at hrow' with hir
    · cases Option.some.inj hrow'
      rw [if_pos rfl, hir]
    · have hsp := h.row_spent i row' hrow'
      -- an older intent is spent under another authorization
      have hne : row.authorization ≠ row'.authorization := by
        intro he
        rw [he, hsp] at hs
        cases hs
      rw [if_neg hne]
      exact hsp
  · intro i row' hrow'
    rw [Table.get_insert] at hrow'
    split_ifs at hrow' with hir
    · cases Option.some.inj hrow'
      exact hg
    · exact h.row_grant i row' hrow'
  · intro a i hai
    rw [Table.get_insert] at hai
    split_ifs at hai with haa
    · cases Option.some.inj hai
      exact ⟨row, by rw [Table.get_insert, if_pos rfl]⟩
    · obtain ⟨row', hrow'⟩ := h.spent_row a i hai
      have hne : r.id ≠ i := by
        intro he
        rw [he, hrow'] at hfresh
        cases hfresh
      exact ⟨row', by rw [Table.get_insert, if_neg hne]; exact hrow'⟩
  · intro i row' hrow'
    rw [Table.get_insert] at hrow'
    split_ifs at hrow' with hir
    · exact ⟨r, by simp, hir⟩
    · exact seen_snoc (h.intent_seen i row' hrow')
  · exact fun a ha => seen_snoc (h.grant_seen a ha)

theorem Consistent.settle (h : Consistent c J l) (hi : Increasing (J ++ [r])) {i id : UInt64} {row : IntentRow}
    {st : EffectState} {disk : Option String} (hrow : l.intents[i]? = some row)
    (hr : l.read c r = .ok { l with intents := l.intents.insert i (row.settled id st disk) }) :
    Consistent c (J ++ [r]) { l with intents := l.intents.insert i (row.settled id st disk) } := by
  -- every row is one the ledger had, up to its state
  have hback : ∀ (j : UInt64) (row' : IntentRow), (l.intents.insert i (row.settled id st disk))[j]? = some row' →
      ∃ row₀ : IntentRow, l.intents[j]? = some row₀ ∧ row'.id = row₀.id ∧ row'.authorization = row₀.authorization := by
    intro j row' hrow'
    rw [Table.get_insert] at hrow'
    split_ifs at hrow' with hij
    · cases Option.some.inj hrow'
      exact ⟨row, hij ▸ hrow, rfl, rfl⟩
    · exact ⟨row', hrow', rfl, rfl⟩
  refine ⟨h.fromRecords_snoc hr, hi, ?_, ?_, ?_, ?_, h.grant_id, ?_, ?_⟩
  · intro j row' hrow'
    obtain ⟨row₀, h0, hid, -⟩ := hback j row' hrow'
    exact hid.trans (h.row_id j row₀ h0)
  · intro j row' hrow'
    obtain ⟨row₀, h0, -, ha⟩ := hback j row' hrow'
    rw [ha]
    exact h.row_spent j row₀ h0
  · intro j row' hrow'
    obtain ⟨row₀, h0, -, ha⟩ := hback j row' hrow'
    rw [ha]
    exact h.row_grant j row₀ h0
  · intro a j haj
    obtain ⟨row₀, h0⟩ := h.spent_row a j haj
    by_cases hij : i = j
    · exact ⟨_, by rw [Table.get_insert, if_pos hij]⟩
    · exact ⟨row₀, by rw [Table.get_insert, if_neg hij]; exact h0⟩
  · intro j row' hrow'
    obtain ⟨row₀, h0, -, -⟩ := hback j row' hrow'
    exact seen_snoc (h.intent_seen j row₀ h0)
  · exact fun a ha => seen_snoc (h.grant_seen a ha)

theorem Consistent.advance {s s' : List RecordView × Ledger} (h : Consistent c s.1 s.2) (ha : Advance c Q s s') :
    Consistent c s'.1 s'.2 := by
  obtain ⟨J, l⟩ := s
  obtain ⟨J', l'⟩ := s'
  obtain ⟨⟨r, hJ, hr, hm⟩, hi⟩ := ha
  dsimp only at h hJ hr hm hi ⊢
  subst hJ
  cases hm with
  | pass => exact h.same hi hr rfl rfl rfl
  | control stops resumes revoked => exact h.same hi hr rfl rfl rfl
  | commit row => exact h.same hi hr rfl rfl rfl
  | grant g nonce hid => exact h.addGrant hi hid hr
  | intent row hid ho hs hg hq => exact h.openIntent hi hid hs hg hr
  | settle i row st disk hrow ht hst => exact h.settle hi hrow hr

theorem Advance.settled {s s' : List RecordView × Ledger} (h : Consistent c s.1 s.2) (ha : Advance c Q s s')
    {i : UInt64} {row : IntentRow} (hrow : s.2.intents[i]? = some row) (ht : row.state.terminal = true) :
    s'.2.intents[i]? = some row := by
  obtain ⟨J, l⟩ := s
  obtain ⟨J', l'⟩ := s'
  obtain ⟨⟨r, hJ, hr, hm⟩, hi⟩ := ha
  dsimp only at h hJ hr hm hi hrow ⊢
  subst hJ
  cases hm with
  | pass => exact hrow
  | control stops resumes revoked => exact hrow
  | commit row' => exact hrow
  | grant g nonce hid => exact hrow
  | intent row' hid ho hs hg hq =>
    have hne : r.id ≠ i := by
      intro he
      rw [← he, h.fresh_intent hi] at hrow
      cases hrow
    rw [Table.get_insert, if_neg hne]
    exact hrow
  | settle j row' st disk hrow' ht' hst =>
    have hne : j ≠ i := by
      intro he
      rw [he, hrow] at hrow'
      cases Option.some.inj hrow'
      rw [ht] at ht'
      cases ht'
    rw [Table.get_insert, if_neg hne]
    exact hrow

end SovereignCore.Effects
