import SovereignCore.Effects.Notes

/-!
# What one record does to the replay ledger

The reader of replay records decides everything: whatever journal it accepts, the keys of its claims are each claimed
once, and the records of a claim follow its state machine. `Claims.Kept` says so of a journal and the ledger read from
it; it holds of every accepted journal with increasing ids.

* `Reading` : what an accepted record did to the replay ledger; `read_reading` : the reader does nothing else;
* `Kept`, `kept_of_reads` : what every accepted journal keeps.
-/

namespace SovereignCore.Effects.Replay

open Std SovereignCore.Json

/-- The phase and the claim that a replay record names, after the one that accepts a claim. -/
def phaseOf (c : Codec) (r : RecordView) : Option (String × UInt64) :=
  if r.note = some "effect" then
    match r.text.bind c.parse with
    | none => none
    | some v =>
      match (v.get "approved_submission").bind Value.asStr, (v.get "claim").bind Value.asU64 with
      | some phase, some i => if phase = "accepted" then none else some (phase, i)
      | _, _ => none
  else none

def keysOf (c : Codec) (r : RecordView) : Option ClaimKeys :=
  if r.note = some "effect" then
    match r.text.bind c.parse with
    | none => none
    | some v =>
      if (v.get "approved_submission").bind Value.asStr = some "accepted" then do
        let approvalKey ← (v.get "approval_key").bind Value.asStr
        let requestId ← (v.get "request_id").bind Value.asStr
        let approvalId ← (v.get "approval_id").bind Value.asStr
        let traceId ← (v.get "trace_id").bind Value.asStr
        some ⟨approvalKey, requestId, approvalId, traceId⟩
      else none
  else none

def accepts (c : Codec) (k : String) (r : RecordView) : Bool := (keysOf c r).any fun keys => k ∈ keys.keys

def endings : List String := ["committed", "failed", "uncertain", "not_executed"]

def flies (c : Codec) (i : UInt64) (r : RecordView) : Bool :=
  (phaseOf c r).any fun p => p.2 = i && p.1 = "in_flight"

def ends (c : Codec) (i : UInt64) (r : RecordView) : Bool := (phaseOf c r).any fun p => p.2 = i && p.1 ∈ endings

/-- What an accepted record did to the ledger. -/
inductive Reading (c : Codec) (r : RecordView) (l : ReplayLedger) : ReplayLedger → Prop
  | pass (h : phaseOf c r = none) (hk : keysOf c r = none) : Reading c r l l
  | accept (row : ClaimRow) (index : ExtTreeMap String UInt64) (h : phaseOf c r = none)
      (hk : keysOf c r = some row.keys) (hid : row.id = r.id) (hst : row.state = .accepted)
      (hix : row.keys.keys.foldlM (ReplayLedger.claimKey r.id) l.index = .ok index) :
      Reading c r l ⟨l.claims.insert r.id row, index⟩
  | phase (i : UInt64) (row row' : ClaimRow) (name : String) (h : phaseOf c r = some (name, i))
      (hk : keysOf c r = none) (hrow : l.claims[i]? = some row) (hid : row'.id = row.id) (hkeys : row'.keys = row.keys)
      (hst : ReplayLedger.next name row.state = some row'.state) :
      Reading c r l { l with claims := l.claims.insert i row' }
  | declared (i : UInt64) (row row' : ClaimRow) (h : phaseOf c r = some ("declared", i)) (hk : keysOf c r = none)
      (hrow : l.claims[i]? = some row) (hid : row'.id = row.id) (hkeys : row'.keys = row.keys)
      (hst : row'.state = row.state) : Reading c r l { l with claims := l.claims.insert i row' }

section Reader

variable {c : Codec} {r : RecordView} {l l' : ReplayLedger}

theorem Field.s_inv {v : Value} {k x : String} {id : UInt64} (h : Field.s v k id = .ok x) :
    (v.get k).bind Value.asStr = some x := by
  unfold Field.s at h
  split at h
  · rename_i x' hx
    rw [hx, Except.ok.inj h]
  · cases h

theorem Field.u_inv {v : Value} {k : String} {id n : UInt64} (h : Field.u v k id = .ok n) :
    (v.get k).bind Value.asU64 = some n := by
  unfold Field.u at h
  split at h
  · rename_i x' hx
    rw [hx, Except.ok.inj h]
  · cases h

theorem readPhase_inv {row row' : ClaimRow} {id i : UInt64} {name : String} {v : Value}
    (h : ReplayLedger.readPhase row id i name v = .ok row') : row'.id = row.id ∧ row'.keys = row.keys ∧
      (ReplayLedger.next name row.state = some row'.state ∨ name = "declared" ∧ row'.state = row.state) := by
  unfold ReplayLedger.readPhase at h
  split_ifs at h with hdecl
  · unfold ReplayLedger.readDeclared at h
    rw [Result.guard_ok] at h
    simp only [Result.bind_ok, Result.guard_ok] at h
    obtain ⟨-, d, -, -, h⟩ := h
    cases Except.ok.inj h
    exact ⟨rfl, rfl, Or.inr ⟨hdecl.1, rfl⟩⟩
  · split at h
    · cases h
    · rename_i st hst
      simp only [Result.bind_ok] at h
      obtain ⟨e, -, h⟩ := h
      cases Except.ok.inj h
      exact ⟨rfl, rfl, Or.inl hst⟩

/-- The two readings of a record that is not one of the replay ledger's. -/
theorem not_replay (h : r.note = some "effect" → ∀ v, r.text.bind c.parse = some v →
    v.get "approved_submission" = none) : phaseOf c r = none ∧ keysOf c r = none := by
  unfold phaseOf keysOf
  by_cases hn : r.note = some "effect"
  · rw [if_pos hn, if_pos hn]
    rcases hv : r.text.bind c.parse with _ | v
    · exact ⟨rfl, rfl⟩
    · simp [h hn v hv]
  · rw [if_neg hn, if_neg hn]
    exact ⟨rfl, rfl⟩

theorem read_reading (h : l.read c r = .ok l') : Reading c r l l' := by
  unfold ReplayLedger.read at h
  rw [Result.guard_ok] at h
  obtain ⟨-, h⟩ := h
  split_ifs at h with hnote
  · cases Except.ok.inj h
    obtain ⟨hph, hk⟩ := not_replay (c := c) (r := r) fun hn => absurd hn hnote
    exact .pass hph hk
  rw [ne_eq, not_not] at hnote
  split at h
  · rename_i htext
    cases Except.ok.inj h
    obtain ⟨hph, hk⟩ := not_replay (c := c) (r := r) fun _ v hv => by simp [htext] at hv
    exact .pass hph hk
  rename_i text htext
  have hbind : r.text.bind c.parse = c.parse text := by rw [htext]; rfl
  unfold ReplayLedger.readEffect at h
  rcases hv : c.parse text with _ | v
  · rw [hv] at h
    cases Except.ok.inj h
    obtain ⟨hph, hk⟩ := not_replay (c := c) (r := r) fun _ v' hv' => by simp [hbind, hv] at hv'
    exact .pass hph hk
  rw [hv] at h hbind
  rcases hf : v.get "approved_submission" with _ | p
  · simp only [Option.bind_some, hf, Option.map_none] at h
    cases Except.ok.inj h
    obtain ⟨hph, hk⟩ := not_replay (c := c) (r := r) fun _ v' hv' => by
      rw [hbind] at hv'
      exact Option.some.inj hv' ▸ hf
    exact .pass hph hk
  simp only [Option.bind_some, hf, Option.map_some] at h
  rcases hp : p.asStr with _ | phase
  · rw [hp] at h
    cases h
  rw [hp] at h
  dsimp only at h
  unfold ReplayLedger.readValue at h
  split_ifs at h with hacc
  · subst hacc
    have hnone : phaseOf c r = none := by
      unfold phaseOf
      rw [if_pos hnote, hbind]
      dsimp only
      rw [hf, Option.bind_some, hp]
      rcases (v.get "claim").bind Value.asU64 with _ | i <;> rfl
    unfold ReplayLedger.readAccepted at h
    simp only [Result.bind_ok] at h
    obtain ⟨k, hk, q, hq, a, ha, t, ht, index, hix, pid, -, start, -, h⟩ := h
    cases Except.ok.inj h
    refine .accept _ index hnone ?_ rfl rfl hix
    unfold keysOf
    rw [if_pos hnote, hbind]
    dsimp only
    rw [hf, Option.bind_some, hp, if_pos rfl, Field.s_inv hk, Field.s_inv hq, Field.s_inv ha, Field.s_inv ht]
    rfl
  · simp only [Result.bind_ok] at h
    obtain ⟨i, hi, h⟩ := h
    have hsome : phaseOf c r = some (phase, i) := by
      unfold phaseOf
      rw [if_pos hnote, hbind]
      dsimp only
      rw [hf, Option.bind_some, hp, Field.u_inv hi]
      simp [hacc]
    have hkeys : keysOf c r = none := by
      unfold keysOf
      rw [if_pos hnote, hbind]
      dsimp only
      rw [hf, Option.bind_some, hp, if_neg (by simpa using hacc)]
    split at h
    · cases h
    · rename_i row hrow
      simp only [Result.bind_ok] at h
      obtain ⟨row', hrow', h⟩ := h
      cases Except.ok.inj h
      obtain ⟨hid, hk, hst | ⟨rfl, hst⟩⟩ := readPhase_inv hrow'
      · exact .phase i row row' phase hsome hkeys hrow hid hk hst
      · exact .declared i row row' hsome hkeys hrow hid hk hst

end Reader

/-! ## What every accepted journal keeps -/

def ClaimState.flown : ClaimState → Nat
  | .accepted | .notExecuted => 0
  | _ => 1

def ClaimState.ended (st : ClaimState) : Nat := if st.terminal then 1 else 0

theorem next_counts {name : String} {st st' : ClaimState} (h : ReplayLedger.next name st = some st') :
    st'.flown = st.flown + (if name = "in_flight" then 1 else 0) ∧
      st'.ended = st.ended + (if name ∈ endings then 1 else 0) := by
  unfold ReplayLedger.next at h
  split at h
  · cases Option.some.inj h
    decide
  · cases Option.some.inj h
    decide
  · cases Option.some.inj h
    decide
  · cases Option.some.inj h
    decide
  · cases Option.some.inj h
    decide
  · cases h

section Index

variable {id : UInt64} {index index' : ExtTreeMap String UInt64} {keys : List String}

/-- The keys of an accepted claim were free, and are now the claim's. -/
theorem claimKeys_ok (h : keys.foldlM (ReplayLedger.claimKey id) index = .ok index') :
    (∀ k ∈ keys, index[k]? = none) ∧ ∀ k : String, index'[k]? = if k ∈ keys then some id else index[k]? := by
  induction keys generalizing index with
  | nil =>
    rw [List.foldlM_nil, Result.pure_ok] at h
    subst h
    exact ⟨by simp, by simp⟩
  | cons k keys ih =>
    rw [List.foldlM_cons, Result.bind_ok] at h
    obtain ⟨mid, hmid, h⟩ := h
    unfold ReplayLedger.claimKey at hmid
    split at hmid
    · cases hmid
    · rename_i hfree
      cases Except.ok.inj hmid
      obtain ⟨hnone, hget⟩ := ih h
      refine ⟨?_, ?_⟩
      · intro k' hk'
        rcases List.mem_cons.1 hk' with rfl | hk'
        · exact hfree
        · have hk := hnone k' hk'
          rw [Table.get_insert] at hk
          split_ifs at hk
          exact hk
      · intro k'
        rw [hget, Table.get_insert]
        by_cases hk' : k' ∈ keys
        · rw [if_pos hk', if_pos (by simp [hk'])]
        · rw [if_neg hk']
          by_cases he : k = k'
          · rw [if_pos he, if_pos (by simp [he])]
          · rw [if_neg he, if_neg (by simp [hk', Ne.symm he])]

theorem claimKeys_total (id : UInt64) (hd : keys.Nodup) (hfree : ∀ k ∈ keys, index[k]? = none) :
    ∃ index', keys.foldlM (ReplayLedger.claimKey id) index = .ok index' := by
  induction keys generalizing index with
  | nil => exact ⟨index, rfl⟩
  | cons k keys ih =>
    rw [List.nodup_cons] at hd
    have hk : ReplayLedger.claimKey id index k = .ok (index.insert k id) := by
      unfold ReplayLedger.claimKey
      rw [hfree k (by simp)]
    have hrest : ∀ k' ∈ keys, (index.insert k id)[k']? = none := by
      intro k' hk'
      have hne : k ≠ k' := fun he => hd.1 (he ▸ hk')
      rw [Table.get_insert, if_neg hne]
      exact hfree k' (by simp [hk'])
    obtain ⟨index', hix⟩ := ih hd.2 hrest
    exact ⟨index', by rw [List.foldlM_cons, hk]; exact hix⟩

theorem ClaimKeys.keys_nodup (k : ClaimKeys) : k.keys.Nodup := by
  have hhead : ∀ (s t : String) (a b : Char), s.toList.head? = some a → t.toList.head? = some b → a ≠ b → s ≠ t := by
    intro s t a b hs ht hab he
    rw [he, ht] at hs
    exact hab (Option.some.inj hs).symm
  have hkey : ("key:" ++ k.approvalKey).toList.head? = some 'k' := by simp
  have hreq : ("request:" ++ k.requestId).toList.head? = some 'r' := by simp
  have happ : ("approval:" ++ k.approvalId).toList.head? = some 'a' := by simp
  have h1 := hhead _ _ _ _ hkey hreq (by decide)
  have h2 := hhead _ _ _ _ hkey happ (by decide)
  have h3 := hhead _ _ _ _ hreq happ (by decide)
  simp [ClaimKeys.keys, h1, h2, h3]

end Index

/-- What holds of a journal and the replay ledger read from it. -/
structure Kept (c : Codec) (J : List RecordView) (l : ReplayLedger) : Prop where
  row_id : ∀ (i : UInt64) (row : ClaimRow), l.claims[i]? = some row → row.id = i
  seen : ∀ (i : UInt64) (row : ClaimRow), l.claims[i]? = some row → ∃ r ∈ J, r.id = i
  indexed : ∀ (i : UInt64) (row : ClaimRow) (k : String), l.claims[i]? = some row → k ∈ row.keys.keys →
    l.index[k]? = some i
  index_row : ∀ (k : String) (i : UInt64), l.index[k]? = some i → ∃ row, l.claims[i]? = some row
  counts : ∀ (i : UInt64) (row : ClaimRow), l.claims[i]? = some row →
    J.countP (flies c i) = row.state.flown ∧ J.countP (ends c i) = row.state.ended
  unclaimed : ∀ i : UInt64, l.claims[i]? = none → J.countP (flies c i) = 0 ∧ J.countP (ends c i) = 0
  accepted : ∀ k : String, J.countP (accepts c k) = if (l.index[k]?).isSome then 1 else 0

section Keep

variable {c : Codec} {J : List RecordView} {r : RecordView} {l l' : ReplayLedger} {i : UInt64} {row row' : ClaimRow}

theorem countP_snoc (p : RecordView → Bool) : (J ++ [r]).countP p = J.countP p + (if p r then 1 else 0) := by
  rw [List.countP_append, List.countP_singleton]

theorem flies_of_none (h : phaseOf c r = none) (i : UInt64) : flies c i r = false := by simp [flies, h]

theorem ends_of_none (h : phaseOf c r = none) (i : UInt64) : ends c i r = false := by simp [ends, h]

theorem Kept.fresh (h : Kept c J l) (hi : Increasing (J ++ [r])) : l.claims[r.id]? = none := by
  rcases hrow : l.claims[r.id]? with _ | row
  · rfl
  · obtain ⟨r', hr', he⟩ := h.seen _ _ hrow
    exact absurd (he ▸ hi.id_lt r' hr') (UInt64.lt_irrefl _)

theorem accepts_of_none (h : keysOf c r = none) (k : String) : accepts c k r = false := by simp [accepts, h]

theorem Kept.pass (h : Kept c J l) (hn : phaseOf c r = none) (hk : keysOf c r = none) : Kept c (J ++ [r]) l := by
  refine ⟨h.row_id, ?_, h.indexed, h.index_row, ?_, ?_, ?_⟩
  · intro i row hrow
    obtain ⟨r', hr', he⟩ := h.seen i row hrow
    exact ⟨r', by simp [hr'], he⟩
  · intro i row hrow
    simpa [countP_snoc, flies_of_none hn, ends_of_none hn] using h.counts i row hrow
  · intro i hrow
    simpa [countP_snoc, flies_of_none hn, ends_of_none hn] using h.unclaimed i hrow
  · intro k
    simpa [countP_snoc, accepts_of_none hk] using h.accepted k

theorem Kept.accept (h : Kept c J l) (hi : Increasing (J ++ [r])) (hn : phaseOf c r = none)
    (hkr : keysOf c r = some row.keys) (hid : row.id = r.id) (hst : row.state = .accepted)
    {index : ExtTreeMap String UInt64}
    (hix : row.keys.keys.foldlM (ReplayLedger.claimKey r.id) l.index = .ok index) :
    Kept c (J ++ [r]) ⟨l.claims.insert r.id row, index⟩ := by
  have hfresh := h.fresh hi
  obtain ⟨hfree, hget⟩ := claimKeys_ok hix
  have hcount : ∀ i, (J ++ [r]).countP (flies c i) = J.countP (flies c i) ∧
      (J ++ [r]).countP (ends c i) = J.countP (ends c i) := by
    intro i
    simp [flies_of_none hn, ends_of_none hn]
  refine ⟨?_, ?_, ?_, ?_, ?_, ?_, ?_⟩
  · intro i row' hrow'
    rw [Table.get_insert] at hrow'
    split_ifs at hrow' with he
    · cases Option.some.inj hrow'
      exact hid.trans he
    · exact h.row_id i row' hrow'
  · intro i row' hrow'
    rw [Table.get_insert] at hrow'
    split_ifs at hrow' with he
    · exact ⟨r, by simp, he⟩
    · obtain ⟨r', hr', he'⟩ := h.seen i row' hrow'
      exact ⟨r', by simp [hr'], he'⟩
  · intro i row' k hrow' hk
    rw [Table.get_insert] at hrow'
    split_ifs at hrow' with he
    · cases Option.some.inj hrow'
      dsimp only
      rw [hget, if_pos hk, he]
    · have hold := h.indexed i row' k hrow' hk
      -- an older claim's key was not free, so the new claim does not have it
      have hnot : k ∉ row.keys.keys := by
        intro hk'
        rw [hfree k hk'] at hold
        cases hold
      dsimp only
      rw [hget, if_neg hnot]
      exact hold
  · intro k i hki
    dsimp only at hki ⊢
    rw [hget] at hki
    split_ifs at hki with hk
    · cases Option.some.inj hki
      exact ⟨row, by rw [Table.get_insert, if_pos rfl]⟩
    · obtain ⟨row', hrow'⟩ := h.index_row k i hki
      have hne : r.id ≠ i := by
        intro he
        rw [he, hrow'] at hfresh
        cases hfresh
      exact ⟨row', by rw [Table.get_insert, if_neg hne]; exact hrow'⟩
  · intro i row' hrow'
    rw [Table.get_insert] at hrow'
    split_ifs at hrow' with he
    · cases Option.some.inj hrow'
      rw [(hcount i).1, (hcount i).2, hst]
      exact h.unclaimed i (he ▸ hfresh)
    · rw [(hcount i).1, (hcount i).2]
      exact h.counts i row' hrow'
  · intro i hrow'
    rw [Table.get_insert] at hrow'
    split_ifs at hrow' with he
    rw [(hcount i).1, (hcount i).2]
    exact h.unclaimed i hrow'
  · intro k
    dsimp only
    rw [countP_snoc, h.accepted, hget]
    by_cases hk : k ∈ row.keys.keys
    · simp [accepts, hkr, hk, hfree k hk]
    · simp [accepts, hkr, hk]

/-- A record that names the claim `i` and rewrites its row, keys and id aside. -/
theorem Kept.rewrite (h : Kept c J l) {name : String} (hn : phaseOf c r = some (name, i)) (hk : keysOf c r = none)
    (hrow : l.claims[i]? = some row) (hid : row'.id = row.id) (hkeys : row'.keys = row.keys)
    (hfl : row'.state.flown = row.state.flown + (if name = "in_flight" then 1 else 0))
    (hen : row'.state.ended = row.state.ended + (if name ∈ endings then 1 else 0)) :
    Kept c (J ++ [r]) { l with claims := l.claims.insert i row' } := by
  have hback : ∀ (j : UInt64) (rj : ClaimRow), (l.claims.insert i row')[j]? = some rj →
      ∃ r0 : ClaimRow, l.claims[j]? = some r0 ∧ rj.id = r0.id ∧ rj.keys = r0.keys := by
    intro j rj hj
    rw [Table.get_insert] at hj
    split_ifs at hj with he
    · cases Option.some.inj hj
      exact ⟨row, he ▸ hrow, hid, hkeys⟩
    · exact ⟨rj, hj, rfl, rfl⟩
  have hother : ∀ j, i ≠ j → flies c j r = false ∧ ends c j r = false := by
    intro j hij
    simp [flies, ends, hn, hij]
  refine ⟨?_, ?_, ?_, ?_, ?_, ?_, ?_⟩
  · intro j rj hj
    obtain ⟨r0, h0, hid', -⟩ := hback j rj hj
    exact hid'.trans (h.row_id j r0 h0)
  · intro j rj hj
    obtain ⟨r0, h0, -, -⟩ := hback j rj hj
    obtain ⟨r', hr', he⟩ := h.seen j r0 h0
    exact ⟨r', by simp [hr'], he⟩
  · intro j rj k hj hk
    obtain ⟨r0, h0, -, hk'⟩ := hback j rj hj
    exact h.indexed j r0 k h0 (hk' ▸ hk)
  · intro k j hkj
    obtain ⟨r0, h0⟩ := h.index_row k j hkj
    by_cases he : i = j
    · exact ⟨row', by rw [Table.get_insert, if_pos he]⟩
    · exact ⟨r0, by rw [Table.get_insert, if_neg he]; exact h0⟩
  · intro j rj hj
    rw [Table.get_insert] at hj
    rw [countP_snoc, countP_snoc]
    split_ifs at hj with he
    · cases Option.some.inj hj
      subst he
      obtain ⟨h1, h2⟩ := h.counts i row hrow
      rw [h1, h2, hfl, hen]
      simp [flies, ends, hn]
    · obtain ⟨h1, h2⟩ := h.counts j rj hj
      obtain ⟨h3, h4⟩ := hother j he
      simp [h1, h2, h3, h4]
  · intro j hj
    rw [Table.get_insert] at hj
    split_ifs at hj with he
    obtain ⟨h1, h2⟩ := h.unclaimed j hj
    obtain ⟨h3, h4⟩ := hother j he
    simp [h1, h2, h3, h4]
  · intro k
    simpa [countP_snoc, accepts_of_none hk] using h.accepted k

theorem Kept.read (h : Kept c J l) (hi : Increasing (J ++ [r])) (hr : l.read c r = .ok l') : Kept c (J ++ [r]) l' := by
  cases read_reading hr with
  | pass hn hk => exact h.pass hn hk
  | accept row index hn hk hid hst hix => exact h.accept hi hn hk hid hst hix
  | phase i row row' name hn hk hrow hid hkeys hst =>
    obtain ⟨hfl, hen⟩ := next_counts hst
    exact h.rewrite hn hk hrow hid hkeys hfl hen
  | declared i row row' hn hk hrow hid hkeys hst =>
    exact h.rewrite hn hk hrow hid hkeys (by rw [hst]; simp) (by rw [hst]; simp [endings])

theorem fromRecords_snoc_inv (h : ReplayLedger.fromRecords c (J ++ [r]) = .ok l') :
    ∃ l, ReplayLedger.fromRecords c J = .ok l ∧ l.read c r = .ok l' := by
  unfold ReplayLedger.fromRecords at h ⊢
  rw [List.foldlM_append, Result.bind_ok] at h
  obtain ⟨l₀, h0, h⟩ := h
  rw [List.foldlM_cons, Result.bind_ok] at h
  obtain ⟨l₁, h1, h⟩ := h
  cases Except.ok.inj h
  exact ⟨l₀, h0, h1⟩

theorem kept_of_reads (hr : ReplayLedger.fromRecords c J = .ok l) (hi : Increasing J) : Kept c J l := by
  induction J using List.reverseRecOn generalizing l with
  | nil =>
    cases Except.ok.inj hr
    exact ⟨by simp, by simp, by simp, by simp, by simp, by simp, by simp⟩
  | append_singleton J r ih =>
    obtain ⟨l₀, h0, h1⟩ := fromRecords_snoc_inv hr
    exact (ih h0 hi.left).read hi h1

theorem read_keeps (h : Kept c J l) (hi : Increasing (J ++ [r])) (hr : l.read c r = .ok l')
    (hrow : l.claims[i]? = some row) : ∃ row', l'.claims[i]? = some row' ∧ row'.keys = row.keys := by
  have hrewrite : ∀ (j : UInt64) (r₀ r₁ : ClaimRow), l.claims[j]? = some r₀ → r₁.keys = r₀.keys →
      ∃ row', (l.claims.insert j r₁)[i]? = some row' ∧ row'.keys = row.keys := by
    intro j r₀ r₁ h0 hk
    rw [Table.get_insert]
    split_ifs with he
    · rw [← he, h0] at hrow
      cases Option.some.inj hrow
      exact ⟨r₁, rfl, hk⟩
    · exact ⟨row, hrow, rfl⟩
  cases read_reading hr with
  | pass hn hk => exact ⟨row, hrow, rfl⟩
  | accept row' index hn hk hid hst hix =>
    have hne : r.id ≠ i := by
      intro he
      rw [← he, h.fresh hi] at hrow
      cases hrow
    exact ⟨row, by rw [Table.get_insert, if_neg hne]; exact hrow, rfl⟩
  | phase j r₀ r₁ name hn hk h0 hid hkeys hst => exact hrewrite j r₀ r₁ h0 hkeys
  | declared j r₀ r₁ hn hk h0 hid hkeys hst => exact hrewrite j r₀ r₁ h0 hkeys

theorem fromRecords_keeps {rs : List RecordView} (hl : ReplayLedger.fromRecords c J = .ok l)
    (hl' : ReplayLedger.fromRecords c (J ++ rs) = .ok l') (hi : Increasing (J ++ rs)) (hrow : l.claims[i]? = some row) :
    ∃ row', l'.claims[i]? = some row' ∧ row'.keys = row.keys := by
  induction rs using List.reverseRecOn generalizing l' with
  | nil =>
    rw [List.append_nil, hl] at hl'
    cases Except.ok.inj hl'
    exact ⟨row, hrow, rfl⟩
  | append_singleton rs r ih =>
    rw [← List.append_assoc] at hl' hi
    obtain ⟨l₀, h0, h1⟩ := fromRecords_snoc_inv hl'
    obtain ⟨row₀, hrow₀, hk₀⟩ := ih h0 hi.left
    obtain ⟨row', hrow', hk'⟩ := read_keeps (kept_of_reads h0 hi.left) hi h1 hrow₀
    exact ⟨row', hrow', hk'.trans hk₀⟩

theorem read_accepts {keys : ClaimKeys} (hk : keysOf c r = some keys) (hr : l.read c r = .ok l') :
    ∃ row, l'.claims[r.id]? = some row ∧ row.keys = keys := by
  cases read_reading hr with
  | pass hn hk' =>
    rw [hk] at hk'
    cases hk'
  | accept row index hn hk' hid hst hix =>
    rw [hk] at hk'
    exact ⟨row, by rw [Table.get_insert, if_pos rfl], (Option.some.inj hk').symm⟩
  | phase j r₀ r₁ name hn hk' h0 hid hkeys hst =>
    rw [hk] at hk'
    cases hk'
  | declared j r₀ r₁ hn hk' h0 hid hkeys hst =>
    rw [hk] at hk'
    cases hk'

end Keep

end SovereignCore.Effects.Replay
