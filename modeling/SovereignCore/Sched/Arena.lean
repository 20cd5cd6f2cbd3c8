import SovereignCore.Sched.Sequence

/-!
# Runs of the arena

* `SequenceArena.Stays`, `Handed` : what an allocation may do to the slots; one lemma for each operation;
* `ArenaOp`, `step`, `run` : any list of operations; `none` is an index out of bounds;
* `fits` : an explicit id names an empty slot whose generations have not passed it;
* `freed_ids_stay_stale` : in a run of fitting operations a freed id is stale forever and no live record is lost.
-/

namespace SovereignCore.Sched

open Prog Kv

namespace SequenceArena

variable {a a' : SequenceArena} {id : SequenceId} {params : SequenceParams} {slotIdx : UInt32}

/-! ## Operations -/

/-- A step that loses nothing. -/
structure Stays (a a' : SequenceArena) : Prop where
  wf : a'.WF
  onward : a.toSlots.Onward a'.toSlots
  saves : ∀ id r, a.get id = some r → a'.get id = some r

/-- No record was touched. -/
structure Idle (a a' : Slots SequenceRecord) : Prop where
  wf : a'.WF
  onward : a.Onward a'
  gets : ∀ id, a'.get id = a.get id

/-- `id` names an empty slot that is not listed as free. -/
structure Handed (a a' : Slots SequenceRecord) (id : SequenceId) : Prop extends Idle a a' where
  positive : id.generation ≠ 0
  unlisted : id.slot ∉ a'.freeSlots
  entry : ∃ s, a'.slots[id.slot.toNat]? = some s ∧ s.generation = id.generation ∧ s.retired = false ∧ s.record = none

/-- The new id `id` got the record `r`. -/
structure Inserted (a a' : SequenceArena) (id : SequenceId) (r : SequenceRecord) : Prop where
  wf : a'.WF
  onward : a.toSlots.Onward a'.toSlots
  absent : a.get id = none
  alive : ¬ a.toSlots.Dead id
  self : a'.get id = some r
  others : ∀ id', id' ≠ id → a'.get id' = a.get id'

theorem Idle.refl {a : Slots SequenceRecord} (h : a.WF) : Idle a a := ⟨h, .refl a, fun _ => rfl⟩

theorem Idle.trans {a a' a'' : Slots SequenceRecord} (h : Idle a a') (h' : Idle a' a'') : Idle a a'' :=
  ⟨h'.wf, h.onward.trans h'.onward, fun id => (h'.gets id).trans (h.gets id)⟩

theorem get_eq (h : id.generation ≠ 0) : a.get id = a.toSlots.get id := if_neg h

theorem get_of_some {r : SequenceRecord} (h : a.get id = some r) : id.generation ≠ 0 ∧ a.toSlots.get id = some r := by
  unfold get at h
  split_ifs at h with hg
  exact ⟨hg, h⟩

theorem isStale_eq : a.isStale id = (a.get id).isNone := by
  unfold isStale get Slots.get
  split_ifs with hg
  · rfl
  · cases a.slots[id.slot.toNat]? with
    | none => rfl
    | some s =>
      show (s.generation != id.generation || s.record.isNone) =
        (if s.generation = id.generation then s.record else none).isNone
      by_cases hs : s.generation = id.generation
      · simp [hs]
      · simp [hs]

/-- A change through `get_mut` touches one record. -/
theorem get_getMut_self {f : SequenceRecord → SequenceRecord} : (a.getMut id f).get id = (a.get id).map f := by
  unfold getMut get
  split_ifs
  · rfl
  · exact Slots.get_modify_self

theorem get_getMut_of_ne {f : SequenceRecord → SequenceRecord} {id' : SequenceId} (h : id' ≠ id) :
    (a.getMut id f).get id' = a.get id' := by
  unfold getMut
  split_ifs
  · rfl
  · unfold get
    show (if id'.generation = 0 then none else (a.toSlots.modify id f).get id') = _
    rw [Slots.get_modify_of_ne h]

theorem wf_getMut {f : SequenceRecord → SequenceRecord} (h : a.WF) : (a.getMut id f).WF := by
  unfold getMut
  split_ifs
  · exact h
  · exact h.modify

theorem onward_getMut {f : SequenceRecord → SequenceRecord} : a.toSlots.Onward (a.getMut id f).toSlots := by
  unfold getMut
  split_ifs
  · exact .refl _
  · exact .modify

theorem idle_push {b : Slots SequenceRecord} (h : b.WF) (free : List UInt32) (hn : free.Nodup)
    (hfree : ∀ i ∈ free, i ∈ b.freeSlots ∨ i.toNat = b.slots.length) :
    Idle b { slots := b.slots ++ [.fresh], freeSlots := free } := by
  have hleft : ∀ (j : Nat) (s : SlotEntry SequenceRecord), b.slots[j]? = some s →
      (b.slots ++ [SlotEntry.fresh])[j]? = some s := by
    intro j s hs
    rw [List.getElem?_append_left (List.getElem?_eq_some_iff.1 hs).1]
    exact hs
  refine ⟨⟨hn, ?_, ?_⟩, fun j s hs => ⟨s, hleft j s hs, .refl s⟩, ?_⟩
  · intro i hi
    rcases hfree i hi with hi | hi
    · obtain ⟨s, hs, hr⟩ := h.free i hi
      exact ⟨s, hleft _ s hs, hr⟩
    · exact ⟨.fresh, by rw [hi, List.getElem?_concat_length], rfl⟩
  · intro j s hs
    rcases List.mem_append.1 (List.mem_of_getElem? hs) with hm | hm
    · obtain ⟨k, hk⟩ := List.mem_iff_getElem?.1 hm
      exact h.positive k s hk
    · rw [List.mem_singleton.1 hm]
      decide
  · intro id
    unfold Slots.get
    show ((b.slots ++ [SlotEntry.fresh])[id.slot.toNat]?).bind _ = (b.slots[id.slot.toNat]?).bind _
    rw [List.getElem?_append]
    by_cases hlt : id.slot.toNat < b.slots.length
    · rw [if_pos hlt]
    · rw [if_neg hlt, List.getElem?_eq_none (Nat.le_of_not_lt hlt)]
      cases hs : [(SlotEntry.fresh : SlotEntry SequenceRecord)][id.slot.toNat - b.slots.length]? with
      | none => rfl
      | some s =>
        rw [List.mem_singleton.1 (List.mem_of_getElem? hs)]
        exact ite_self _

theorem nextSlotIndex_ok {len : Nat} {i : UInt32} (h : nextSlotIndex len = .ok i) : i.toNat = len ∧ i ≠ holderSlot := by
  unfold nextSlotIndex at h
  split_ifs at h with hlt
  have hlen : len < 4294967295 := hlt
  have hi : UInt32.ofNat len = i := Except.ok.inj h
  have hsize : UInt32.size = 4294967296 := rfl
  have hnat : i.toNat = len := by rw [← hi, UInt32.toNat_ofNat_of_lt' (by omega)]
  refine ⟨hnat, ?_⟩
  rintro rfl
  exact absurd hnat (Nat.ne_of_gt hlt)

theorem allocateFrom_ends : ∀ (free : List UInt32) (a : SequenceArena), a.WF → a.freeSlots = free →
    (allocateFrom free a).Ends False (fun id a' => Handed a.toSlots a'.toSlots id)
      (fun _ a' => Idle a.toSlots a'.toSlots)
  | [], a, h, hf => by
    unfold allocateFrom
    rw [ends_bind, ends_get]
    cases hidx : nextSlotIndex a.slots.length with
    | error e => exact Idle.refl h
    | ok slotIdx =>
      show Handed a.toSlots { slots := a.slots ++ [.fresh], freeSlots := a.freeSlots } ⟨slotIdx, 1⟩
      have hlen : slotIdx.toNat = a.slots.length := (nextSlotIndex_ok hidx).1
      have hidle := idle_push h a.freeSlots h.nodup fun i hi => .inl hi
      have hpos : (1 : UInt32) ≠ 0 := by decide
      refine { toIdle := hidle, positive := hpos, unlisted := ?_, entry := ⟨.fresh, ?_, rfl, rfl, rfl⟩ }
      · rw [hf]
        exact List.not_mem_nil
      · show (a.slots ++ [SlotEntry.fresh])[slotIdx.toNat]? = _
        rw [hlen, List.getElem?_concat_length]
  | slotIdx :: rest, a, h, hf => by
    have hpop : Idle a.toSlots { a.toSlots with freeSlots := rest } := ⟨h.pop hf, .refl _, fun _ => rfl⟩
    obtain ⟨s, hs, hr⟩ := h.free slotIdx (by rw [hf]; exact List.mem_cons_self)
    have hnodup := h.nodup
    rw [hf, List.nodup_cons] at hnodup
    unfold allocateFrom
    rw [ends_bind, ends_modify, ends_bind, ends_get, ends_bind]
    show Outcome.Ends False _ _ (unwrap a.slots[slotIdx.toNat]? { a with freeSlots := rest })
    rw [hs, ends_unwrap_some]
    by_cases hret : s.retired = true
    · rw [if_pos hret]
      refine (allocateFrom_ends rest { a with freeSlots := rest } hpop.wf rfl).mono ?_ ?_
      · exact fun id a' hh => { hh with toIdle := hpop.trans hh.toIdle }
      · exact fun _ a' hh => hpop.trans hh
    · have hpos : s.generation ≠ 0 := h.positive _ _ hs
      rw [if_neg hret, if_neg hpos, ends_pure]
      exact { hpop with
        positive := hpos
        unlisted := hnodup.1
        entry := ⟨s, hs, rfl, Bool.not_eq_true _ ▸ hret, hr⟩ }

theorem allocateSlot_ends (h : a.WF) : (allocateSlot a).Ends False
    (fun id a' => Handed a.toSlots a'.toSlots id) (fun _ a' => Idle a.toSlots a'.toSlots) := by
  unfold allocateSlot
  rw [ends_bind, ends_get]
  exact allocateFrom_ends a.freeSlots a h rfl

theorem get_congr {b : SequenceArena} (h : ∀ id, a'.toSlots.get id = b.toSlots.get id) (id : SequenceId) :
    a'.get id = b.get id := by
  unfold get
  rw [h]

theorem Idle.stays (h : Idle a.toSlots a'.toSlots) : Stays a a' :=
  ⟨h.wf, h.onward, fun id _ hr => (get_congr h.gets id).trans hr⟩

/-- A slot at the generation of `id` that holds no record and is not retired gets one. -/
theorem inserted_of_entry {b : SequenceArena} {r : SequenceRecord} {s : SlotEntry SequenceRecord}
    (hidle : Idle b.toSlots a.toSlots) (hpos : id.generation ≠ 0) (hfree : id.slot ∉ a.freeSlots)
    (hs : a.slots[id.slot.toNat]? = some s) (hgen : s.generation ≤ id.generation) (hret : s.retired = false)
    (hr : s.record = none) (rc : Nat) :
    Inserted b { toSlots := a.toSlots.setEntry id.slot ⟨id.generation, false, some r⟩, retiredSlotsCount := rc } id r := by
  have hnone : a.toSlots.get id = none := by
    unfold Slots.get
    rw [hs]
    show (if s.generation = id.generation then s.record else none) = none
    rw [hr, ite_self]
  refine ⟨hidle.wf.setEntry hs (fun hf => absurd hf hfree) hpos, ?_, ?_, ?_, ?_, ?_⟩
  · refine hidle.onward.trans (Slots.Onward.setEntry hs ?_)
    rcases UInt32.lt_or_eq_of_le hgen with hlt | heq
    · exact .inl hlt
    · exact .inr ⟨heq, fun hret' => absurd (hret.symm.trans hret') (by decide)⟩
  · rw [get_eq hpos, ← hidle.gets id, hnone]
  · intro hdead
    obtain ⟨t, ht, hd⟩ := hdead.onward hidle.onward
    rw [hs] at ht
    rw [← Option.some.inj ht, hret] at hd
    rcases hd with hlt | ⟨-, hf, -⟩
    · exact absurd (UInt32.lt_of_lt_of_le hlt hgen) (UInt32.lt_irrefl _)
    · exact absurd hf (by decide)
  · rw [get_eq hpos]
    exact (Slots.get_setEntry_self hs).trans (if_pos rfl)
  · intro id' hne
    rw [← get_congr hidle.gets]
    unfold get
    split_ifs with hzero
    · rfl
    · show (a.toSlots.setEntry id.slot _).get id' = _
      by_cases hslot : id'.slot = id.slot
      · have hgen' : id.generation ≠ id'.generation := by
          intro hgen'
          apply hne
          cases id
          cases id'
          simp_all
        unfold Slots.get
        rw [Slots.getElem?_setEntry hs, hslot, if_pos rfl, hs]
        show (if id.generation = id'.generation then some r else none) =
          if s.generation = id'.generation then s.record else none
        rw [if_neg hgen', hr, ite_self]
      · exact Slots.get_setEntry_of_ne hs hslot

theorem Handed.setRecord {b : SequenceArena} (h : Handed b.toSlots a.toSlots id) (r : SequenceRecord) :
    (setRecord id.slot r a).Ends False (fun _ a' => Inserted b a' id r) (fun _ _ => False) := by
  obtain ⟨s, hs, hg, hret, hr⟩ := h.entry
  unfold SequenceArena.setRecord
  rw [ends_bind, ends_get, ends_bind, hs, ends_unwrap_some, ends_set]
  have hentry : { s with record := some r } = (⟨id.generation, false, some r⟩ : SlotEntry SequenceRecord) := by
    rw [← hg, ← hret]
  rw [hentry]
  exact inserted_of_entry h.toIdle h.positive h.unlisted hs (UInt32.le_of_eq hg) hret hr _

theorem insertWith_ends (h : a.WF) : (insertWith params a).Ends False
    (fun id a' => Inserted a a' id (.new id params)) (fun _ a' => Idle a.toSlots a'.toSlots) := by
  unfold insertWith
  rw [ends_bind]
  refine (allocateSlot_ends h).mono (fun id a' hh => ?_) fun _ _ hh => hh
  rw [ends_bind]
  exact (hh.setRecord (.new id params)).mono (fun _ a'' hs => hs) fun _ _ hf => hf.elim

theorem fork_ends {sinkId : Option CompletionSinkId} (h : a.WF) : (fork id sinkId a).Ends False
    (fun childId a' => ∃ parent, a.get id = some parent ∧ Inserted a a' childId (forkRecord parent id childId sinkId))
    (fun _ a' => Idle a.toSlots a'.toSlots) := by
  unfold fork
  rw [ends_bind, ends_get, ends_bind]
  cases hp : a.get id with
  | none => exact Idle.refl h
  | some parent =>
    rw [ends_orFail_some, ends_bind]
    refine (allocateSlot_ends h).mono (fun childId a' hh => ?_) fun _ _ hh => hh
    rw [ends_bind]
    exact (hh.setRecord (forkRecord parent id childId sinkId)).mono (fun _ a'' hs => ⟨parent, rfl, hs⟩)
      fun _ _ hf => hf.elim

theorem Inserted.stays {r : SequenceRecord} (h : Inserted a a' id r) : Stays a a' where
  wf := h.wf
  onward := h.onward
  saves := by
    intro id' r' hr
    have hne : id' ≠ id := by
      rintro rfl
      rw [h.absent] at hr
      cases hr
    rw [h.others id' hne, hr]

theorem freeSequence_spec (a : SequenceArena) (id : SequenceId) : (a.freeSequence id = (false, a) ∧ a.get id = none) ∨
    ∃ s r, id.generation ≠ 0 ∧ a.slots[id.slot.toNat]? = some s ∧ s.generation = id.generation ∧ s.record = some r ∧
      (a.freeSequence id).1 = true ∧ (a.freeSequence id).2.toSlots = a.toSlots.vacate id s := by
  unfold freeSequence get
  split_ifs with hg
  · exact .inl ⟨rfl, rfl⟩
  · cases hs : a.slots[id.slot.toNat]? with
    | none => exact .inl ⟨rfl, by unfold Slots.get; rw [hs]; rfl⟩
    | some s =>
      by_cases hbad : s.generation ≠ id.generation ∨ s.record.isNone
      · refine .inl ⟨if_pos hbad, ?_⟩
        unfold Slots.get
        rw [hs]
        show (if s.generation = id.generation then s.record else none) = none
        split_ifs with hgen
        · exact Option.isNone_iff_eq_none.1 (hbad.resolve_left (not_not.2 hgen))
        · rfl
      · rw [not_or, not_not] at hbad
        obtain ⟨r, hr⟩ : ∃ r, s.record = some r := by
          cases hr : s.record with
          | none => exact absurd (by rw [hr]; rfl) hbad.2
          | some r => exact ⟨r, rfl⟩
        refine .inr ⟨s, r, hg, rfl, hbad.1, hr, ?_, ?_⟩
        · show (if s.generation ≠ id.generation ∨ s.record.isNone = true then _ else _ : Bool × SequenceArena).1 = true
          rw [if_neg (by simp [hbad.1, hr])]
        · show (if s.generation ≠ id.generation ∨ s.record.isNone = true then _ else _ : Bool × SequenceArena).2.toSlots = _
          rw [if_neg (by simp [hbad.1, hr])]

theorem freeSequence_wf (h : a.WF) : (a.freeSequence id).2.WF := by
  rcases freeSequence_spec a id with ⟨hfree, -⟩ | ⟨s, r, -, hs, -, hr, -, hfree⟩
  · rw [hfree]
    exact h
  · rw [hfree]
    exact h.vacate hs hr

theorem onward_freeSequence : a.toSlots.Onward (a.freeSequence id).2.toSlots := by
  rcases freeSequence_spec a id with ⟨hfree, -⟩ | ⟨s, r, -, hs, -, -, -, hfree⟩
  · rw [hfree]
    exact .refl _
  · rw [hfree]
    exact .vacate hs

theorem get_freeSequence_self : (a.freeSequence id).2.get id = none := by
  rcases freeSequence_spec a id with ⟨hfree, hnone⟩ | ⟨s, r, hg, hs, -, -, -, hfree⟩
  · rw [hfree]
    exact hnone
  · rw [get_eq hg, hfree, Slots.get_vacate hs, if_pos rfl]

theorem get_freeSequence_of_ne {id' : SequenceId} (hne : id' ≠ id) : (a.freeSequence id).2.get id' = a.get id' := by
  rcases freeSequence_spec a id with ⟨hfree, -⟩ | ⟨s, r, hg, hs, hgen, hr, -, hfree⟩
  · rw [hfree]
  · unfold get
    rw [hfree, Slots.get_vacate hs]
    split_ifs with hzero hslot
    · rfl
    · -- Another generation of the slot had no record before either.
      unfold Slots.get
      rw [hslot, hs]
      have hgen' : s.generation ≠ id'.generation := by
        intro hgen'
        apply hne
        cases id
        cases id'
        simp_all
      exact (if_neg hgen').symm
    · rfl

theorem freeSequence_dead (h : (a.get id).isSome) : (a.freeSequence id).2.toSlots.Dead id := by
  rcases freeSequence_spec a id with ⟨-, hnone⟩ | ⟨s, r, -, hs, hgen, -, -, hfree⟩
  · rw [hnone] at h
    cases h
  · rw [hfree]
    exact .vacate hs hgen

theorem freeSequence_true : (a.freeSequence id).1 = (a.get id).isSome := by
  rcases freeSequence_spec a id with ⟨hfree, hnone⟩ | ⟨s, r, hg, hs, hgen, hr, htrue, -⟩
  · rw [hfree, hnone]
    rfl
  · rw [htrue, get_eq hg, Slots.get_eq_some.2 ⟨s, hs, hgen, hr⟩]
    rfl

/-! ## Explicit ids -/

theorem grow_slots : ∀ (count : Nat) (a : SequenceArena),
    (grow count a).slots = a.slots ++ List.replicate count .fresh
  | 0, _ => (List.append_nil _).symm
  | count + 1, a => by
    unfold grow
    rw [grow_slots count]
    show (a.slots ++ [SlotEntry.fresh]) ++ List.replicate count SlotEntry.fresh = _
    rw [List.append_assoc, List.replicate_succ]
    rfl

theorem grow_stays : ∀ (count : Nat) (a : SequenceArena), a.WF → a.slots.length + count ≤ 2 ^ 32 →
    Idle a.toSlots (grow count a).toSlots
  | 0, _, h, _ => .refl h
  | count + 1, a, h, hlen => by
    have hsize : UInt32.size = 4294967296 := rfl
    have hidx : (UInt32.ofNat a.slots.length).toNat = a.slots.length := UInt32.toNat_ofNat_of_lt' (by omega)
    have hnew : UInt32.ofNat a.slots.length ∉ a.freeSlots := by
      intro hm
      obtain ⟨s, hs, -⟩ := h.free _ hm
      rw [hidx] at hs
      exact absurd (List.getElem?_eq_some_iff.1 hs).1 (Nat.lt_irrefl _)
    have hpush := idle_push h (UInt32.ofNat a.slots.length :: a.freeSlots) (List.nodup_cons.2 ⟨hnew, h.nodup⟩) (by
      intro i hi
      rcases List.mem_cons.1 hi with rfl | hi
      · exact .inr hidx
      · exact .inl hi)
    refine hpush.trans (grow_stays count { a with
      slots := a.slots ++ [.fresh], freeSlots := UInt32.ofNat a.slots.length :: a.freeSlots } hpush.wf ?_)
    have hlen' : (a.slots ++ [SlotEntry.fresh]).length = a.slots.length + 1 := List.length_append
    show (a.slots ++ [SlotEntry.fresh]).length + count ≤ 2 ^ 32
    omega

theorem nodup_unlist {free : List UInt32} (h : free.Nodup) : (unlist slotIdx free).Nodup :=
  List.nodup_reverse.2 ((List.nodup_reverse.2 h).erase slotIdx)

theorem mem_unlist {free : List UInt32} (h : free.Nodup) {i : UInt32} :
    i ∈ unlist slotIdx free ↔ i ≠ slotIdx ∧ i ∈ free := by
  unfold unlist
  rw [List.mem_reverse, (List.nodup_reverse.2 h).mem_erase_iff, List.mem_reverse]

/-- An explicit id names a slot without a record, not retired, whose generation has not passed it. -/
def admits (a : SequenceArena) (id : SequenceId) : Bool :=
  match a.slots[id.slot.toNat]? with
  | none => true
  | some s => s.record.isNone && !s.retired && decide (s.generation ≤ id.generation)

/-- The slots an explicit insert works on: grown to hold the slot, which is no longer listed as free. -/
theorem explicit_idle (id : SequenceId) (h : a.WF) {b : SequenceArena}
    (hb : b = { grow (id.slot.toNat + 1 - a.slots.length) a with
      freeSlots := unlist id.slot (grow (id.slot.toNat + 1 - a.slots.length) a).freeSlots }) :
    Idle a.toSlots b.toSlots ∧ id.slot ∉ b.freeSlots ∧
      b.slots[id.slot.toNat]? = some ((a.slots[id.slot.toNat]?).getD .fresh) := by
  have hlt : id.slot.toNat < 2 ^ 32 := id.slot.toNat_lt
  have hgrow : Idle a.toSlots (grow (id.slot.toNat + 1 - a.slots.length) a).toSlots := by
    by_cases hle : a.slots.length ≤ id.slot.toNat + 1
    · exact grow_stays _ _ h (by omega)
    · have h0 : id.slot.toNat + 1 - a.slots.length = 0 := by omega
      rw [h0]
      exact .refl h
  refine hb ▸ ⟨hgrow.trans ⟨⟨nodup_unlist hgrow.wf.nodup, fun i hi => ?_, hgrow.wf.positive⟩, .refl _, fun _ => rfl⟩,
    fun hm => ((mem_unlist hgrow.wf.nodup).1 hm).1 rfl, ?_⟩
  · exact hgrow.wf.free i ((mem_unlist hgrow.wf.nodup).1 hi).2
  · show (grow (id.slot.toNat + 1 - a.slots.length) a).slots[id.slot.toNat]? = _
    rw [grow_slots]
    by_cases hold : id.slot.toNat < a.slots.length
    · rw [List.getElem?_append_left hold, List.getElem?_eq_getElem hold]
      rfl
    · rw [List.getElem?_append_right (by omega), List.getElem?_replicate, if_pos (by omega),
        List.getElem?_eq_none (by omega)]
      rfl

/-- An explicit insert that is admitted finds an empty slot, old enough. -/
theorem insertWithId_ends (h : a.WF) (hfit : a.admits id = true) : (insertWithId id params a).Ends False
    (fun id' a' => id' = id ∧ Inserted a a' id (.new id params)) (fun _ a' => a' = a) := by
  unfold insertWithId
  split_ifs with hg hslot
  · exact rfl
  · exact rfl
  · rw [ends_bind, ends_modify, ends_bind, ends_modify, ends_bind, ends_get, ends_bind]
    obtain ⟨hidle, hfree, hs⟩ := explicit_idle id h rfl
    rw [hs, ends_unwrap_some, ends_bind, ends_set, ends_pure]
    refine ⟨rfl, ?_⟩
    -- The slot is an old one that is admitted, or one that was just made.
    obtain ⟨hr, hret, hgen⟩ : ((a.slots[id.slot.toNat]?).getD .fresh).record = none ∧
        ((a.slots[id.slot.toNat]?).getD .fresh).retired = false ∧
        ((a.slots[id.slot.toNat]?).getD .fresh).generation ≤ id.generation := by
      unfold admits at hfit
      cases hold : a.slots[id.slot.toNat]? with
      | none =>
        refine ⟨rfl, rfl, ?_⟩
        have hne : id.generation.toNat ≠ 0 := fun h0 => hg (UInt32.toNat_inj.1 h0)
        show (1 : UInt32) ≤ id.generation
        rw [UInt32.le_iff_toNat_le]
        show 1 ≤ id.generation.toNat
        omega
      | some s =>
        rw [hold] at hfit
        simp only [Bool.and_eq_true, Option.isNone_iff_eq_none, Bool.not_eq_true', decide_eq_true_eq] at hfit
        exact ⟨hfit.1.1, hfit.1.2, hfit.2⟩
    exact inserted_of_entry hidle hg hfree hs hgen hret hr _

/-- Any explicit insert keeps the slots in order and gives the id its record. -/
theorem insertWithId_over (h : a.WF) : (insertWithId id params a).Ends False
    (fun id' a' => id' = id ∧ a'.WF ∧ a'.get id = some (.new id params)) (fun _ a' => a' = a) := by
  unfold insertWithId
  split_ifs with hg hslot
  · exact rfl
  · exact rfl
  · rw [ends_bind, ends_modify, ends_bind, ends_modify, ends_bind, ends_get, ends_bind]
    obtain ⟨hidle, hfree, hs⟩ := explicit_idle id h rfl
    rw [hs, ends_unwrap_some, ends_bind, ends_set, ends_pure]
    refine ⟨rfl, hidle.wf.setEntry hs (fun hf => absurd hf hfree) hg, ?_⟩
    rw [get_eq hg]
    exact (Slots.get_setEntry_self hs).trans (if_pos rfl)

end SequenceArena

/-! ## Runs -/

/-- An operation on the arena. -/
inductive ArenaOp where
  | allocateSlot
  | insertWith (params : SequenceParams)
  | insertWithId (seqId : SequenceId) (params : SequenceParams)
  | fork (parentId : SequenceId) (sinkId : Option CompletionSinkId)
  | freeSequence (id : SequenceId)
  deriving DecidableEq

namespace SequenceArena

variable {a a' : SequenceArena} {id : SequenceId}

/-- The arena after an operation, whether it was accepted or refused. -/
def step (a : SequenceArena) : ArenaOp → Option SequenceArena
  | .allocateSlot => (allocateSlot a).state?
  | .insertWith params => (insertWith params a).state?
  | .insertWithId seqId params => (insertWithId seqId params a).state?
  | .fork parentId sinkId => (fork parentId sinkId a).state?
  | .freeSequence id => some (a.freeSequence id).2

def run (a : SequenceArena) (ops : List ArenaOp) : Option SequenceArena := ops.foldlM step a

def fits (a : SequenceArena) : ArenaOp → Bool
  | .insertWithId seqId _ => a.admits seqId
  | _ => true

def allFit : SequenceArena → List ArenaOp → Prop
  | _, [] => True
  | a, op :: ops => a.fits op = true ∧ ∀ a', a.step op = some a' → allFit a' ops

/-- The arenas a program starts with. A capacity past the slot numbers does not fit in memory. -/
inductive Start : SequenceArena → Prop
  | new : Start .new
  | withCapacity (capacity : Nat) (h : capacity ≤ 2 ^ 32) : Start (.withCapacity capacity)

theorem Start.wf (h : Start a) : a.WF := by
  cases h with
  | new => exact ⟨List.nodup_nil, nofun, fun _ _ hs => nomatch hs⟩
  | withCapacity capacity hc =>
    have hsize : UInt32.size = 4294967296 := rfl
    refine ⟨?_, ?_, ?_⟩
    · refine List.Nodup.map_on ?_ List.nodup_range
      intro x hx y hy hxy
      have hx := List.mem_range.1 hx
      have hy := List.mem_range.1 hy
      have hn := congrArg UInt32.toNat hxy
      rwa [UInt32.toNat_ofNat_of_lt' (by omega), UInt32.toNat_ofNat_of_lt' (by omega)] at hn
    · intro i hi
      obtain ⟨j, hj, rfl⟩ := List.mem_map.1 hi
      have hj := List.mem_range.1 hj
      refine ⟨.fresh, ?_, rfl⟩
      show (List.replicate capacity SlotEntry.fresh)[_]? = _
      rw [UInt32.toNat_ofNat_of_lt' (by omega), List.getElem?_replicate, if_pos hj]
    · intro j s hs
      rw [List.eq_of_mem_replicate (List.mem_of_getElem? hs)]
      decide

/-- What a fitting operation does. -/
structure Steps (a : SequenceArena) (op : ArenaOp) (a' : SequenceArena) : Prop where
  wf : a'.WF
  onward : a.toSlots.Onward a'.toSlots
  saves : ∀ id r, a.get id = some r → op ≠ .freeSequence id → a'.get id = some r

theorem Stays.steps {op : ArenaOp} (h : Stays a a') : Steps a op a' where
  wf := h.wf
  onward := h.onward
  saves := fun id r hr _ => h.saves id r hr

theorem steps_of_ends {α : Type} {op : ArenaOp} {o : Outcome String SequenceArena α}
    (h : o.Ends False (fun _ a' => Stays a a') (fun _ a' => Stays a a')) :
    ∃ a', o.state? = some a' ∧ Steps a op a' := by
  cases o with
  | ok x a' => exact ⟨a', rfl, Stays.steps h⟩
  | err e a' => exact ⟨a', rfl, Stays.steps h⟩
  | panic => exact h.elim

/-- **One operation** that fits does not panic, lets no generation go back and loses only what it frees. -/
theorem step_spec (h : a.WF) (op : ArenaOp) (hfit : a.fits op = true) : ∃ a', a.step op = some a' ∧ Steps a op a' := by
  cases op with
  | allocateSlot =>
    exact steps_of_ends ((allocateSlot_ends h).mono (fun _ _ hh => hh.toIdle.stays) fun _ _ hh => hh.stays)
  | insertWith params => exact steps_of_ends ((insertWith_ends h).mono (fun _ _ hh => hh.stays) fun _ _ hh => hh.stays)
  | insertWithId seqId params =>
    refine steps_of_ends ((insertWithId_ends h hfit).mono (fun _ _ hh => hh.2.stays) fun _ a' hh => ?_)
    rw [hh]
    exact (Idle.refl h).stays
  | fork parentId sinkId =>
    refine steps_of_ends ((fork_ends h).mono (fun _ _ hh => ?_) fun _ _ hh => hh.stays)
    obtain ⟨_, _, hh⟩ := hh
    exact hh.stays
  | freeSequence id =>
    refine ⟨_, rfl, freeSequence_wf h, onward_freeSequence, ?_⟩
    intro id' r' hr' hne
    rw [get_freeSequence_of_ne (fun hid => hne (by rw [hid])), hr']

theorem run_cons {op : ArenaOp} {ops : List ArenaOp} : a.run (op :: ops) = (a.step op).bind fun a' => a'.run ops :=
  List.foldlM_cons

theorem run_append {ops ops' : List ArenaOp} : a.run (ops ++ ops') = (a.run ops).bind fun a' => a'.run ops' :=
  List.foldlM_append

/-- **A run** of fitting operations reaches an arena; no generation went back on the way. -/
theorem run_spec : ∀ (ops : List ArenaOp) (a : SequenceArena), a.WF → allFit a ops →
    ∃ a', a.run ops = some a' ∧ a'.WF ∧ a.toSlots.Onward a'.toSlots
  | [], a, h, _ => ⟨a, rfl, h, .refl _⟩
  | op :: ops, a, h, hfit => by
    obtain ⟨b, hb, hsteps⟩ := step_spec h op hfit.1
    obtain ⟨c, hc, hwf, hon⟩ := run_spec ops b hsteps.wf (hfit.2 b hb)
    exact ⟨c, by rw [run_cons, hb]; exact hc, hwf, hsteps.onward.trans hon⟩

theorem allFit_append : ∀ (ops : List ArenaOp) {ops' : List ArenaOp} {a b : SequenceArena},
    allFit a (ops ++ ops') → a.run ops = some b → allFit b ops'
  | [], _, _, _, h, hb => Option.some.inj hb ▸ h
  | op :: ops, _, a, b, h, hb => by
    rw [run_cons] at hb
    obtain ⟨c, hc, hb⟩ := Option.bind_eq_some_iff.1 hb
    exact allFit_append ops (h.2 c hc) hb

theorem allFit_take : ∀ (ops : List ArenaOp) {ops' : List ArenaOp} {a : SequenceArena},
    allFit a (ops ++ ops') → allFit a ops
  | [], _, _, _ => trivial
  | _ :: ops, _, _, h => ⟨h.1, fun b hb => allFit_take ops (h.2 b hb)⟩

theorem get_of_dead (h : a.toSlots.Dead id) : a.get id = none := by
  unfold get
  rw [h.get, ite_self]

/-- **Generation safety.** In every run whose explicit ids are admitted, an id that was freed is stale in every later
arena, and every operation but its own free keeps a live record. -/
theorem freed_ids_stay_stale (a₀ : SequenceArena) (h₀ : Start a₀) (ops : List ArenaOp) (hfit : allFit a₀ ops) :
    ∃ a, a₀.run ops = some a ∧
      (∀ before id after a₁, ops = before ++ .freeSequence id :: after → a₀.run before = some a₁ →
        (a₁.freeSequence id).1 = true → a.isStale id = true ∧ a.get id = none) ∧
      ∀ before op after a₁ a₂ id r, ops = before ++ op :: after → a₀.run before = some a₁ → a₁.step op = some a₂ →
        a₁.get id = some r → op ≠ .freeSequence id → a₂.get id = some r := by
  obtain ⟨a, ha, -, -⟩ := run_spec ops a₀ h₀.wf hfit
  refine ⟨a, ha, ?_, ?_⟩
  · rintro before id after a₁ rfl ha₁ hfreed
    have hfit₁ : allFit a₁ (.freeSequence id :: after) := allFit_append before hfit ha₁
    obtain ⟨b₁, hb₁, hwf₁, -⟩ := run_spec before a₀ h₀.wf (allFit_take before hfit)
    rw [ha₁] at hb₁
    obtain rfl := Option.some.inj hb₁
    obtain ⟨a₂, ha₂, hsteps⟩ := step_spec hwf₁ (.freeSequence id) rfl
    obtain ⟨b, hb, -, hon⟩ := run_spec after a₂ hsteps.wf (hfit₁.2 a₂ ha₂)
    have hab : a = b := by
      rw [run_append, ha₁] at ha
      change a₁.run (.freeSequence id :: after) = some a at ha
      rw [run_cons, ha₂] at ha
      exact Option.some.inj (ha.symm.trans hb)
    have hdead : a.toSlots.Dead id := by
      rw [hab]
      exact (Option.some.inj ha₂ ▸ freeSequence_dead (freeSequence_true.symm.trans hfreed) : a₂.toSlots.Dead id).onward hon
    have hget := get_of_dead hdead
    exact ⟨by rw [isStale_eq, hget]; rfl, hget⟩
  · rintro before op after a₁ a₂ id r rfl ha₁ ha₂ hr hne
    have hfit₁ : allFit a₁ (op :: after) := allFit_append before hfit ha₁
    obtain ⟨b₁, hb₁, hwf₁, -⟩ := run_spec before a₀ h₀.wf (allFit_take before hfit)
    rw [ha₁] at hb₁
    obtain rfl := Option.some.inj hb₁
    obtain ⟨b₂, hb₂, hsteps⟩ := step_spec hwf₁ op hfit₁.1
    rw [ha₂] at hb₂
    obtain rfl := Option.some.inj hb₂
    exact hsteps.saves id r hr hne

def sampleParams : SequenceParams where
  prompt := [1, 2, 3]
  model := 0
  kv := 0
  priority := .normal
  deadline := none
  branchParent := none
  nextTokenBudget := 10
  samplingParams := .default
  sinkId := none

/-- An insert, a free, and an insert of the next generation by its id. -/
def sampleOps : List ArenaOp :=
  [.insertWith sampleParams, .freeSequence ⟨0, 1⟩, .insertWithId ⟨0, 2⟩ sampleParams]

theorem freed_ids_stay_stale_sample : ∃ a, SequenceArena.new.run sampleOps = some a ∧ a.isStale ⟨0, 1⟩ = true := by
  have hfit : allFit .new sampleOps := by
    refine ⟨rfl, fun a₁ h₁ => ⟨rfl, fun a₂ h₂ => ⟨?_, fun _ _ => trivial⟩⟩⟩
    obtain rfl := Option.some.inj h₁
    obtain rfl := Option.some.inj h₂
    decide
  obtain ⟨a, ha, hstale, -⟩ := freed_ids_stay_stale .new .new sampleOps hfit
  exact ⟨a, ha, (hstale [.insertWith sampleParams] ⟨0, 1⟩ [.insertWithId ⟨0, 2⟩ sampleParams] _ rfl rfl
    (by decide)).1⟩

/-- An explicit insert of a freed id brings it back, and one of a live id replaces its record. -/
theorem explicit_id_comes_back :
    (∃ a₁ a, SequenceArena.new.run [.insertWith sampleParams] = some a₁ ∧ (a₁.freeSequence ⟨0, 1⟩).1 = true ∧
      SequenceArena.new.run [.insertWith sampleParams, .freeSequence ⟨0, 1⟩, .insertWithId ⟨0, 1⟩ sampleParams] =
        some a ∧ a.isStale ⟨0, 1⟩ = false) ∧
    ∃ a₁ a, SequenceArena.new.run [.insertWith sampleParams] = some a₁ ∧
      a₁.get ⟨0, 1⟩ = some (.new ⟨0, 1⟩ sampleParams) ∧
      a₁.step (.insertWithId ⟨0, 2⟩ sampleParams) = some a ∧ a.get ⟨0, 1⟩ = none :=
  ⟨⟨_, _, rfl, by decide, rfl, by decide⟩, _, _, rfl, by decide, rfl, by decide⟩

end SequenceArena

end SovereignCore.Sched
