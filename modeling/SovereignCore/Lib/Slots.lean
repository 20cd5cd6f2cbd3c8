import Mathlib.Data.List.Nodup
import Mathlib.Tactic.NormNum

/-!
# Generational slots

An array of slots whose entries carry a generation. An id names a slot at one generation, so an id of a freed slot
goes stale and stays stale while generations only grow; a slot that has used up its generations is retired.

* `SlotId` : slot and generation, with the 64-bit form `toU64` and its inverse `ofU64`;
* `Slots ρ` : the entries and the stack of free slots; `get`, `put`, `modify`, `vacate`;
* `Slots.WF` : a free slot is listed once and holds no record;
* `Slots.Dead` : the id can not come back; `Onward`, `Dead.onward` : it does not, as long as no entry goes back.
-/

namespace SovereignCore

/-- A slot index and a generation. -/
structure SlotId where
  slot : UInt32
  generation : UInt32
  deriving DecidableEq, Repr

namespace SlotId

def toU64 (id : SlotId) : UInt64 := (id.slot.toUInt64 <<< 32) ||| id.generation.toUInt64

def ofU64 (val : UInt64) : SlotId where
  slot := (val >>> 32).toUInt32
  generation := (val &&& 0xFFFFFFFF).toUInt32

theorem toNat_toU64 (id : SlotId) : id.toU64.toNat = id.slot.toNat * 2 ^ 32 + id.generation.toNat := by
  have hs : id.slot.toNat < 2 ^ 32 := id.slot.toNat_lt
  have hg : id.generation.toNat < 2 ^ 32 := id.generation.toNat_lt
  have hsmall : id.slot.toNat <<< 32 % 2 ^ 64 = id.slot.toNat <<< 32 := by
    rw [Nat.shiftLeft_eq]
    exact Nat.mod_eq_of_lt (by omega)
  unfold toU64
  rw [UInt64.toNat_or, UInt64.toNat_shiftLeft, UInt32.toNat_toUInt64, UInt32.toNat_toUInt64]
  show id.slot.toNat <<< 32 % 2 ^ 64 ||| id.generation.toNat = _
  rw [hsmall, ← Nat.shiftLeft_add_eq_or_of_lt hg, Nat.shiftLeft_eq]

@[simp] theorem ofU64_toU64 (id : SlotId) : ofU64 id.toU64 = id := by
  have hs : id.slot.toNat < 2 ^ 32 := id.slot.toNat_lt
  have hg : id.generation.toNat < 2 ^ 32 := id.generation.toNat_lt
  have hn := id.toNat_toU64
  have hslot : (id.toU64 >>> 32).toUInt32 = id.slot := by
    apply UInt32.toNat_inj.1
    rw [UInt64.toNat_toUInt32, UInt64.toNat_shiftRight, hn]
    show (id.slot.toNat * 2 ^ 32 + id.generation.toNat) >>> 32 % 2 ^ 32 = _
    rw [Nat.shiftRight_eq_div_pow]
    omega
  have hgen : (id.toU64 &&& 0xFFFFFFFF).toUInt32 = id.generation := by
    apply UInt32.toNat_inj.1
    rw [UInt64.toNat_toUInt32, UInt64.toNat_and, hn, show (0xFFFFFFFF : UInt64).toNat = 2 ^ 32 - 1 from rfl,
      Nat.and_two_pow_sub_one_eq_mod]
    omega
  show (⟨_, _⟩ : SlotId) = id
  rw [hslot, hgen]

@[simp] theorem toU64_ofU64 (val : UInt64) : (ofU64 val).toU64 = val := by
  have hlt : val.toNat < 2 ^ 64 := val.toNat_lt
  apply UInt64.toNat_inj.1
  rw [toNat_toU64]
  show (val >>> 32).toUInt32.toNat * 2 ^ 32 + (val &&& 0xFFFFFFFF).toUInt32.toNat = _
  rw [UInt64.toNat_toUInt32, UInt64.toNat_shiftRight, UInt64.toNat_toUInt32, UInt64.toNat_and,
    show (0xFFFFFFFF : UInt64).toNat = 2 ^ 32 - 1 from rfl, Nat.and_two_pow_sub_one_eq_mod]
  show (val.toNat >>> 32) % 2 ^ 32 * 2 ^ 32 + val.toNat % 2 ^ 32 % 2 ^ 32 = _
  rw [Nat.shiftRight_eq_div_pow]
  omega

@[simp] theorem toU64_inj {a b : SlotId} : a.toU64 = b.toU64 ↔ a = b :=
  ⟨fun h => by rw [← ofU64_toU64 a, h, ofU64_toU64], fun h => h ▸ rfl⟩

end SlotId

/-- One slot. -/
structure SlotEntry (ρ : Type) where
  generation : UInt32
  retired : Bool
  record : Option ρ

def SlotEntry.fresh {ρ : Type} : SlotEntry ρ where
  generation := 1
  retired := false
  record := none

/-- The slots and the stack of free ones, its top first. -/
structure Slots (ρ : Type) where
  slots : List (SlotEntry ρ)
  freeSlots : List UInt32

namespace Slots
variable {ρ : Type}

/-- The record of `id`, if the slot holds one at this generation. -/
def get (a : Slots ρ) (id : SlotId) : Option ρ :=
  (a.slots[id.slot.toNat]?).bind fun s => if s.generation = id.generation then s.record else none

/-- `slots[i] = s` -/
def setEntry (a : Slots ρ) (i : UInt32) (s : SlotEntry ρ) : Slots ρ := { a with slots := a.slots.set i.toNat s }

/-- A change of the record of `id`; a stale id changes nothing. -/
def modify (a : Slots ρ) (id : SlotId) (f : ρ → ρ) : Slots ρ :=
  match a.slots[id.slot.toNat]? with
  | none => a
  | some s => if s.generation = id.generation then a.setEntry id.slot { s with record := s.record.map f } else a

/-- The slot of a freed `id`: the next generation, free to be used again, or retired after the last generation. -/
def vacate (a : Slots ρ) (id : SlotId) (s : SlotEntry ρ) : Slots ρ :=
  if s.generation = 0xFFFFFFFF then a.setEntry id.slot { s with record := none, retired := true }
  else
    { a.setEntry id.slot { s with record := none, generation := s.generation + 1 } with
      freeSlots := id.slot :: a.freeSlots }

variable {a a' a'' : Slots ρ} {id id' : SlotId} {s s' s'' : SlotEntry ρ} {i : UInt32} {r : ρ} {f : ρ → ρ}

theorem get_eq_some : a.get id = some r ↔
    ∃ s, a.slots[id.slot.toNat]? = some s ∧ s.generation = id.generation ∧ s.record = some r := by
  unfold get
  rw [Option.bind_eq_some_iff]
  constructor
  · rintro ⟨s, hs, hr⟩
    split_ifs at hr with hg
    exact ⟨s, hs, hg, hr⟩
  · rintro ⟨s, hs, hg, hr⟩
    exact ⟨s, hs, by rw [if_pos hg, hr]⟩

theorem slot_inj {i j : UInt32} : i.toNat = j.toNat ↔ i = j := UInt32.toNat_inj

theorem getElem?_setEntry (h : a.slots[i.toNat]? = some s) (j : Nat) :
    (a.setEntry i s').slots[j]? = if j = i.toNat then some s' else a.slots[j]? := by
  have hlt : i.toNat < a.slots.length := (List.getElem?_eq_some_iff.1 h).1
  show (a.slots.set i.toNat s')[j]? = _
  rw [List.getElem?_set]
  by_cases hj : i.toNat = j
  · subst hj
    rw [if_pos rfl, if_pos hlt, if_pos rfl]
  · rw [if_neg hj, if_neg (Ne.symm hj)]

@[simp] theorem freeSlots_setEntry : (a.setEntry i s).freeSlots = a.freeSlots := rfl

theorem get_setEntry_of_ne (h : a.slots[i.toNat]? = some s) (hne : id.slot ≠ i) :
    (a.setEntry i s').get id = a.get id := by
  unfold get
  rw [getElem?_setEntry h, if_neg (mt slot_inj.1 hne)]

theorem get_setEntry_self (h : a.slots[id.slot.toNat]? = some s) :
    (a.setEntry id.slot s').get id = if s'.generation = id.generation then s'.record else none := by
  unfold get
  rw [getElem?_setEntry h, if_pos rfl]
  rfl

theorem get_modify_self : (a.modify id f).get id = (a.get id).map f := by
  unfold modify
  cases hs : a.slots[id.slot.toNat]? with
  | none =>
    have hget : a.get id = none := by unfold get; rw [hs]; rfl
    show a.get id = (a.get id).map f
    rw [hget]
    rfl
  | some s =>
    have hget : a.get id = if s.generation = id.generation then s.record else none := by unfold get; rw [hs]; rfl
    show Slots.get (if s.generation = id.generation then _ else a) id = _
    by_cases hg : s.generation = id.generation
    · rw [if_pos hg, get_setEntry_self hs, if_pos hg, hget, if_pos hg]
    · rw [if_neg hg, hget, if_neg hg]
      rfl

theorem get_modify_of_ne (hne : id' ≠ id) : (a.modify id f).get id' = a.get id' := by
  unfold modify
  cases hs : a.slots[id.slot.toNat]? with
  | none => rfl
  | some s =>
    show Slots.get (if s.generation = id.generation then _ else a) id' = _
    by_cases hg : s.generation = id.generation
    · rw [if_pos hg]
      by_cases hslot : id'.slot = id.slot
      · have hgen : s.generation ≠ id'.generation := by
          intro h
          apply hne
          cases id; cases id'
          simp_all
        unfold get
        rw [getElem?_setEntry hs, hslot, if_pos rfl, hs]
        simp [hgen]
      · exact get_setEntry_of_ne hs hslot
    · rw [if_neg hg]

/-! ## Free slots -/

/-- A free slot is listed once and holds no record, and no entry has the generation zero. -/
structure WF (a : Slots ρ) : Prop where
  nodup : a.freeSlots.Nodup
  free : ∀ i ∈ a.freeSlots, ∃ s, a.slots[i.toNat]? = some s ∧ s.record = none
  positive : ∀ (j : Nat) (s : SlotEntry ρ), a.slots[j]? = some s → s.generation ≠ 0

theorem WF.pop {rest : List UInt32} (h : a.WF) (hf : a.freeSlots = i :: rest) : WF { a with freeSlots := rest } where
  nodup := by
    have hn := h.nodup
    rw [hf] at hn
    exact hn.of_cons
  free := fun j hj => h.free j (by rw [hf]; exact List.mem_cons_of_mem i hj)
  positive := h.positive

/-- A slot may get any entry of a positive generation, one without a record if it is listed as free. -/
theorem WF.setEntry (h : a.WF) (hs : a.slots[i.toNat]? = some s) (hi : i ∈ a.freeSlots → s'.record = none)
    (hp : s'.generation ≠ 0) : (a.setEntry i s').WF where
  nodup := h.nodup
  free := by
    intro j hj
    obtain ⟨t, ht, hn⟩ := h.free j hj
    by_cases hji : j = i
    · subst hji
      exact ⟨s', by rw [getElem?_setEntry hs, if_pos rfl], hi hj⟩
    · exact ⟨t, by rw [getElem?_setEntry hs, if_neg (mt slot_inj.1 hji)]; exact ht, hn⟩
  positive := by
    intro j t ht
    rw [getElem?_setEntry hs] at ht
    split_ifs at ht with hj
    · exact Option.some.inj ht ▸ hp
    · exact h.positive j t ht

theorem WF.modify (h : a.WF) : (a.modify id f).WF := by
  unfold Slots.modify
  cases hs : a.slots[id.slot.toNat]? with
  | none => exact h
  | some s =>
    show Slots.WF (if s.generation = id.generation then _ else a)
    split_ifs
    · have hpos : s.generation ≠ 0 := h.positive _ _ hs
      refine h.setEntry hs (fun hi => ?_) hpos
      obtain ⟨t, ht, hn⟩ := h.free _ hi
      rw [hs] at ht
      show s.record.map f = none
      rw [Option.some.inj ht, hn]
      rfl
    · exact h

theorem WF.vacate (h : a.WF) (hs : a.slots[id.slot.toNat]? = some s) (hr : s.record = some r) : (a.vacate id s).WF := by
  have hi : id.slot ∉ a.freeSlots := by
    intro hi
    obtain ⟨t, ht, hn⟩ := h.free _ hi
    rw [hs] at ht
    rw [← Option.some.inj ht, hr] at hn
    cases hn
  unfold Slots.vacate
  split_ifs with hmax
  · have hpos : s.generation ≠ 0 := h.positive _ _ hs
    exact h.setEntry hs (fun hf => absurd hf hi) hpos
  · have hpos : s.generation + 1 ≠ 0 := by
      intro h0
      apply hmax
      have hlt := s.generation.toNat_lt
      have h1 := congrArg UInt32.toNat h0
      rw [UInt32.toNat_add] at h1
      apply UInt32.toNat_inj.1
      show s.generation.toNat = 4294967295
      have h2 : (s.generation.toNat + 1) % 2 ^ 32 = 0 := h1
      omega
    have hw : (a.setEntry id.slot { s with record := none, generation := s.generation + 1 }).WF :=
      h.setEntry hs (fun _ => rfl) hpos
    exact {
      nodup := List.nodup_cons.2 ⟨hi, h.nodup⟩
      free := by
        intro j hj
        rcases List.mem_cons.1 hj with rfl | hj
        · exact ⟨_, by rw [getElem?_setEntry hs, if_pos rfl], rfl⟩
        · exact hw.free j hj
      positive := hw.positive }

/-! ## Ids that do not come back -/

/-- No later entry of the slot can carry `id` again: its generation has passed, or it was the last one. -/
def Dead (a : Slots ρ) (id : SlotId) : Prop :=
  ∃ s, a.slots[id.slot.toNat]? = some s ∧
    (id.generation < s.generation ∨ (id.generation = s.generation ∧ s.retired = true ∧ s.record = none))

/-- The entry does not go back: its generation grows, or it stays and a retired entry stays retired. -/
def EntryOnward (s s' : SlotEntry ρ) : Prop :=
  s.generation < s'.generation ∨
    (s.generation = s'.generation ∧ (s.retired = true → s.record = none → s'.retired = true ∧ s'.record = none))

/-- No entry of `a` went back in `a'`. -/
def Onward (a a' : Slots ρ) : Prop :=
  ∀ (j : Nat) (s : SlotEntry ρ), a.slots[j]? = some s → ∃ s', a'.slots[j]? = some s' ∧ EntryOnward s s'

theorem EntryOnward.refl (s : SlotEntry ρ) : EntryOnward s s := .inr ⟨rfl, fun h h' => ⟨h, h'⟩⟩

theorem EntryOnward.trans (h : EntryOnward s s') (h' : EntryOnward s' s'') : EntryOnward s s'' := by
  rcases h with h | ⟨hg, hr⟩
  · rcases h' with h' | ⟨hg', -⟩
    · exact .inl (UInt32.lt_trans h h')
    · exact .inl (hg' ▸ h)
  · rcases h' with h' | ⟨hg', hr'⟩
    · exact .inl (hg ▸ h')
    · exact .inr ⟨hg.trans hg', fun h0 h1 => hr' (hr h0 h1).1 (hr h0 h1).2⟩

theorem Onward.refl (a : Slots ρ) : Onward a a := fun _ s hs => ⟨s, hs, .refl s⟩

theorem Onward.trans (h : Onward a a') (h' : Onward a' a'') : Onward a a'' := by
  intro j s hs
  obtain ⟨s', hs', ho⟩ := h j s hs
  obtain ⟨s'', hs'', ho'⟩ := h' j s' hs'
  exact ⟨s'', hs'', ho.trans ho'⟩

theorem Onward.setEntry (hs : a.slots[i.toNat]? = some s) (ho : EntryOnward s s') : Onward a (a.setEntry i s') := by
  intro j t ht
  rw [getElem?_setEntry hs]
  by_cases hj : j = i.toNat
  · subst hj
    rw [hs] at ht
    rw [if_pos rfl]
    exact ⟨s', rfl, Option.some.inj ht ▸ ho⟩
  · rw [if_neg hj]
    exact ⟨t, ht, .refl t⟩

theorem Dead.onward (h : a.Dead id) (ho : Onward a a') : a'.Dead id := by
  obtain ⟨s, hs, hd⟩ := h
  obtain ⟨s', hs', ho⟩ := ho _ s hs
  refine ⟨s', hs', ?_⟩
  rcases hd with hlt | ⟨hg, hr, hn⟩
  · rcases ho with ho | ⟨ho, -⟩
    · exact .inl (UInt32.lt_trans hlt ho)
    · exact .inl (ho ▸ hlt)
  · rcases ho with ho | ⟨ho, hk⟩
    · exact .inl (hg ▸ ho)
    · exact .inr ⟨hg.trans ho, hk hr hn⟩

theorem Dead.get (h : a.Dead id) : a.get id = none := by
  obtain ⟨s, hs, hd⟩ := h
  unfold Slots.get
  rw [hs]
  rcases hd with hlt | ⟨-, -, hn⟩
  · exact if_neg (fun hg => UInt32.lt_irrefl _ (hg ▸ hlt))
  · show (if s.generation = id.generation then s.record else none) = none
    rw [hn, ite_self]

theorem lt_add_one {g : UInt32} (h : g ≠ 0xFFFFFFFF) : g < g + 1 := by
  have hlt := g.toNat_lt
  have hne : g.toNat ≠ 4294967295 := fun hn => h (UInt32.toNat_inj.1 hn)
  rw [UInt32.lt_iff_toNat_lt, UInt32.toNat_add]
  show g.toNat < (g.toNat + 1) % 2 ^ 32
  omega

theorem Onward.vacate (hs : a.slots[id.slot.toNat]? = some s) : Onward a (a.vacate id s) := by
  unfold Slots.vacate
  split_ifs with hmax
  · exact Onward.setEntry hs (.inr ⟨rfl, fun _ _ => ⟨rfl, rfl⟩⟩)
  · exact Onward.setEntry hs (.inl (lt_add_one hmax))

theorem Onward.modify : Onward a (a.modify id f) := by
  unfold Slots.modify
  cases hs : a.slots[id.slot.toNat]? with
  | none => exact .refl a
  | some s =>
    show Onward a (if s.generation = id.generation then _ else a)
    split_ifs
    · refine Onward.setEntry hs (.inr ⟨rfl, fun hr hn => ⟨hr, ?_⟩⟩)
      show s.record.map f = none
      rw [hn]
      rfl
    · exact .refl a

theorem Dead.vacate (hs : a.slots[id.slot.toNat]? = some s) (hg : s.generation = id.generation) :
    (a.vacate id s).Dead id := by
  unfold Slots.vacate
  split_ifs with hmax
  · refine ⟨{ s with record := none, retired := true }, ?_, .inr ⟨hg.symm, rfl, rfl⟩⟩
    rw [getElem?_setEntry hs, if_pos rfl]
  · refine ⟨{ s with record := none, generation := s.generation + 1 }, ?_, .inl ?_⟩
    · show (a.setEntry id.slot _).slots[id.slot.toNat]? = _
      rw [getElem?_setEntry hs, if_pos rfl]
    · rw [← hg]
      exact lt_add_one hmax

/-- A freed slot holds nothing; the other slots do not see the change. -/
theorem get_vacate (hs : a.slots[id.slot.toNat]? = some s) :
    (a.vacate id s).get id' = if id'.slot = id.slot then none else a.get id' := by
  have hset : ∀ s' : SlotEntry ρ, s'.record = none →
      (a.setEntry id.slot s').get id' = if id'.slot = id.slot then none else a.get id' := by
    intro s' hn
    split_ifs with hslot
    · unfold get
      rw [getElem?_setEntry hs, hslot, if_pos rfl]
      show (if s'.generation = id'.generation then s'.record else none) = none
      rw [hn, ite_self]
    · exact get_setEntry_of_ne hs hslot
  unfold Slots.vacate
  by_cases hmax : s.generation = 0xFFFFFFFF
  · rw [if_pos hmax]
    exact hset { s with record := none, retired := true } rfl
  · rw [if_neg hmax]
    exact hset { s with record := none, generation := s.generation + 1 } rfl

end Slots

end SovereignCore
