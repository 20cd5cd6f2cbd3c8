import SovereignCore.Lib.Prog
import SovereignCore.Lib.Slots
import SovereignCore.Lib.Table

/-!
# The stores of the runtime

The runtime numbers its sequences by slot and generation, in an arena of a fixed capacity, and gives each a world.

* `SequenceArena` : the slots, every free one within the array; `allocate`, `fork`, `get`, `getMut`, `free`;
* `WorldStore` : the worlds, every id below the next one; `createRootWorld`, `forkWorld`, `dropWorld`;
* `place_cases`, `getWorld_add` : what an allocation does to the slots and a new world to the worlds.
-/

namespace SovereignCore.Runtime

open Prog

abbrev SequenceId : Type := SlotId

def SequenceId.display (id : SequenceId) : String := s!"seq_{id.slot}:{id.generation}"

inductive SequenceState where
  | ready
  | prefill
  | decode
  | blockedOnTool
  | cancelled
  | completed
  deriving DecidableEq, Repr

structure SequenceRecord where
  id : SequenceId
  parentId : Option SequenceId
  worldId : Nat
  priority : UInt8
  state : SequenceState
  contextId : UInt64
  blockTableId : UInt32
  prefillCursor : Nat
  generatedTokens : Nat
  arrivalTicks : UInt64
  deadlineTicks : Option UInt64
  deriving DecidableEq, Repr

/-- A listed free slot is one of the array. -/
structure SequenceArena extends Slots SequenceRecord where
  activeCount : Nat
  capacity : Nat
  retiredSlotsCount : Nat
  listed : ∀ i ∈ toSlots.freeSlots, i.toNat < toSlots.slots.length

namespace SequenceArena

/-- The slot numbers are cut to 32 bits, and the first slot lies on top of the free ones. -/
def new (capacity : Nat) : SequenceArena where
  slots := List.replicate capacity .fresh
  freeSlots := (List.range capacity).map UInt32.ofNat
  activeCount := 0
  capacity := capacity
  retiredSlotsCount := 0
  listed := by
    intro i hi
    obtain ⟨n, hn, rfl⟩ := List.mem_map.1 hi
    rw [List.length_replicate]
    calc (UInt32.ofNat n).toNat ≤ n := Nat.mod_le _ _
      _ < capacity := List.mem_range.1 hn

variable (a : SequenceArena)

def entry (i : UInt32) (h : i ∈ a.freeSlots) : SlotEntry SequenceRecord := a.slots.get ⟨i.toNat, a.listed i h⟩

def nextId : Option SequenceId :=
  match h : a.freeSlots with
  | [] => none
  | i :: _ => some ⟨i, (a.entry i (h ▸ List.mem_cons_self)).generation⟩

def place (record : SequenceId → SequenceRecord) : Option (SequenceId × SequenceArena) :=
  match h : a.freeSlots with
  | [] => none
  | i :: rest =>
    let slot := a.entry i (h ▸ List.mem_cons_self)
    let id : SequenceId := ⟨i, slot.generation⟩
    some (id, {
      slots := a.slots.set i.toNat { slot with record := some (record id) }
      freeSlots := rest
      activeCount := a.activeCount + 1
      capacity := a.capacity
      retiredSlotsCount := a.retiredSlotsCount
      listed := by
        intro j hj
        rw [List.length_set]
        exact a.listed j (h ▸ List.mem_cons_of_mem i hj) })

def allocate (worldId : Nat) (contextId : UInt64) (priority : UInt8) (arrivalTicks : UInt64) :
    Prog SequenceArena String SequenceId := do
  let a ← get
  let (id, a') ← orFail (a.place fun id =>
    { id := id
      parentId := none
      worldId := worldId
      priority := priority
      state := .ready
      contextId := contextId
      blockTableId := id.slot
      prefillCursor := 0
      generatedTokens := 0
      arrivalTicks := arrivalTicks
      deadlineTicks := none }) s!"SequenceArena capacity exhausted ({a.capacity})"
  set a'
  pure id

def get (id : SequenceId) : Option SequenceRecord := a.toSlots.get id

def fork (parentId : SequenceId) (childWorldId : Nat) (arrivalTicks : UInt64) :
    Prog SequenceArena String SequenceId := do
  let a ← Prog.get
  let parent ← orFail (a.get parentId) s!"Parent sequence {SequenceId.display parentId} not found or stale"
  let (id, a') ← orFail (a.place fun id =>
    { id := id
      parentId := some parentId
      worldId := childWorldId
      priority := parent.priority
      state := .decode
      contextId := parent.contextId
      blockTableId := id.slot
      prefillCursor := parent.prefillCursor
      generatedTokens := parent.generatedTokens
      arrivalTicks := arrivalTicks
      deadlineTicks := none }) s!"SequenceArena capacity exhausted on fork ({a.capacity})"
  set a'
  pure id

/-- A change of the record of `id`; a stale id changes nothing. -/
def getMut (id : SequenceId) (f : SequenceRecord → SequenceRecord) : SequenceArena :=
  { a with
    toSlots := a.toSlots.modify id f
    listed := by
      unfold Slots.modify
      split
      · exact a.listed
      · split
        · intro i hi
          show i.toNat < (a.slots.set _ _).length
          rw [List.length_set]
          exact a.listed i hi
        · exact a.listed }

/-- The slot is free again at the next generation, or retired after the last one; a stale id frees nothing. -/
def free (id : SequenceId) : SequenceArena :=
  match h : a.slots[id.slot.toNat]? with
  | none => a
  | some s =>
    if s.generation = id.generation ∧ s.record.isSome then
      { toSlots := a.toSlots.vacate id s
        activeCount := a.activeCount - 1
        capacity := a.capacity
        retiredSlotsCount := if s.generation = 0xFFFFFFFF then a.retiredSlotsCount + 1 else a.retiredSlotsCount
        listed := by
          have hlt : id.slot.toNat < a.slots.length := (List.getElem?_eq_some_iff.1 h).1
          unfold Slots.vacate
          split
          · intro i hi
            show i.toNat < (a.slots.set _ _).length
            rw [List.length_set]
            exact a.listed i hi
          · intro i hi
            show i.toNat < (a.slots.set _ _).length
            rw [List.length_set]
            obtain rfl | hi := List.mem_cons.1 hi
            · exact hlt
            · exact a.listed i hi }
    else a

variable {a}

theorem entry_eq {i : UInt32} (h : i ∈ a.freeSlots) : a.slots[i.toNat]? = some (a.entry i h) :=
  List.getElem?_eq_getElem _

/-- A record is put on the free slot on top, or there is none; the ids that were alive stay so. -/
theorem place_cases (record : SequenceId → SequenceRecord) :
    (a.freeSlots = [] ∧ a.nextId = none ∧ a.place record = none) ∨
      ∃ id a', a.nextId = some id ∧ a.place record = some (id, a') ∧ a.freeSlots = id.slot :: a'.freeSlots ∧
        (a'.get id).isSome ∧ ∀ x, (a.get x).isSome → (a'.get x).isSome := by
  unfold nextId place
  split
  · rename_i h
    exact Or.inl ⟨h, rfl, rfl⟩
  · rename_i i rest h
    have hmem : i ∈ a.freeSlots := h ▸ List.mem_cons_self
    have hentry := entry_eq hmem
    refine Or.inr ⟨_, _, rfl, rfl, h, ?_, ?_⟩
    · show ((a.toSlots.setEntry i { a.entry i hmem with record := some _ }).get ⟨i, _⟩).isSome
      have hself : a.slots[(SlotId.mk i (a.entry i hmem).generation).slot.toNat]? = some (a.entry i hmem) := hentry
      rw [Slots.get_setEntry_self hself, if_pos rfl]
      rfl
    · intro x hx
      show ((a.toSlots.setEntry i { a.entry i hmem with record := some _ }).get x).isSome
      by_cases hslot : x.slot = i
      · subst hslot
        obtain ⟨r, hr⟩ := Option.isSome_iff_exists.1 hx
        obtain ⟨s, hs, hgen, -⟩ := Slots.get_eq_some.1 hr
        obtain rfl := Option.some.inj (hentry.symm.trans hs)
        rw [Slots.get_setEntry_self hentry, if_pos hgen]
        rfl
      · rw [Slots.get_setEntry_of_ne hentry hslot]
        exact hx

@[simp] theorem freeSlots_getMut (id : SequenceId) (f : SequenceRecord → SequenceRecord) :
    (a.getMut id f).freeSlots = a.freeSlots := by
  show (a.toSlots.modify id f).freeSlots = _
  unfold Slots.modify
  split
  · rfl
  · split
    · rfl
    · rfl

theorem isSome_get_getMut (id : SequenceId) (f : SequenceRecord → SequenceRecord) (x : SequenceId) :
    ((a.getMut id f).get x).isSome = (a.get x).isSome := by
  show ((a.toSlots.modify id f).get x).isSome = _
  by_cases hx : x = id
  · rw [hx, Slots.get_modify_self, Option.isSome_map]
    rfl
  · rw [Slots.get_modify_of_ne hx]
    rfl

end SequenceArena

/-! ## Worlds -/

/-- The content roots of a world. -/
abbrev Root : Type := Vector UInt8 32

structure WorldManifest where
  id : Nat
  parent : Option Nat
  objectRoot : Root
  filesystemRoot : Root
  tokenRoot : UInt64
  memoryRoot : UInt64
  capabilitySet : UInt64
  createdAt : UInt64
  deriving DecidableEq

/-- Every world has an id that was given out before the next one. -/
structure WorldStore where
  worlds : Std.ExtTreeMap Nat WorldManifest
  retainedRoots : Std.ExtTreeSet Nat
  nextWorldId : Nat
  fresh : ∀ (id : Nat) (w : WorldManifest), worlds[id]? = some w → id < nextWorldId

namespace WorldStore

def new : WorldStore where
  worlds := ∅
  retainedRoots := ∅
  nextWorldId := 1
  fresh := by
    intro id w h
    rw [Std.ExtTreeMap.getElem?_empty] at h
    cases h

variable (ws : WorldStore)

def add (manifest : Nat → WorldManifest) : WorldStore where
  worlds := ws.worlds.insert ws.nextWorldId (manifest ws.nextWorldId)
  retainedRoots := ws.retainedRoots.insert ws.nextWorldId
  nextWorldId := ws.nextWorldId + 1
  fresh := by
    intro id w h
    rw [Table.get_insert] at h
    split at h
    · rename_i heq
      exact heq ▸ Nat.lt_succ_self _
    · exact Nat.lt_succ_of_lt (ws.fresh id w h)

def createRootWorld (tokenRoot memoryRoot capabilitySet timestamp : UInt64) : Nat × WorldStore :=
  (ws.nextWorldId, ws.add fun id =>
    { id := id
      parent := none
      objectRoot := .replicate 32 0
      filesystemRoot := .replicate 32 0
      tokenRoot := tokenRoot
      memoryRoot := memoryRoot
      capabilitySet := capabilitySet
      createdAt := timestamp })

def getWorld (worldId : Nat) : Option WorldManifest := ws.worlds[worldId]?

def forkWorld (parentId : Nat) (timestamp : UInt64) : Prog WorldStore String Nat := do
  let ws ← get
  let parent ← orFail (ws.getWorld parentId) s!"Parent world {parentId} not found"
  set (ws.add fun id => { parent with id := id, parent := some parentId, createdAt := timestamp })
  pure ws.nextWorldId

def dropWorld (worldId : Nat) : WorldStore where
  worlds := ws.worlds.erase worldId
  retainedRoots := ws.retainedRoots.erase worldId
  nextWorldId := ws.nextWorldId
  fresh := by
    intro id w h
    rw [Table.get_erase] at h
    split at h
    · cases h
    · exact ws.fresh id w h

def collectGarbage : WorldStore where
  worlds := ws.worlds.filter fun id _ => ws.retainedRoots.contains id
  retainedRoots := ws.retainedRoots
  nextWorldId := ws.nextWorldId
  fresh := by
    intro id w h
    rw [Std.ExtTreeMap.getElem?_filter] at h
    obtain ⟨hw, -⟩ := Option.pfilter_eq_some_iff.1 h
    exact ws.fresh id w hw

variable {ws}

theorem getWorld_add (manifest : Nat → WorldManifest) (id : Nat) : (ws.add manifest).getWorld id =
    if ws.nextWorldId = id then some (manifest ws.nextWorldId) else ws.getWorld id := Table.get_insert

theorem getWorld_next : ws.getWorld ws.nextWorldId = none := by
  cases h : ws.getWorld ws.nextWorldId with
  | none => rfl
  | some w => exact absurd (ws.fresh _ w h) (Nat.lt_irrefl _)

end WorldStore

end SovereignCore.Runtime
