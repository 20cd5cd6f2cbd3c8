import SovereignCore.Runtime.Arena
import SovereignCore.Kv.Refusals

/-!
# Launching a swarm

A swarm is a root sequence and its branches, each with a world of its own. `launchSwarm` takes a root world, a root
slot, the root's blocks and then a world and a slot for each branch, and returns early where one of them is refused.

* `SwarmConfig`, `SwarmRecord`, `SwarmManager`, `Stores` : the data, with the stores that a launch draws on;
* `launchSwarm` : the call; `forkBranches` : its loop;
* `Unchanged` : live records, free slots, tables, free blocks and worlds are as before;
* `Fits` : what has to be there before the call, so that a refusal leaves nothing behind;
* `launch_atomic_iff` : a refusal leaves nothing behind exactly then.
-/

namespace SovereignCore.Runtime

open Prog Kv

inductive SwarmState where
  | created
  | running
  | paused
  | cancelling
  | completed
  | failed
  deriving DecidableEq, Repr

structure SwarmConfig where
  modelHandle : UInt64
  branchCount : Nat
  maxActiveSequences : Nat
  maxTokensPerBranch : Nat
  rootWorldId : Nat
  priority : UInt8

structure SwarmRecord where
  id : Nat
  config : SwarmConfig
  rootSequenceId : SequenceId
  branchSequences : List SequenceId
  branchWorlds : List Nat
  finishedBranches : List SequenceId
  state : SwarmState
  createdAt : UInt64

structure SwarmManager where
  swarms : Std.ExtTreeMap Nat SwarmRecord
  nextSwarmId : Nat
  pendingRootPrefill : Std.ExtTreeMap Nat (List UInt32)

def SwarmManager.new : SwarmManager := ⟨∅, 1, ∅⟩

/-- What a launch works on. -/
structure Stores where
  manager : SwarmManager
  arena : SequenceArena
  kv : AienKvManager
  worlds : WorldStore

abbrev Launch (α : Type) := Prog Stores String α

def onArena {α : Type} (x : Prog SequenceArena String α) : Launch α := zoom Stores.arena (fun a s => { s with arena := a }) x

def onKv {α : Type} (x : Prog AienKvManager String α) : Launch α := zoom Stores.kv (fun m s => { s with kv := m }) x

def onWorlds {α : Type} (x : Prog WorldStore String α) : Launch α :=
  zoom Stores.worlds (fun ws s => { s with worlds := ws }) x

def ensureRootWorld (rootWorldId : Nat) (timestamp : UInt64) : Launch Nat := do
  let s ← get
  if (s.worlds.getWorld rootWorldId).isSome then pure rootWorldId
  else
    let r := s.worlds.createRootWorld 1 1 1 timestamp
    set { s with worlds := r.2 }
    pure r.1

/-- The loop over the branches: the slots and the worlds that they got. -/
def forkBranches (rootSeq : SequenceId) (rootWorldId : Nat) (timestamp : UInt64) : Nat → Launch (List (SequenceId × Nat))
  | 0 => pure []
  | n + 1 => do
    let childWorld ← onWorlds (WorldStore.forkWorld rootWorldId timestamp)
    let childSeq ← onArena (SequenceArena.fork rootSeq childWorld timestamp)
    modify fun s => { s with arena := s.arena.getMut childSeq fun child => { child with state := .prefill } }
    let rest ← forkBranches rootSeq rootWorldId timestamp n
    pure ((childSeq, childWorld) :: rest)

def launchSwarm (config : SwarmConfig) (promptTokens : List UInt32) (timestamp : UInt64) : Launch Nat := do
  let s ← get
  let swarmId := s.manager.nextSwarmId
  modify fun s => { s with manager := { s.manager with nextSwarmId := swarmId + 1 } }
  let rootWorldId ← ensureRootWorld config.rootWorldId timestamp
  let rootSeq ← onArena (SequenceArena.allocate rootWorldId 1 config.priority timestamp)
  let _ ← onKv (AienKvManager.allocateSequence rootSeq.toU64 promptTokens)
  modify fun s => { s with arena := s.arena.getMut rootSeq fun record =>
    { record with prefillCursor := 0, state := .prefill } }
  let branches ← forkBranches rootSeq rootWorldId timestamp config.branchCount
  let record : SwarmRecord :=
    { id := swarmId
      config := config
      rootSequenceId := rootSeq
      branchSequences := branches.map Prod.fst
      branchWorlds := branches.map Prod.snd
      finishedBranches := []
      state := .running
      createdAt := timestamp }
  modify fun s => { s with manager := { s.manager with
    pendingRootPrefill := s.manager.pendingRootPrefill.insert swarmId promptTokens
    swarms := s.manager.swarms.insert swarmId record } }
  pure swarmId

/-- The live records, the free slots, the tables, the free blocks and the worlds are as they were. -/
structure Unchanged (s s' : Stores) : Prop where
  records : ∀ id, s'.arena.get id = s.arena.get id
  freeSlots : s'.arena.freeSlots = s.arena.freeSlots
  tables : s'.kv.sequenceTables = s.kv.sequenceTables
  freeBlocks : s'.kv.freeBlocks = s.kv.freeBlocks
  worlds : ∀ id, s'.worlds.getWorld id = s.worlds.getWorld id

/-- Without a free slot, the root world is there already. With one, the root's blocks are to be had, and so is a slot
for each branch, unless the manager panics over the root's blocks. -/
def Fits (config : SwarmConfig) (promptTokens : List UInt32) (s : Stores) : Prop :=
  match s.arena.nextId with
  | none => (s.worlds.getWorld config.rootWorldId).isSome
  | some root =>
    ((s.kv.sequenceTables.lookup root.toU64).isSome ∨
      promptTokens.length ⌈/⌉ s.kv.blockSize ≤ s.kv.freeBlocks.length) ∧
    (config.branchCount < s.arena.freeSlots.length ∨
      AienKvManager.allocateSequence root.toU64 promptTokens s.kv = .panic)

section Loop

variable {rootSeq : SequenceId} {rootWorldId : Nat} {timestamp : UInt64} {s : Stores}

theorem fork_ends {a : SequenceArena} (h : (a.get rootSeq).isSome) (world : Nat) :
    (SequenceArena.fork rootSeq world timestamp a).Ends False
      (fun id a' => a.freeSlots = id.slot :: a'.freeSlots ∧ ∀ x, (a.get x).isSome → (a'.get x).isSome)
      (fun _ a' => a' = a ∧ a.freeSlots = []) := by
  obtain ⟨parent, hparent⟩ := Option.isSome_iff_exists.1 h
  unfold SequenceArena.fork
  rw [ends_bind, ends_get, hparent, ends_bind, ends_orFail_some, ends_bind]
  obtain ⟨hnil, -, hplace⟩ | ⟨id, a', -, hplace, hfree, -, hlive⟩ := a.place_cases _
  · rw [hplace]
    exact ⟨rfl, hnil⟩
  · rw [hplace]
    exact ⟨hfree, hlive⟩

/-- The world of the parent is there, so a child gets the next one. -/
theorem forkWorld_ends {ws : WorldStore} (h : (ws.getWorld rootWorldId).isSome) :
    (WorldStore.forkWorld rootWorldId timestamp ws).Ends False (fun _ ws' => (ws'.getWorld rootWorldId).isSome)
      (fun _ _ => False) := by
  obtain ⟨parent, hparent⟩ := Option.isSome_iff_exists.1 h
  unfold WorldStore.forkWorld
  rw [ends_bind, ends_get, hparent, ends_bind, ends_orFail_some, ends_bind, ends_set, ends_pure,
    WorldStore.getWorld_add]
  split
  · rfl
  · exact h

theorem forkBranches_ends : ∀ (n : Nat) {s : Stores}, (s.arena.get rootSeq).isSome →
    (s.worlds.getWorld rootWorldId).isSome →
    (forkBranches rootSeq rootWorldId timestamp n s).Ends False (fun _ _ => n ≤ s.arena.freeSlots.length)
      (fun _ s' => s.arena.freeSlots.length < n ∧ s'.arena.freeSlots = [])
  | 0, _, _, _ => Nat.zero_le _
  | n + 1, s, hroot, hworld => by
    unfold forkBranches onWorlds onArena
    rw [ends_bind, ends_zoom]
    refine (forkWorld_ends hworld).mono ?_ fun _ _ hf => hf.elim
    intro childWorld ws hws
    rw [ends_bind, ends_zoom]
    refine (fork_ends hroot childWorld).mono ?_ ?_
    · rintro childSeq a ⟨hfree, hlive⟩
      rw [ends_bind, ends_modify, ends_bind]
      have hroot' : ((a.getMut childSeq fun child => { child with state := .prefill }).get rootSeq).isSome := by
        rw [SequenceArena.isSome_get_getMut]
        exact hlive rootSeq hroot
      refine (forkBranches_ends n hroot' hws).mono ?_ ?_
      · intro rest s' hle
        rw [SequenceArena.freeSlots_getMut] at hle
        show n + 1 ≤ s.arena.freeSlots.length
        rw [hfree]
        exact Nat.succ_le_succ hle
      · rintro e s' ⟨hlt, hnil⟩
        rw [SequenceArena.freeSlots_getMut] at hlt
        refine ⟨?_, hnil⟩
        rw [hfree]
        exact Nat.succ_lt_succ hlt
    · rintro e a ⟨rfl, hnil⟩
      refine ⟨?_, hnil⟩
      rw [hnil]
      exact Nat.succ_pos n

end Loop

section Blocks

variable {m : AienKvManager} {id : UInt64} {prompt : List UInt32}

def Reached (m : AienKvManager) : Prop :=
  ∃ total bs pool ops w, (World.init total bs pool).run ops = some w ∧ w.manager = m

def Short (m : AienKvManager) (id : UInt64) (prompt : List UInt32) : Prop :=
  m.sequenceTables.lookup id = none ∧ m.freeBlocks.length < prompt.length ⌈/⌉ m.blockSize

theorem not_short : ¬ Short m id prompt ↔
    (m.sequenceTables.lookup id).isSome ∨ prompt.length ⌈/⌉ m.blockSize ≤ m.freeBlocks.length := by
  unfold Short
  rw [not_and_or, Nat.not_lt, Option.isSome_iff_ne_none]

theorem allocate_refused (h : Short m id prompt) :
    (AienKvManager.allocateSequence id prompt m).Ends False (fun _ _ => False) (fun _ _ => True) := by
  obtain ⟨hnone, hfew⟩ := h
  have hbs : m.blockSize ≠ 0 := by
    intro hzero
    rw [hzero, ceilDiv_zero] at hfew
    exact Nat.not_lt_zero _ hfew
  unfold AienKvManager.allocateSequence
  rw [ends_bind, ends_get, hnone]
  dsimp only
  rw [ends_bind, AienKvManager.ends_divCeil (Nat.pos_of_ne_zero hbs), if_pos hfew, ends_fail]
  trivial

theorem short_of_refused (hm : Reached m) {e : String} {m' : AienKvManager}
    (h : AienKvManager.allocateSequence id prompt m = .err e m') : Short m id prompt := by
  obtain ⟨total, bs, pool, ops, w, hrun, rfl⟩ := hm
  rcases Nat.eq_zero_or_pos bs with rfl | hbs
  · have hidle := (World.run_unused ops ⟨⟨fun _ => rfl, rfl⟩, rfl⟩ hrun).idle
    have hpanic : (AienKvManager.allocateSequence id prompt w.manager).Ends True (fun _ _ => False) (fun _ _ => False) := by
      unfold AienKvManager.allocateSequence AienKvManager.divCeil
      rw [ends_bind, ends_get, hidle.none]
      dsimp only
      rw [ends_bind, if_pos hidle.size, ends_panic]
      trivial
    rw [h] at hpanic
    exact hpanic.elim
  · have hw := (World.run_init total bs hbs pool ops).1 w hrun
    have hends := AienKvManager.allocateSequence_ends hw.inv.accounts hw.covers hw.inv.size id prompt
    rw [h] at hends
    obtain ⟨-, hfew, hview⟩ := hends
    exact ⟨Option.map_eq_none_iff.1 hview, hfew⟩

end Blocks

section Atomic

variable {timestamp : UInt64} {s : Stores}

/-- The root world is the one of the config, and nothing changes, or it is a new one. -/
theorem ensureRootWorld_ends (id : Nat) : (ensureRootWorld id timestamp s).Ends False
    (fun root s' => s'.arena = s.arena ∧ s'.kv = s.kv ∧ (s'.worlds.getWorld root).isSome ∧
      if (s.worlds.getWorld id).isSome then s'.worlds = s.worlds
      else (s'.worlds.getWorld s.worlds.nextWorldId).isSome) (fun _ _ => False) := by
  unfold ensureRootWorld
  rw [ends_bind, ends_get]
  by_cases h : (s.worlds.getWorld id).isSome
  · rw [if_pos h]
    refine ⟨rfl, rfl, h, ?_⟩
    rw [if_pos h]
  · rw [if_neg h, ends_bind]
    have hnew : ((s.worlds.createRootWorld 1 1 1 timestamp).2.getWorld s.worlds.nextWorldId).isSome := by
      show ((s.worlds.add _).getWorld _).isSome
      rw [WorldStore.getWorld_add, if_pos rfl]
      rfl
    refine ⟨rfl, rfl, hnew, ?_⟩
    rw [if_neg h]
    exact hnew

theorem allocate_ends {a : SequenceArena} (world : Nat) (context : UInt64) (priority : UInt8) :
    (SequenceArena.allocate world context priority timestamp a).Ends False
      (fun id a' => a.nextId = some id ∧ a.freeSlots = id.slot :: a'.freeSlots ∧ (a'.get id).isSome)
      (fun _ a' => a' = a ∧ a.nextId = none) := by
  unfold SequenceArena.allocate
  rw [ends_bind, ends_get, ends_bind]
  obtain ⟨-, hnone, hplace⟩ | ⟨id, a', hnext, hplace, hfree, hself, -⟩ := a.place_cases _
  · rw [hplace]
    exact ⟨rfl, hnone⟩
  · rw [hplace]
    exact ⟨hnext, hfree, hself⟩

/-- How a launch ends: only what fits goes through, and a refusal leaves nothing behind only if it fitted. -/
theorem launchSwarm_ends (config : SwarmConfig) (prompt : List UInt32) (timestamp : UInt64) (hm : Reached s.kv) :
    (launchSwarm config prompt timestamp s).Ends (Fits config prompt s) (fun _ _ => Fits config prompt s)
      (fun _ s' => Unchanged s s' ↔ Fits config prompt s) := by
  unfold launchSwarm
  rw [ends_bind, ends_get, ends_bind, ends_modify, ends_bind]
  refine ((ensureRootWorld_ends _).weaken).mono ?_ fun _ _ hf => hf.elim
  rintro root s1 ⟨harena, hkv, hroot, hworlds⟩
  unfold onArena
  rw [ends_bind, ends_zoom]
  refine ((allocate_ends root 1 config.priority).weaken).mono ?_ ?_
  · rintro rootSeq a ⟨hnext, hfree, hself⟩
    rw [show s1.arena = s.arena from harena] at hnext hfree
    have hcons : a.freeSlots ≠ s.arena.freeSlots := by
      rw [hfree]
      exact (List.cons_ne_self _ _).symm
    have hfits : Fits config prompt s ↔ ¬ Short s.kv rootSeq.toU64 prompt ∧
        (config.branchCount < s.arena.freeSlots.length ∨
          AienKvManager.allocateSequence rootSeq.toU64 prompt s.kv = .panic) := by
      unfold Fits
      rw [hnext, not_short]
    rw [hfits]
    unfold onKv
    rw [ends_bind, ends_zoom]
    show Outcome.Ends _ _ _ (AienKvManager.allocateSequence rootSeq.toU64 prompt s1.kv)
    rw [show s1.kv = s.kv from hkv]
    cases hblocks : AienKvManager.allocateSequence rootSeq.toU64 prompt s.kv with
    | panic =>
      refine ⟨?_, Or.inr rfl⟩
      intro hshort
      have hrefused := allocate_refused hshort
      rw [hblocks] at hrefused
      exact hrefused
    | err e m =>
      have hshort : Short s.kv rootSeq.toU64 prompt := short_of_refused hm hblocks
      exact ⟨fun h => absurd h.freeSlots hcons, fun h => absurd hshort h.1⟩
    | ok ids m =>
      have hnot : ¬ Short s.kv rootSeq.toU64 prompt := by
        intro hshort
        have hrefused := allocate_refused hshort
        rw [hblocks] at hrefused
        exact hrefused
      show Outcome.Ends _ _ _ ((_ >>= _ : Launch Nat) _)
      rw [ends_bind, ends_modify, ends_bind]
      let s2 : Stores := { s1 with
        arena := a.getMut rootSeq fun record => { record with prefillCursor := 0, state := .prefill }
        kv := m }
      have hself' : (s2.arena.get rootSeq).isSome := by
        rw [SequenceArena.isSome_get_getMut]
        exact hself
      refine ((forkBranches_ends config.branchCount (s := s2) hself' hroot).weaken).mono ?_ ?_
      · intro branches s3 hle
        rw [SequenceArena.freeSlots_getMut] at hle
        rw [ends_bind, ends_modify, ends_pure, hfree]
        exact ⟨hnot, Or.inl (Nat.lt_succ_of_le hle)⟩
      · rintro e s3 ⟨hlt, hnil⟩
        rw [SequenceArena.freeSlots_getMut] at hlt
        constructor
        · intro h
          have hfalse := h.freeSlots
          rw [hnil, hfree] at hfalse
          cases hfalse
        · rintro ⟨-, hcount | hpanic⟩
          · rw [hfree, List.length_cons] at hcount
            exact absurd hlt (Nat.not_lt.2 (Nat.le_of_lt_succ hcount))
          · cases hpanic
  · rintro e a ⟨rfl, hnone⟩
    rw [show s1.arena = s.arena from harena] at hnone
    have hfits : Fits config prompt s ↔ (s.worlds.getWorld config.rootWorldId).isSome := by
      unfold Fits
      rw [hnone]
    rw [hfits]
    constructor
    · intro h
      by_contra habsent
      have hnew : (s1.worlds.getWorld s.worlds.nextWorldId).isSome := by
        rw [if_neg habsent] at hworlds
        exact hworlds
      have hold := h.worlds s.worlds.nextWorldId
      rw [WorldStore.getWorld_next] at hold
      rw [show s1.worlds.getWorld _ = none from hold] at hnew
      cases hnew
    · intro hpresent
      rw [if_pos hpresent] at hworlds
      refine ⟨fun id => ?_, ?_, ?_, ?_, fun id => ?_⟩
      · show s1.arena.get id = _
        rw [harena]
      · show s1.arena.freeSlots = _
        rw [harena]
      · show s1.kv.sequenceTables = _
        rw [hkv]
      · show s1.kv.freeBlocks = _
        rw [hkv]
      · show s1.worlds.getWorld id = _
        rw [hworlds]

end Atomic

def newStores (capacity : Nat) : Stores := ⟨.new, .new capacity, .new 4 2, .new⟩

def newSwarm (branchCount : Nat) : SwarmConfig := ⟨1, branchCount, branchCount, 8, 0, 1⟩

theorem reached_newStores (capacity : Nat) : Reached (newStores capacity).kv := ⟨4, 2, none, [], _, rfl, rfl⟩

end SovereignCore.Runtime
