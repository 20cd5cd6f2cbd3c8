import SovereignCore.Sched.Runs

/-!
# Forks that fail

A fork first makes the child's record and then forks the K/V; when the second part refuses, the first one stays.

* `Atomic x s` : an error of `x` leaves the arena, the running sequences and the K/V manager as they were;
* `forkSequence_refuses` : on any manager, a K/V fork refuses before it changes anything;
* `SequenceArena.HasRoom`, `allocateSlot_room`, `allocateSlot_full` : when the arena has a slot for the child;
* `forkWith_atomic` : when a fork is atomic; `forks_atomic` : both calls, in every reachable state.
-/

namespace SovereignCore.Kv.AienKvManager

open Prog

variable {ε α β : Type} {m : AienKvManager}

def NoErr {σ : Type} (x : Prog σ ε α) : Prop := ∀ s, (x s).Ends True (fun _ _ => True) (fun _ _ => False)

theorem noErr_bind {σ : Type} {x : Prog σ ε β} {f : β → Prog σ ε α} (hx : NoErr x) (hf : ∀ b, NoErr (f b)) :
    NoErr (x >>= f) := by
  intro s
  rw [ends_bind]
  exact (hx s).mono (fun b s' _ => hf b s') fun _ _ h => h

theorem noErr_forM {σ : Type} {f : β → Prog σ ε Unit} (hf : ∀ b, NoErr (f b)) : ∀ xs : List β, NoErr (xs.forM f)
  | [] => fun _ => trivial
  | x :: xs => by
    rw [List.forM_eq_forM, List.forM_cons]
    exact noErr_bind (hf x) fun _ => noErr_forM hf xs

theorem updateBlock_noErr (b : BlockId) (f : KvBlock → KvBlock) :
    NoErr (updateBlock b f : Prog AienKvManager ε Unit) := by
  intro m
  unfold updateBlock
  rw [ends_bind, ends_get]
  split_ifs
  · exact trivial
  · exact trivial

theorem updateTable_noErr (id : UInt64) (f : BlockTable → BlockTable) :
    NoErr (updateTable id f : Prog AienKvManager ε Unit) := by
  intro m
  unfold updateTable
  rw [ends_bind, ends_get, ends_bind]
  cases m.sequenceTables.lookup id with
  | none => exact trivial
  | some t => exact trivial

theorem releaseRef_noErr (b : BlockId) : NoErr (releaseRef b : Prog AienKvManager ε Unit) := by
  unfold releaseRef
  refine noErr_bind (fun m => ?_) fun blk => ?_
  · unfold block
    rw [ends_bind, ends_get]
    split_ifs
    · exact trivial
    · exact trivial
  · split_ifs
    · exact fun _ => trivial
    · exact noErr_bind (updateBlock_noErr b _) fun _ _ => trivial
    · exact updateBlock_noErr b _
    · exact updateBlock_noErr b _

theorem freeIfLive_noErr (id : UInt64) : NoErr (freeIfLive id) := by
  intro m
  unfold freeIfLive freeSequence
  rw [ends_bind, ends_get]
  cases ht : m.sequenceTables.lookup id with
  | none => exact trivial
  | some t =>
    rw [if_pos (show (some t).isSome = true from rfl), ends_bind, ends_get, ends_bind, ht, ends_orFail_some, ends_bind, ends_set]
    exact noErr_forM releaseRef_noErr t.blockIds _

theorem freezeParent_noErr (id : UInt64) (state : PrefillState) :
    NoErr (freezeParent id state : Prog AienKvManager ε Unit) := by
  intro m
  unfold freezeParent
  rw [ends_bind, ends_get]
  split_ifs
  · exact updateTable_noErr id _ m
  · exact trivial

/-- **A K/V fork** refuses exactly a parent without a table and a child that is its parent, and then changes nothing. A
panic is none of these. -/
theorem forkSequence_refuses (m : AienKvManager) (parent child : UInt64) :
    (forkSequence parent child m).Ends ((m.sequenceTables.lookup parent).isSome ∧ parent ≠ child)
      (fun _ _ => (m.sequenceTables.lookup parent).isSome ∧ parent ≠ child)
      (fun _ m' => m' = m ∧ ¬ ((m.sequenceTables.lookup parent).isSome ∧ parent ≠ child)) := by
  unfold forkSequence
  rw [ends_bind, ends_get, ends_bind]
  cases ht : m.sequenceTables.lookup parent with
  | none => exact ⟨rfl, fun h => nomatch h.1⟩
  | some t =>
    rw [ends_orFail_some]
    split_ifs with hpc
    · exact ⟨rfl, fun h => h.2 hpc⟩
    · have hrest : NoErr (do
          t.blockIds.forM addRef
          freeIfLive child
          freezeParent parent t.prefillState
          insertTable { t with sequenceId := child, prefillState := PrefillState.ofFork t.prefillState }
          pure t.blockIds : Prog AienKvManager String (List BlockId)) :=
        noErr_bind (noErr_forM (fun b => updateBlock_noErr b _) _) fun _ => noErr_bind (freeIfLive_noErr child) fun _ =>
          noErr_bind (freezeParent_noErr parent _) fun _ => noErr_bind (fun _ => trivial) fun _ _ => trivial
      exact (hrest m).blame (fun _ => ⟨rfl, hpc⟩) (fun _ _ _ => ⟨rfl, hpc⟩) fun _ _ h => h.elim

end SovereignCore.Kv.AienKvManager

namespace SovereignCore.Sched

open Prog Kv AienScheduler

/-! ## Room in the arena -/

namespace SequenceArena
variable {a : SequenceArena} {id : SequenceId} {sinkId : Option CompletionSinkId}

/-- A slot that can be handed out: a free one that is not retired, or a new one. -/
def HasRoom (a : SequenceArena) : Prop :=
  (∃ i ∈ a.freeSlots, ∃ s, a.slots[i.toNat]? = some s ∧ s.retired = false) ∨ a.slots.length < holderSlot.toNat

/-- An allocation fails exactly without room, with nothing left on the stack. -/
theorem allocateFrom_room : ∀ (free : List UInt32) (a : SequenceArena), a.WF → a.freeSlots = free →
    (allocateFrom free a).Ends False (fun _ _ => a.HasRoom)
      (fun _ a' => ¬ a.HasRoom ∧ a' = { a with freeSlots := [] })
  | [], a, _, hf => by
    unfold allocateFrom
    rw [ends_bind, ends_get]
    cases hidx : nextSlotIndex a.slots.length with
    | error e =>
      have hge : ¬ a.slots.length < holderSlot.toNat := by
        intro hlt
        rw [nextSlotIndex, if_pos hlt] at hidx
        cases hidx
      refine ⟨?_, by rw [← hf]⟩
      rintro (⟨i, hi, -⟩ | hlt)
      · rw [hf] at hi
        cases hi
      · exact hge hlt
    | ok slotIdx =>
      refine Or.inr ?_
      by_contra hge
      rw [nextSlotIndex, if_neg hge] at hidx
      cases hidx
  | i :: rest, a, h, hf => by
    have hmem : i ∈ a.freeSlots := by rw [hf]; exact List.mem_cons_self
    obtain ⟨s, hs, -⟩ := h.free i hmem
    unfold allocateFrom
    rw [ends_bind, ends_modify, ends_bind, ends_get, ends_bind]
    show Outcome.Ends False _ _ (unwrap a.slots[i.toNat]? { a with freeSlots := rest })
    rw [hs, ends_unwrap_some]
    by_cases hret : s.retired = true
    · rw [if_pos hret]
      have hroom : HasRoom { a with freeSlots := rest } ↔ a.HasRoom := by
        refine ⟨fun hr => hr.imp_left ?_, fun hr => hr.imp_left ?_⟩
        · rintro ⟨j, hj, ht⟩
          exact ⟨j, by rw [hf]; exact List.mem_cons_of_mem i hj, ht⟩
        · rintro ⟨j, hj, t, ht, hfresh⟩
          rw [hf] at hj
          rcases List.mem_cons.1 hj with rfl | hj
          · rw [hs] at ht
            rw [← Option.some.inj ht, hret] at hfresh
            cases hfresh
          · exact ⟨j, hj, t, ht, hfresh⟩
      refine (allocateFrom_room rest { a with freeSlots := rest } (h.pop hf) rfl).mono ?_ ?_
      · exact fun _ _ hr => hroom.1 hr
      · exact fun _ _ hr => ⟨fun hr' => hr.1 (hroom.2 hr'), hr.2⟩
    · have hroom : a.HasRoom := .inl ⟨i, hmem, s, hs, Bool.not_eq_true _ ▸ hret⟩
      have hpos : s.generation ≠ 0 := h.positive _ _ hs
      rw [if_neg hret, if_neg hpos, ends_pure]
      exact hroom

/-- A fork of a live record: a new record, or an arena without room. -/
theorem fork_room {parent : SequenceRecord} (h : a.WF) (hp : a.get id = some parent) : (fork id sinkId a).Ends False
    (fun childId a' => a.HasRoom ∧ Inserted a a' childId (forkRecord parent id childId sinkId))
    (fun _ a' => ¬ a.HasRoom ∧ a' = { a with freeSlots := [] }) := by
  unfold fork
  rw [ends_bind, ends_get, ends_bind, hp, ends_orFail_some, ends_bind]
  unfold allocateSlot
  rw [ends_bind, ends_get]
  refine ((allocateFrom_ends a.freeSlots a h rfl).and (allocateFrom_room a.freeSlots a h rfl)).mono ?_ fun _ _ hh => hh.2
  rintro childId a' ⟨hh, hroom⟩
  rw [ends_bind]
  exact (hh.setRecord (forkRecord parent id childId sinkId)).mono (fun _ a'' hs => ⟨hroom, hs⟩) fun _ _ hf => hf.elim

end SequenceArena

/-! ## Forks -/

/-- An error leaves the arena, the running sequences and the K/V manager as they were. -/
def Atomic {α : Type} (x : Prog AienScheduler String α) (s : AienScheduler) : Prop :=
  ∀ e s', x s = .err e s' → s'.arena = s.arena ∧ s'.runningSequences = s.runningSequences ∧ s'.kvManager = s.kvManager

/-- The parent is stale, or the arena has a slot and the K/V can be forked, or it has none and nothing on its stack. -/
def ForkKeeps (s : AienScheduler) (parentId : SequenceId) (forkable : Prop) : Prop :=
  s.arena.isStale parentId = true ∨ (s.arena.HasRoom ∧ forkable) ∨ (¬ s.arena.HasRoom ∧ s.arena.freeSlots = [])

section Forks
variable {α : Type} {s : AienScheduler} {parentId : SequenceId} {sinkId : Option CompletionSinkId}

/-- **The two parts of a fork.** With a K/V part that refuses exactly when the K/V cannot be forked, and then changes
nothing, a fork is atomic exactly when it does not get to that refusal. -/
theorem forkWith_atomic {kvPart : SequenceId → Prog AienKvManager String α} {forkable : Prop} (hwf : s.arena.WF)
    {parent : SequenceRecord} (hp : s.arena.get parentId = some parent)
    (hkv : ∀ childId, childId ≠ parentId → (kvPart childId s.kvManager).Ends forkable (fun _ _ => forkable)
      (fun _ m' => m' = s.kvManager ∧ ¬ forkable)) :
    Atomic (forkWith parentId sinkId kvPart) s ↔
      (s.arena.HasRoom ∧ forkable) ∨ (¬ s.arena.HasRoom ∧ s.arena.freeSlots = []) := by
  have hends : (forkWith parentId sinkId kvPart s).Ends (s.arena.HasRoom ∧ forkable)
      (fun _ _ => s.arena.HasRoom ∧ forkable) (fun _ s' =>
        s'.runningSequences = s.runningSequences ∧ s'.kvManager = s.kvManager ∧
        ((s.arena.HasRoom ∧ ¬ forkable ∧ s'.arena ≠ s.arena) ∨
          (¬ s.arena.HasRoom ∧ s'.arena = { s.arena with freeSlots := [] }))) := by
    unfold forkWith onArena
    rw [ends_bind, ends_zoom]
    refine ((SequenceArena.fork_room hwf hp).mono (fun childId arena h => ?_) fun _ _ h => ?_).weaken
    · obtain ⟨hroom, hins⟩ := h
      have hne : childId ≠ parentId := by
        rintro rfl
        rw [hins.absent] at hp
        cases hp
      unfold onKv
      rw [ends_bind, ends_orStrand, ends_zoom]
      refine (hkv childId hne).blame (fun hf => ⟨hroom, hf⟩) (fun _ _ hf => ⟨hroom, hf⟩) fun _ m' hf => ?_
      refine ⟨rfl, hf.1, .inl ⟨hroom, hf.2, fun heq => ?_⟩⟩
      -- the child's record is new
      have hself := hins.self
      rw [show arena = s.arena from heq, hins.absent] at hself
      cases hself
    · exact ⟨rfl, rfl, .inr h⟩
  cases ho : forkWith parentId sinkId kvPart s with
  | ok a s' =>
    rw [ho] at hends
    exact ⟨fun _ => .inl hends, fun _ e s' he => by rw [ho] at he; cases he⟩
  | panic =>
    rw [ho] at hends
    exact ⟨fun _ => .inl hends, fun _ e s' he => by rw [ho] at he; cases he⟩
  | err e s' =>
    rw [ho] at hends
    obtain ⟨hrun, hman, hcase⟩ := hends
    constructor
    · intro hat
      obtain ⟨harena, -, -⟩ := hat e s' ho
      rcases hcase with ⟨-, -, hne⟩ | ⟨hfull, heq⟩
      · exact absurd harena hne
      · exact .inr ⟨hfull, by rw [← harena, heq]⟩
    · intro hcond e' s'' he
      rw [ho] at he
      cases he
      rcases hcase with ⟨hroom, hno, -⟩ | ⟨hfull, heq⟩
      · rcases hcond with ⟨-, hf⟩ | ⟨hfull, -⟩
        · exact absurd hf hno
        · exact absurd hroom hfull
      · rcases hcond with ⟨hroom, -⟩ | ⟨-, hnil⟩
        · exact absurd hroom hfull
        · exact ⟨by rw [heq, ← hnil], hrun, hman⟩

theorem atomic_iff {x : Prog AienScheduler String α} : Atomic x s ↔ (x s).Ends True (fun _ _ => True) (fun _ s' =>
    s'.arena = s.arena ∧ s'.runningSequences = s.runningSequences ∧ s'.kvManager = s.kvManager) := by
  unfold Atomic
  cases x s with
  | ok a s' => exact ⟨fun _ => trivial, fun _ _ _ he => nomatch he⟩
  | panic => exact ⟨fun _ => trivial, fun _ _ _ he => nomatch he⟩
  | err e s' => exact ⟨fun h => h e s' rfl, fun h _ _ he => by cases he; exact h⟩

theorem forkFrom_atomic {β : Type} {kvPart : SequenceId → Prog AienKvManager String α} {forkable : Prop} {msg : String}
    {f : SequenceId × α → β} (hwf : s.arena.WF)
    (hkv : ∀ childId, childId ≠ parentId → (kvPart childId s.kvManager).Ends forkable (fun _ _ => forkable)
      (fun _ m' => m' = s.kvManager ∧ ¬ forkable)) :
    Outcome.Ends True (fun _ _ => True) (fun _ s' =>
      s'.arena = s.arena ∧ s'.runningSequences = s.runningSequences ∧ s'.kvManager = s.kvManager)
      ((if s.arena.isStale parentId then fail msg
        else forkWith parentId sinkId kvPart >>= fun r => pure (f r) : Prog AienScheduler String β) s) ↔
      ForkKeeps s parentId forkable := by
  unfold ForkKeeps
  cases hp : s.arena.get parentId with
  | none =>
    have hst : s.arena.isStale parentId = true := by rw [SequenceArena.isStale_eq, hp]; rfl
    rw [if_pos hst]
    exact ⟨fun _ => .inl hst, fun _ => ⟨rfl, rfl, rfl⟩⟩
  | some parent =>
    have hst : s.arena.isStale parentId = false := by rw [SequenceArena.isStale_eq, hp]; rfl
    have hne : ¬ s.arena.isStale parentId = true := by rw [hst]; exact Bool.false_ne_true
    rw [if_neg hne, ends_bind]
    refine (atomic_iff.symm.trans (forkWith_atomic hwf hp hkv)).trans ⟨.inr, fun h => h.resolve_left hne⟩

def HasTable (s : AienScheduler) (id : UInt64) : Prop := (s.kvManager.sequenceTables.lookup id).isSome

theorem toU64_ne {id id' : SequenceId} (h : id ≠ id') : id.toU64 ≠ id'.toU64 := by
  intro heq
  apply h
  rw [← SlotId.ofU64_toU64 id, heq, SlotId.ofU64_toU64]

theorem forkSequence_atomic (hwf : s.arena.WF) (parentId : SequenceId) (sinkId : Option CompletionSinkId) :
    Atomic (AienScheduler.forkSequence parentId sinkId) s ↔ ForkKeeps s parentId (HasTable s parentId.toU64) := by
  rw [atomic_iff]
  unfold AienScheduler.forkSequence
  rw [ends_bind, ends_get]
  refine forkFrom_atomic hwf fun childId hne => ?_
  refine (AienKvManager.forkSequence_refuses s.kvManager _ _).blame (fun h => h.1) (fun _ _ h => h.1) fun _ _ h => ?_
  exact ⟨h.1, fun ht => h.2 ⟨ht, (toU64_ne hne).symm⟩⟩

/-- The second try under the caller's ids comes after a first that changed nothing. -/
theorem forkKv_refuses {childId : SequenceId} (hne : childId ≠ parentId) (parentRaw childRaw : UInt64) :
    (forkKv parentId childId parentRaw childRaw s.kvManager).Ends
      (HasTable s parentId.toU64 ∨ (HasTable s parentRaw ∧ parentRaw ≠ childRaw))
      (fun _ _ => HasTable s parentId.toU64 ∨ (HasTable s parentRaw ∧ parentRaw ≠ childRaw))
      (fun _ m' => m' = s.kvManager ∧ ¬ (HasTable s parentId.toU64 ∨ (HasTable s parentRaw ∧ parentRaw ≠ childRaw))) := by
  unfold forkKv
  rw [ends_bind, ends_result]
  refine (AienKvManager.forkSequence_refuses s.kvManager _ _).blame (fun h => .inl h.1) (fun _ _ h => .inl h.1) ?_
  rintro _ m' ⟨rfl, hno⟩
  have hno' : ¬ HasTable s parentId.toU64 := fun ht => hno ⟨ht, (toU64_ne hne).symm⟩
  dsimp only
  rw [ends_bind]
  refine (AienKvManager.forkSequence_refuses _ _ _).blame (fun h => .inr h) (fun _ _ h => .inr h) fun _ _ h => ?_
  exact ⟨h.1, fun hor => hor.elim hno' h.2⟩

theorem forkSubagentWithSinkIds_atomic (hwf : s.arena.WF) (parentRaw childRaw : UInt64)
    (sinkId : Option CompletionSinkId) :
    Atomic (forkSubagentWithSinkIds parentRaw childRaw sinkId) s ↔ ∀ parentId, s.findParent parentRaw = some parentId →
      ForkKeeps s parentId (HasTable s parentId.toU64 ∨ (HasTable s parentRaw ∧ parentRaw ≠ childRaw)) := by
  rw [atomic_iff]
  unfold forkSubagentWithSinkIds
  rw [ends_bind, ends_get, ends_bind]
  cases s.findParent parentRaw with
  | none => exact ⟨fun _ _ hn => (nomatch hn), fun _ => ⟨rfl, rfl, rfl⟩⟩
  | some parentId =>
    rw [ends_orFail_some]
    refine (forkFrom_atomic hwf fun childId hne => forkKv_refuses hne parentRaw childRaw).trans ?_
    exact ⟨fun h _ he => Option.some.inj he ▸ h, fun h => h parentId rfl⟩

end Forks

open Engine

/-- **When a fork is atomic.** In every reachable state, whatever the backend, the hooks and other owners of the K/V
manager did: an error of `fork_sequence` leaves everything as it was exactly when the parent is stale, or the arena has
a slot for the child and the K/V manager a table for the parent, or the arena has no slot and nothing on its free
stack; an error of `fork_subagent_with_sink_ids` likewise, with a table under the ids of the second try as another way
to fork the K/V. -/
theorem forks_atomic {β : Type} (B : AienInferenceBackend β) (config : SchedulerConfig) (kvManager : AienKvManager)
    (backend : β) (calls : List Call) (e : Engine β) (hrun : run B (start config kvManager backend) calls = some e) :
    (∀ parentId sinkId, Atomic (AienScheduler.forkSequence parentId sinkId) e.sched ↔
      ForkKeeps e.sched parentId (HasTable e.sched parentId.toU64)) ∧
    ∀ parentRaw childRaw sinkId, Atomic (forkSubagentWithSinkIds parentRaw childRaw sinkId) e.sched ↔
      ∀ parentId, e.sched.findParent parentRaw = some parentId → ForkKeeps e.sched parentId
        (HasTable e.sched parentId.toU64 ∨ (HasTable e.sched parentRaw ∧ parentRaw ≠ childRaw)) := by
  have hpath : Path True _ _ := run_path (.inl trivial) hrun
  have hwf : e.sched.arena.WF := hpath.wf (SequenceArena.Start.wf .new)
  exact ⟨forkSequence_atomic hwf, forkSubagentWithSinkIds_atomic hwf⟩

/-- One request that has not been scheduled yet, or is after some calls. -/
def requestThen (calls : List Call) : Option (Engine Script) :=
  run Script.backend (start (plainConfig 0) (.new 8 2) ⟨[], []⟩) (.submitRequest (plainRequest 0 [10, 11] 8) :: calls)

/-- After a step the parent has its table, and an error of a fork would change nothing. -/
theorem forks_atomic_scheduled : ∃ e, requestThen [.step] = some e ∧
    Atomic (AienScheduler.forkSequence ⟨0, 1⟩ none) e.sched := by
  have hrun : (requestThen [.step]).any (fun e => (e.sched.kvManager.sequenceTables.lookup (SlotId.toU64 ⟨0, 1⟩)).isSome &&
      decide (e.sched.arena.slots.length < holderSlot.toNat)) = true := by decide +kernel
  obtain ⟨e, he, hok⟩ := Option.any_eq_true _ _ |>.1 hrun
  rw [Bool.and_eq_true] at hok
  refine ⟨e, he, ((forks_atomic Script.backend _ _ _ _ e he).1 ⟨0, 1⟩ none).2 (.inr (.inl ⟨.inr ?_, hok.1⟩))⟩
  exact of_decide_eq_true hok.2

/-- A request that still waits has no table: its fork fails, and the child stays in the arena. -/
theorem failed_fork_keeps_child : ∃ e msg s', requestThen [] = some e ∧
    AienScheduler.forkSequence ⟨0, 1⟩ none e.sched = .err msg s' ∧
    (e.sched.arena.get ⟨1, 1⟩).isNone ∧ (s'.arena.get ⟨1, 1⟩).isSome ∧
    ¬ Atomic (AienScheduler.forkSequence ⟨0, 1⟩ none) e.sched := by
  have hrun : (requestThen []).bind (fun e => match AienScheduler.forkSequence ⟨0, 1⟩ none e.sched with
      | .err _ s' => some ((e.sched.arena.get ⟨1, 1⟩).isNone, (s'.arena.get ⟨1, 1⟩).isSome)
      | _ => none) = some (true, true) := by decide +kernel
  obtain ⟨e, he, hrest⟩ := Option.bind_eq_some_iff.1 hrun
  split at hrest
  · next msg s' hcall =>
    obtain ⟨hnone, hsome⟩ := Prod.mk.inj (Option.some.inj hrest)
    refine ⟨e, msg, s', he, hcall, hnone, hsome, fun hat => ?_⟩
    rw [(hat msg s' hcall).1, Option.isSome_iff_ne_none] at hsome
    exact hsome (Option.isNone_iff_eq_none.1 hnone)
  · cases hrest

end SovereignCore.Sched
