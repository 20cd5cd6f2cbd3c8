import Mathlib.Logic.Relation
import SovereignCore.Sched.Step

/-!
# What a call is made of

Every call of the scheduler is a path of small moves. A `Stage` is the scheduler between two moves with what the call
holds in local variables, so a property of all runs is shown move by move.

* `Stage`, `Stage.rest` : the scheduler, and the batch, the ids to look at and the releases a call is busy with;
* `Move` : the moves; `lax` allows an explicit id that is not admitted;
* `Path` : any number of moves; `Path.keeps` : the rule for an invariant;
* `Move.wf` : the arena stays in order.
-/

namespace SovereignCore.Sched

open Prog Kv AienScheduler

/-- The scheduler in the middle of a call: `todo` are the running ids still to look at, `refused` what the gate turned
down, `prefills` and `decodes` the batch so far, `releasing` the backend releases still to do and `advancing` the
executed chunks still to count. -/
structure Stage where
  sched : AienScheduler
  todo : List SequenceId
  refused : List SequenceId
  prefills : List SequenceRequest
  decodes : List UInt64
  releasing : List UInt64
  advancing : List SequenceRequest

def Stage.rest (s : AienScheduler) : Stage where
  sched := s
  todo := []
  refused := []
  prefills := []
  decodes := []
  releasing := []
  advancing := []

/-- The table of `id` has computed K/V. -/
def tableReady (kv : AienKvManager) (id : UInt64) : Bool :=
  (kv.sequenceTables.lookup id).any fun t => t.prefillState.isReady

/-- The queues `w` and `p` are those of `s` without one entry `id`. -/
structure Takes (s : AienScheduler) (id : SequenceId) (w p : List SequenceId) : Prop where
  perm : (s.waitingQueue ++ s.preemptedQueue).Perm (id :: (w ++ p))
  waiting : w.Sublist s.waitingQueue
  preempted : p.Sublist s.preemptedQueue

/-- `l'` is `l` without some stale ids. -/
structure Sheds (a : SequenceArena) (l l' : List SequenceId) : Prop where
  sublist : l'.Sublist l
  live : ∀ id, (a.get id).isSome → l'.count id = l.count id

def told (s : AienScheduler) (sinkId : Option CompletionSinkId) (event : CompletionEvent) : List Event :=
  match sinkId with
  | none => []
  | some id => if id ∈ s.completionRouter.sinks then [.emitted id event] else []

/-- The fields a run is judged by. -/
structure SameCore (s s' : AienScheduler) : Prop where
  arena : s'.arena = s.arena
  waiting : s'.waitingQueue = s.waitingQueue
  preempted : s'.preemptedQueue = s.preemptedQueue
  running : s'.runningSequences = s.runningSequences
  pending : s'.pendingBackendReleases = s.pendingBackendReleases
  history : s'.history = s.history

/-- One move. -/
inductive Move (lax : Prop) : Stage → Stage → Prop
  /-- Something else changes: a counter, the sinks, the hook, or tables other than those of the batch. -/
  | aside (x : Stage) (s' : AienScheduler) (h : SameCore x.sched s')
      (hready : ∀ id ∈ x.decodes, tableReady x.sched.kvManager id → tableReady s'.kvManager id) :
      Move lax x { x with sched := s' }
  | purge (x : Stage) (w p r : List SequenceId) (hw : Sheds x.sched.arena x.sched.waitingQueue w)
      (hp : Sheds x.sched.arena x.sched.preemptedQueue p) (hr : Sheds x.sched.arena x.sched.runningSequences r)
      (hidle : x.todo = [] ∧ x.refused = []) :
      Move lax x { x with sched := { x.sched with waitingQueue := w, preemptedQueue := p, runningSequences := r } }
  | preempt (x : Stage) (id : SequenceId) (r : SequenceRecord) (cause : FreeCause) (hr : x.sched.arena.get id = some r)
      (hrun : id ∈ x.sched.runningSequences ∨ r.isPrefilled = true) (hidle : x = .rest x.sched) :
      Move lax x { x with sched := { x.sched with
        runningSequences := x.sched.runningSequences.erase id
        pendingBackendReleases := x.sched.pendingBackendReleases ++ [id]
        arena := x.sched.arena.getMut id fun r => r.reset .preempted
        preemptedQueue := x.sched.preemptedQueue ++ [id]
        history := x.sched.history ++ [.freed id cause] } }
  | look (x : Stage) (ids : List SequenceId) (h : ids.Perm x.sched.runningSequences) (hb : x.prefills = [] ∧ x.decodes = [])
      (hidle : x.refused = [] ∧ x.advancing = []) : Move lax x { x with todo := ids }
  | pass (x : Stage) (seen rest : List SequenceId) (h : x.todo = seen ++ rest) : Move lax x { x with todo := rest }
  | decode (x : Stage) (id : SequenceId) (rest : List SequenceId) (r : SequenceRecord) (h : x.todo = id :: rest)
      (hr : x.sched.arena.get id = some r) (hpre : r.isPrefilled = true)
      (hready : tableReady x.sched.kvManager id.toU64 = true) :
      Move lax x { x with todo := rest, decodes := x.decodes ++ [id.toU64] }
  | refuse (x : Stage) (id : SequenceId) (rest : List SequenceId) (r : SequenceRecord) (h : x.todo = id :: rest)
      (hr : x.sched.arena.get id = some r) (hpre : r.isPrefilled = true) :
      Move lax x { x with
        sched := { x.sched with arena := x.sched.arena.getMut id fun r => r.reset .waiting }
        todo := rest
        refused := x.refused ++ [id] }
  | chunk (x : Stage) (id : SequenceId) (rest : List SequenceId) (r : SequenceRecord) (length : Nat)
      (h : x.todo = id :: rest) (hr : x.sched.arena.get id = some r) (hpre : r.isPrefilled = false)
      (hlen : r.promptTokensPrefilled + length ≤ r.prefillInputLen) (hidle : x.advancing = []) :
      Move lax x { x with todo := rest,
                           prefills := x.prefills ++ [chunkRequest id r r.promptTokensPrefilled length] }
  | requeue (x : Stage) (id : SequenceId) (rest : List SequenceId) (h : x.refused = id :: rest) (hidle : x.todo = []) :
      Move lax x { x with
        sched := { x.sched with
          runningSequences := x.sched.runningSequences.filter (· ≠ id)
          pendingBackendReleases := x.sched.pendingBackendReleases ++ [id]
          waitingQueue := id :: x.sched.waitingQueue
          history := x.sched.history ++ [.freed id .gateRefusal] }
        refused := rest }
  | admitReady (x : Stage) (id : SequenceId) (r : SequenceRecord) (w p : List SequenceId) (ht : Takes x.sched id w p)
      (hr : x.sched.arena.get id = some r) (hready : tableReady x.sched.kvManager id.toU64 = true)
      (hidle : x.todo = [] ∧ x.refused = []) :
      Move lax x { x with
        sched := { x.sched with
          waitingQueue := w
          preemptedQueue := p
          arena := x.sched.arena.getMut id fun r' =>
            { r' with isPrefilled := true, phase := .decode, promptTokensPrefilled := r.prefillInputLen }
          runningSequences := x.sched.runningSequences ++ [id] }
        decodes := x.decodes ++ [id.toU64] }
  | admitPrefill (x : Stage) (id : SequenceId) (r : SequenceRecord) (w p : List SequenceId) (length : Nat)
      (ht : Takes x.sched id w p) (hr : x.sched.arena.get id = some r) (hlen : length ≤ r.prefillInputLen)
      (hidle : x.todo = [] ∧ x.refused = [] ∧ x.advancing = []) :
      Move lax x { x with
        sched := { x.sched with
          waitingQueue := w
          preemptedQueue := p
          arena := x.sched.arena.getMut id fun r' => { r' with phase := .prefill }
          history := x.sched.history ++ [.started id 0 r.prefillInput]
          runningSequences := x.sched.runningSequences ++ [id] }
        prefills := x.prefills ++ [chunkRequest id r 0 length] }
  | lose (x : Stage) (id : SequenceId) (w p : List SequenceId) (ht : Takes x.sched id w p)
      (hidle : x.todo = [] ∧ x.refused = []) :
      Move lax x { x with sched := { x.sched with
        waitingQueue := w
        preemptedQueue := p
        history := x.sched.history ++ [.stranded id] } }
  | takeReleases (x : Stage) (h : x.releasing = []) :
      Move lax x { x with
        sched := { x.sched with pendingBackendReleases := [] }
        releasing := x.sched.pendingBackendReleases.map SlotId.toU64 }
  | release (x : Stage) (id : UInt64) (rest : List UInt64) (h : x.releasing = id :: rest) :
      Move lax x { x with
        sched := { x.sched with history := x.sched.history ++ [.released id true] }
        releasing := rest }
  | refuseRelease (x : Stage) (id : UInt64) (rest : List UInt64) (h : x.releasing = id :: rest) :
      Move lax x { x with
        sched := { x.sched with history := x.sched.history ++ [.released id false] }
        releasing := [] }
  | execute (x : Stage) (batch : ScheduledBatch) (ok : Bool) (hp : batch.prefillRequests = x.prefills)
      (hd : batch.decodeRequests = x.decodes) (hrel : x.releasing = [] ∧ x.sched.pendingBackendReleases = [])
      (hidle : x.todo = [] ∧ x.refused = [] ∧ x.advancing = []) :
      Move lax x { x with
        sched := { x.sched with history := x.sched.history ++ [.executed batch x.sched.kvManager ok] }
        prefills := []
        decodes := []
        advancing := if ok then x.prefills else [] }
  | advanceNone (x : Stage) (req : SequenceRequest) (rest : List SequenceRequest) (h : x.advancing = req :: rest)
      (hr : ∀ id r, SlotId.toU64 id = req.requestId → x.sched.arena.get id = some r → r.isPrefilled = true) :
      Move lax x { x with advancing := rest }
  | advance (x : Stage) (id : SequenceId) (r : SequenceRecord) (req : SequenceRequest) (rest : List SequenceRequest)
      (h : x.advancing = req :: rest) (hid : SlotId.toU64 id = req.requestId) (hr : x.sched.arena.get id = some r)
      (hpre : r.isPrefilled = false) (hlt : r.promptTokensPrefilled + req.promptTokens.length < r.prefillInputLen)
      (hidle : x.prefills = []) :
      Move lax x { x with
        sched := { x.sched with arena := x.sched.arena.getMut id fun r' =>
          { r' with promptTokensPrefilled := r.promptTokensPrefilled + req.promptTokens.length } }
        advancing := rest }
  | fence (x : Stage) (id : SequenceId) (r : SequenceRecord) (req : SequenceRequest) (rest : List SequenceRequest)
      (h : x.advancing = req :: rest) (hid : SlotId.toU64 id = req.requestId) (hr : x.sched.arena.get id = some r)
      (hpre : r.isPrefilled = false) (hle : r.prefillInputLen ≤ r.promptTokensPrefilled + req.promptTokens.length)
      (hidle : x.prefills = []) :
      Move lax x { x with
        sched := { x.sched with
          arena := x.sched.arena.getMut id fun r' =>
            { r' with promptTokensPrefilled := r.promptTokensPrefilled + req.promptTokens.length,
                      isPrefilled := true, phase := .decode }
          history := x.sched.history ++ [.fenced id r.prefillInput] }
        advancing := rest }
  | token (x : Stage) (id : SequenceId) (r : SequenceRecord) (tok : UInt32) (hr : x.sched.arena.get id = some r)
      (hpre : r.isPrefilled = true) (hidle : x = .rest x.sched) :
      Move lax x { x with sched := { x.sched with
        arena := x.sched.arena.getMut id fun r' =>
          { r' with tokensGenerated := r'.tokensGenerated + 1, generatedTokens := r'.generatedTokens ++ [tok] }
        history := x.sched.history ++ told x.sched r.sinkId (.token id tok) } }
  | reportPreempted (x : Stage) (id : SequenceId) (sinkId : Option CompletionSinkId) (total : Nat)
      (decoding : Option DecodeObservation) (ops : Option OpEvidence)
      (h : .freed id (.failedAppend sinkId) ∈ x.sched.history) (hidle : x = .rest x.sched) :
      Move lax x { x with sched := { x.sched with
        history := x.sched.history ++ told x.sched sinkId (.finished id .preempted total decoding ops) } }
  | finish (x : Stage) (id : SequenceId) (r : SequenceRecord) (reason : FinishReason) (total : Nat)
      (decoding : Option DecodeObservation) (ops : Option OpEvidence) (hr : x.sched.arena.get id = some r)
      (hidle : x = .rest x.sched) :
      Move lax x { x with sched := { x.sched with
        runningSequences := x.sched.runningSequences.erase id
        arena := (x.sched.arena.freeSequence id).2
        history := x.sched.history ++ told x.sched r.sinkId (.finished id reason total decoding ops) } }
  | abandon (x : Stage) (h : x.todo = [] ∧ x.refused = [] ∧ x.advancing = []) :
      Move lax x { x with prefills := [], decodes := [] }
  | submit (x : Stage) (id : SequenceId) (params : SequenceParams) (arena : SequenceArena)
      (h : SequenceArena.Inserted x.sched.arena arena id (.new id params)) (hidle : x = .rest x.sched) :
      Move lax x { x with sched := { x.sched with arena, waitingQueue := x.sched.waitingQueue ++ [id] } }
  | submitOver (x : Stage) (id : SequenceId) (arena : SequenceArena) (hover : lax) (hwf : arena.WF)
      (hidle : x = .rest x.sched) :
      Move lax x { x with sched := { x.sched with arena, waitingQueue := x.sched.waitingQueue ++ [id] } }
  | idle (x : Stage) (arena : SequenceArena) (h : SequenceArena.Idle x.sched.arena.toSlots arena.toSlots)
      (hidle : x = .rest x.sched) : Move lax x { x with sched := { x.sched with arena } }
  | fork (x : Stage) (parentId id : SequenceId) (parent : SequenceRecord) (sinkId : Option CompletionSinkId)
      (arena : SequenceArena) (hparent : x.sched.arena.get parentId = some parent)
      (h : SequenceArena.Inserted x.sched.arena arena id (SequenceArena.forkRecord parent parentId id sinkId))
      (hidle : x = .rest x.sched) :
      Move lax x { x with sched := { x.sched with
        arena
        history := x.sched.history ++ [.started id parent.promptTokensPrefilled parent.prefillInput]
        runningSequences := x.sched.runningSequences ++ [id] } }
  | forkLost (x : Stage) (parentId id : SequenceId) (parent : SequenceRecord) (sinkId : Option CompletionSinkId)
      (arena : SequenceArena) (hparent : x.sched.arena.get parentId = some parent)
      (h : SequenceArena.Inserted x.sched.arena arena id (SequenceArena.forkRecord parent parentId id sinkId))
      (hidle : x = .rest x.sched) :
      Move lax x { x with sched := { x.sched with arena, history := x.sched.history ++ [.stranded id] } }
  | phase (x : Stage) (id : SequenceId) (phase : SequencePhase) (hidle : x = .rest x.sched) :
      Move lax x { x with sched := { x.sched with arena := x.sched.arena.getMut id fun r => { r with phase } } }
  | restore (x : Stage) (id : SequenceId) (r : SequenceRecord) (restored : Nat) (hr : x.sched.arena.get id = some r)
      (hlt : 0 < restored ∧ restored < r.prompt.length) (hw : id ∈ x.sched.waitingQueue) (hidle : x = .rest x.sched) :
      Move lax x { x with sched := { x.sched with
        waitingQueue := x.sched.waitingQueue.erase id
        arena := x.sched.arena.getMut id fun r' =>
          { r' with phase := .prefill, promptTokensPrefilled := restored, isPrefilled := false }
        history := x.sched.history ++ [.started id restored r.prefillInput]
        runningSequences := x.sched.runningSequences ++ [id] } }

/-- Any number of moves. -/
abbrev Path (lax : Prop) : Stage → Stage → Prop := Relation.ReflTransGen (Move lax)

variable {lax : Prop} {x y z : Stage} {s s' : AienScheduler}

theorem Path.keeps {P : Stage → Prop} (h : Path lax x y) (hmove : ∀ {x y}, Move lax x y → P x → P y) (hx : P x) :
    P y := by
  induction h with
  | refl => exact hx
  | tail _ hm ih => exact hmove hm ih

theorem Move.grows (h : Move lax x y) : x.sched.history <+: y.sched.history := by
  cases h with
  | aside s' h => exact h.history ▸ List.prefix_rfl
  | preempt | requeue | admitPrefill | release | refuseRelease | execute | fence | token | reportPreempted | finish |
    fork | forkLost | lose | restore => exact List.prefix_append _ _
  | purge | look | pass | decode | refuse | chunk | admitReady | takeReleases | advanceNone | advance | abandon |
    submit | submitOver | idle | phase => exact List.prefix_rfl

theorem Move.wf (h : Move lax x y) (hx : x.sched.arena.WF) : y.sched.arena.WF := by
  cases h with
  | aside s' h => exact h.arena ▸ hx
  | preempt | refuse | admitReady | admitPrefill | advance | fence | token | phase | restore =>
    exact SequenceArena.wf_getMut hx
  | finish => exact SequenceArena.freeSequence_wf hx
  | submit id params arena h => exact h.wf
  | fork parentId id parent sinkId arena hparent h => exact h.wf
  | forkLost parentId id parent sinkId arena hparent h => exact h.wf
  | submitOver id arena hover hwf => exact hwf
  | idle arena h => exact h.wf
  | purge | look | pass | decode | chunk | requeue | lose | takeReleases | release | refuseRelease | execute |
    advanceNone | reportPreempted | abandon => exact hx

theorem Path.wf (h : Path lax x y) (hx : x.sched.arena.WF) : y.sched.arena.WF :=
  h.keeps (fun hm => hm.wf) hx

theorem Move.onward (h : Move False x y) : x.sched.arena.toSlots.Onward y.sched.arena.toSlots := by
  cases h with
  | aside s' h => exact h.arena ▸ .refl _
  | preempt | refuse | admitReady | admitPrefill | advance | fence | token | phase | restore =>
    exact SequenceArena.onward_getMut
  | finish => exact SequenceArena.onward_freeSequence
  | submit id params arena h => exact h.onward
  | fork parentId id parent sinkId arena hparent h => exact h.onward
  | forkLost parentId id parent sinkId arena hparent h => exact h.onward
  | submitOver id arena hover => exact hover.elim
  | idle arena h => exact h.onward
  | purge | look | pass | decode | chunk | requeue | lose | takeReleases | release | refuseRelease | execute |
    advanceNone | reportPreempted | abandon => exact .refl _

end SovereignCore.Sched
