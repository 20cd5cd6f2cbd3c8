import SovereignCore.Harness.State

/-!
# Scheduler state and event application

The pure core of the provisional scheduler: `apply` reads the current state, the configuration and one journal entry,
and never touches the store or the clock. A refused event changes nothing, so an error carries no state.

* `setState` : the only place a task changes state;
* `affected` : the tasks an upstream change reaches;
* `revokeDescendants`, `guardCommit` : the cascade, and what holds it back while a commit runs;
* `pump` : fills the ready queue and dispatches from its head;
* `apply` : one event, then the pump, then the bookkeeping.
-/

namespace SovereignCore.Harness

open Std

structure Core where
  graph : DependencyGraph := {}
  tasks : ExtTreeMap String TaskEntry := ∅
  queue : List String := []
  pool : PermitPool := {}
  seen : Seen := {}
  approvals : ExtTreeMap String ApprovalBinding := ∅
  seq : Nat := 0
  lastAt : UInt64 := 0

/-- The state while an event is applied, with what it did so far. -/
structure Exec where
  core : Core
  fx : Effects := {}

/-! ## Lookups and checks -/

namespace Core

def task (c : Core) (id : String) : Except SchedError TaskEntry :=
  match c.tasks[id]? with
  | some t => .ok t
  | none => .error (.unknownTask id)

/-- `task_mut` followed by an assignment to the entry. -/
def taskMut (c : Core) (id : String) (f : TaskEntry → TaskEntry) : Except SchedError Core := do
  let t ← c.task id
  return { c with tasks := c.tasks.insert id (f t) }

def requireGeneration (c : Core) (id : String) (generation : UInt64) : Except SchedError Unit := do
  let t ← c.task id
  if generation < t.generation then .error (.staleGeneration id generation t.generation)
  else if t.generation < generation then .error (.futureGeneration id generation t.generation)
  else .ok ()

def requireState (c : Core) (id : String) (ok : TaskState → Bool) (action : String) : Except SchedError Unit := do
  let t ← c.task id
  if ok t.state then .ok () else .error (.wrongState id t.state action)

/-! ## State changes -/

/-- The entry of a task that moves to `target`: its time is charged, and leaving `provisional` ends its lease. -/
def moved (t : TaskEntry) (target : TaskState) (now : UInt64) : TaskEntry :=
  { t with
    timing := t.timing.close t.state now
    leaseExpiresAt := if t.state.holdsPermits && !target.holdsPermits then none else t.leaseExpiresAt
    state := target }

/-- The only place a task changes state. Leaving `provisional` releases the task's permits and lease. -/
def setState (c : Core) (id : String) (target : TaskState) (now : UInt64) : Except SchedError Core := do
  let t ← c.task id
  match checkTransition t.state target with
  | .error e => .error (.transition e)
  | .ok () =>
    return { c with
      pool := if t.state.holdsPermits && !target.holdsPermits then c.pool.release t.resources else c.pool
      tasks := c.tasks.insert id (moved t target now) }

def dequeue (c : Core) (id : String) : Core :=
  match c.tasks[id]? with
  | some t =>
    if t.queued then
      { c with tasks := c.tasks.insert id { t with queued := false }, queue := c.queue.filter (· ≠ id) }
    else c
  | none => c

def clearWork (t : TaskEntry) (reason : String) : TaskEntry :=
  { t with
    interface := none
    completion := none
    bindings := ∅
    provisionalResult := none
    lastReason := some reason }

/-! ## What an upstream change reaches -/

def commitTerminal (c : Core) (id : String) : Bool := c.tasks[id]?.any fun t => t.state.isCommitTerminal

/-- Pops enough for every walk of the graph: one for each edge and one for each first consumer. -/
def walkFuel (c : Core) (id : String) : Nat :=
  (c.graph.consumersOf id).length + (c.graph.consumers.keys.map fun n => (c.graph.consumersOf n).length).sum

/-- Descendants of `id` that an upstream change reaches, breadth-first, excluding `id`. A `committed` or
`commitUncertain` task is done: it is neither returned nor walked through. -/
def affected (c : Core) (id : String) : List String :=
  Search.visit c.graph.consumersOf c.commitTerminal (c.walkFuel id) (c.graph.consumersOf id) []

/-- The `committing` task an upstream change of `id` would reach. -/
def committingBelow (c : Core) (id : String) : Option String :=
  (c.affected id).find? fun d => c.tasks[d]?.any fun t => t.state = .committing

def guardDescendants (c : Core) (id : String) : Except SchedError Unit :=
  match c.committingBelow id with
  | some committing => .error (.commitInProgress id committing)
  | none => .ok ()

/-- Refuse an event that would change `id` itself while it is `committing`, or reach a `committing` task below it. -/
def guardCommit (c : Core) (id : String) : Except SchedError Unit := do
  let t ← c.task id
  if t.state = .committing then .error (.commitInProgress id id) else c.guardDescendants id

/-- A `committing` task in the same chain as `id`, upstream or downstream, other than `id`. -/
def commitInChain (c : Core) (id : String) : Option String :=
  match c.committingBelow id with
  | some committing => some committing
  | none =>
    (((c.tasks.toList.filter fun e => e.2.state = .committing && e.1 ≠ id).map (·.1)).find? fun other =>
      id ∈ c.affected other)

/-! ## Eligibility -/

def ready (cfg : ProvisionalConfig) (pt : TaskEntry) : Bool := pt.finalReady || (cfg.enabled && pt.interfaceReady)

def eligible (c : Core) (cfg : ProvisionalConfig) (id : String) : Bool :=
  match c.tasks[id]? with
  | none => false
  | some t => t.state = .blocked && (c.graph.producersOf id).all fun p => c.tasks[p]?.any (ready cfg)

def bindingOf (pt : TaskEntry) : Option Binding :=
  if pt.finalReady then pt.completion.map fun claim => ⟨pt.generation, .final, claim⟩
  else pt.interface.map fun claim => ⟨pt.generation, .interface, claim⟩

/-- Add the binding to producer `p`, if it offers one. -/
def bindTo (c : Core) (out : ExtTreeMap String Binding) (p : String) : ExtTreeMap String Binding :=
  match c.tasks[p]?.bind bindingOf with
  | some b => out.insert p b
  | none => out

def bindingsFor (c : Core) (id : String) : ExtTreeMap String Binding := (c.graph.producersOf id).foldl c.bindTo ∅

end Core

/-! ## Revocation -/

namespace Exec

def resetToBlocked (x : Exec) (id : String) (generation : UInt64) (now : UInt64) (reason : String) :
    Except SchedError Exec := do
  let t ← x.core.task id
  let c ← (if t.state ≠ .blocked then x.core.setState id .blocked now else .ok x.core)
  let c ← c.taskMut id fun t => Core.clearWork
    { t with generation, timing := { t.timing with revocations := t.timing.revocations + 1 } } reason
  return { core := c, fx := { x.fx with revoked := x.fx.revoked ++ [id] } }

def abort (x : Exec) (id : String) (now : UInt64) (reason : String) : Except SchedError Exec := do
  let c ← (x.core.dequeue id).setState id .aborted now
  let c ← c.taskMut id fun t => Core.clearWork t reason
  return { core := c, fx := { x.fx with aborted := x.fx.aborted ++ [id] } }

/-- One descendant of a revocation: an active one returns to `blocked` at the next generation, any other only leaves
the queue. -/
def revokeOne (producer : String) (now : UInt64) (reason : String) (x : Exec) (d : String) :
    Except SchedError Exec := do
  let t ← x.core.task d
  if t.state.isActive then
    x.resetToBlocked d (t.generation + 1) now s!"{reason} (upstream '{producer}')"
  else return { x with core := x.core.dequeue d }

/-- Return every active descendant of `producer` to `blocked` at a new generation. -/
def revokeDescendants (x : Exec) (producer : String) (now : UInt64) (reason : String) : Except SchedError Exec := do
  x.core.guardDescendants producer
  (x.core.affected producer).foldlM (revokeOne producer now reason) x

/-! ## Dispatch -/

def started (cfg : ProvisionalConfig) (now : UInt64) (bindings : ExtTreeMap String Binding) (t : TaskEntry) :
    TaskEntry :=
  { t with
    queued := false
    bindings
    leaseExpiresAt := some (satAdd64 now cfg.leaseTtl)
    lastBeat := 0
    timing := { t.timing with
      dispatches := t.timing.dispatches + 1
      firstDispatchAt := t.timing.firstDispatchAt.or (some now) } }

def dispatch (cfg : ProvisionalConfig) (now : UInt64) (x : Exec) (head : String) : Except SchedError Exec := do
  let bindings := x.core.bindingsFor head
  let c ← x.core.setState head .provisional now
  let c ← c.taskMut head (started cfg now bindings)
  return { core := c, fx := { x.fx with dispatched := x.fx.dispatched ++ [head] } }

def dropStale (cfg : ProvisionalConfig) (c : Core) : Core :=
  (c.queue.filter fun id => !c.eligible cfg id).foldl Core.dequeue c

def fillQueue (cfg : ProvisionalConfig) : List String → Core → Except SchedError Core
  | [], c => .ok c
  | id :: rest, c =>
    if cfg.queueCapacity ≤ c.queue.length then .ok c
    else do
      let c ← Core.taskMut { c with queue := c.queue ++ [id] } id fun t => { t with queued := true }
      fillQueue cfg rest c

/-- The tasks that are eligible and not yet queued, in task-id order. -/
def readyTasks (cfg : ProvisionalConfig) (c : Core) : List String :=
  (c.tasks.toList.filter fun e => !e.2.queued && c.eligible cfg e.1).map (·.1)

/-- Dispatch from the head of the queue while permits allow (head-of-line, no reordering). The flag says whether
anything was dispatched. -/
def drain (cfg : ProvisionalConfig) (now : UInt64) : Nat → Exec → Bool → Except SchedError (Exec × Bool)
  | 0, x, progressed => .ok (x, progressed)
  | fuel + 1, x, progressed =>
    match x.core.queue with
    | [] => .ok (x, progressed)
    | head :: rest => do
      let t ← x.core.task head
      match x.core.pool.tryAcquire cfg.limits t.resources with
      | none => .ok (x, progressed)
      | some pool => do
        let x ← dispatch cfg now { x with core := { x.core with queue := rest, pool } } head
        drain cfg now fuel x true

def pumpRound (cfg : ProvisionalConfig) (now : UInt64) (x : Exec) : Except SchedError (Exec × Bool) := do
  let c := dropStale cfg x.core
  let c ← fillQueue cfg (readyTasks cfg c) c
  drain cfg now c.queue.length { x with core := c } false

def pumpLoop (cfg : ProvisionalConfig) (now : UInt64) : Nat → Exec → Except SchedError Exec
  | 0, x => .ok x
  | fuel + 1, x => do
    let r ← pumpRound cfg now x
    if r.2 then pumpLoop cfg now fuel r.1 else .ok r.1

/-- Fill the bounded ready queue in task-id order, then dispatch from its head, until a pass dispatches nothing. Each
other pass takes a task out of `blocked`, so the number of tasks bounds the passes. -/
def pump (cfg : ProvisionalConfig) (now : UInt64) (x : Exec) : Except SchedError Exec :=
  pumpLoop cfg now (x.core.tasks.size + 1) x

end Exec

/-! ## Events -/

namespace Core

variable (cfg : ProvisionalConfig) (c : Core) (now : UInt64)

def onRegisterTask (task : String) (resources : ResourceRequest) (producers : List String) :
    Except SchedError Exec := do
  (checkIdentifier "task" task).mapError bad
  if !cfg.limits.admits resources then .error (.exceedsCapacity task) else
  let g ← (c.graph.addNode task).mapError .graph
  let g ← (DependencyGraph.addEdges task producers g).mapError .graph
  return { core := { c with graph := g, tasks := c.tasks.insert task (TaskEntry.new resources now) } }

def onAddDependency (producer consumer : String) : Except SchedError Exec := do
  (c.graph.checkEdge producer consumer).mapError .graph
  c.requireState consumer (· = .blocked) "gain a dependency"
  let g ← (c.graph.addEdge producer consumer).mapError .graph
  return { core := Core.dequeue { c with graph := g } consumer }

def slot (level : BindingLevel) (t : TaskEntry) : Option ProofClaim :=
  match level with
  | .interface => t.interface
  | .final => t.completion

def setSlot (level : BindingLevel) (claim : ProofClaim) (t : TaskEntry) : TaskEntry :=
  match level with
  | .interface => { t with interface := some claim }
  | .final => { t with completion := some claim }

/-- `InterfacePublished` and `CompletionVerified`: accept a claim; a changed one revokes the consumers. -/
def onProof (level : BindingLevel) (task : String) (generation : UInt64) (claim : ProofClaim) :
    Except SchedError Exec := do
  c.requireGeneration task generation
  c.requireState task TaskState.isActive "publish proof"
  let t ← c.task task
  let changed := (slot level t).isSome && slot level t ≠ some claim
  let c' ← c.taskMut task (setSlot level claim)
  if changed then Exec.revokeDescendants { core := c' } task now "producer proof changed"
  else return { core := c' }

def onNewGeneration (task : String) (generation : UInt64) : Except SchedError Exec := do
  let t ← c.task task
  if generation ≤ t.generation then .error (.staleGeneration task generation t.generation) else
  c.requireState task (· ≠ .aborted) "start a new generation (use retry)"
  c.guardCommit task
  let x ← Exec.resetToBlocked { core := c } task generation now "new generation"
  x.revokeDescendants task now "producer new generation"

def onProducerFailed (task : String) (generation : UInt64) (reason : String) : Except SchedError Exec := do
  c.requireGeneration task generation
  c.requireState task (· ≠ .aborted) "fail"
  c.guardCommit task
  let x ← Exec.abort { core := c } task now s!"failed: {reason}"
  x.revokeDescendants task now "producer failed"

def onWorkDone (task : String) (generation : UInt64) (resultDigest : String) : Except SchedError Exec := do
  c.requireGeneration task generation
  c.requireState task (· = .provisional) "report work done"
  let t ← c.task task
  if !t.leaseValid now then .error (.leaseExpired task) else
  if resultDigest.isEmpty then .error (bad "result_digest is empty") else
  let c' ← c.setState task .awaitingFinalProof now
  let c' ← c'.taskMut task fun t => { t with provisionalResult := some resultDigest }
  return { core := c' }

/-- Whether `task` is bound to producer `p` at its current generation, and `p` is final. -/
def checkProducerFinal (task : String) (p : String) : Except SchedError Unit := do
  let pt ← c.task p
  let t ← c.task task
  if t.bindings[p]?.map (·.generation) ≠ some pt.generation ∨ !pt.finalReady then
    .error (.producerNotFinal p "not committable with a completion at the bound generation")
  else .ok ()

def onFinalize (task : String) (generation : UInt64) : Except SchedError Exec := do
  c.requireGeneration task generation
  c.requireState task (· = .awaitingFinalProof) "finalize"
  (c.graph.producersOf task).forM (c.checkProducerFinal task)
  let c' ← c.setState task .committable now
  let c' ← c'.taskMut task fun t => { t with timing := { t.timing with committableAt := some now } }
  return { core := c' }

def onHeartbeat (task : String) (generation beat : UInt64) : Except SchedError Exec := do
  c.requireGeneration task generation
  c.requireState task (· = .provisional) "heartbeat"
  let t ← c.task task
  if !t.leaseValid now then .error (.leaseExpired task) else
  if beat ≤ t.lastBeat then .error (.staleHeartbeat task beat t.lastBeat) else
  let c' ← c.taskMut task fun t => { t with lastBeat := beat, leaseExpiresAt := some (satAdd64 now cfg.leaseTtl) }
  return { core := c' }

def cancelOne (task : String) (x : Exec) (d : String) : Except SchedError Exec := do
  let t ← x.core.task d
  if t.state ≠ .aborted then x.abort d now s!"ancestor '{task}' cancelled" else return x

def onCancel (task : String) (generation : UInt64) : Except SchedError Exec := do
  c.requireGeneration task generation
  c.requireState task (· ≠ .aborted) "cancel"
  c.guardCommit task
  let x ← Exec.abort { core := c } task now "cancelled"
  (x.core.affected task).foldlM (cancelOne now task) x

def onRetry (task : String) (generation : UInt64) : Except SchedError Exec := do
  c.requireGeneration task generation
  c.requireState task (· = .aborted) "retry"
  let c' ← c.setState task .blocked now
  let c' ← c'.taskMut task fun t => clearWork { t with generation := t.generation + 1 } "retry"
  return { core := c' }

def revokeTask (x : Exec) (task : String) (generation : UInt64) (reason : String) : Except SchedError Exec := do
  let x ← x.resetToBlocked task (generation + 1) now reason
  x.revokeDescendants task now reason

def onRevoke (task : String) (generation : UInt64) (reason : String) : Except SchedError Exec := do
  c.requireGeneration task generation
  c.requireState task TaskState.isActive "be revoked"
  let t ← c.task task
  revokeTask now { core := c } task t.generation reason

/-- One entry of an audit; earlier entries may already have revoked it. -/
def auditOne (x : Exec) (r : Revocation) : Except SchedError Exec := do
  let t ← x.core.task r.task
  if t.state.isActive then revokeTask now x r.task t.generation r.reason else return x

def onAuditRevoke (revocations : List Revocation) : Except SchedError Exec :=
  match revocations with
  | [] => .error (bad "empty audit revoke")
  | first :: _ => do
    c.requireState first.task TaskState.isActive "be revoked"
    revocations.foldlM (auditOne now) { core := c }

/-- Running tasks whose lease ran out. An expiry that would reach a running commit waits for its outcome. -/
def expired : List String :=
  ((c.tasks.toList.filter fun e => e.2.state = .provisional && !e.2.leaseValid now).map (·.1)).filter fun id =>
    (c.guardCommit id).isOk

def expireOne (x : Exec) (id : String) : Except SchedError Exec := do
  let t ← x.core.task id
  if t.state = .provisional then do
    let x ← x.abort id now "lease expired"
    x.revokeDescendants id now "producer lease expired"
  else return x

def onTick : Except SchedError Exec := (c.expired now).foldlM (expireOne now) { core := c }

/-- Whether producer `p` is final with exactly the completion the commit names. -/
def checkFrozen (e : String × ProofClaim) : Except SchedError Unit := do
  let pt ← c.task e.1
  if ¬ (pt.state = .committable ∨ pt.state = .committed) ∨ pt.completion ≠ some e.2 then
    .error (.producerNotFinal e.1 ("state " ++ pt.state.asStr ++
      s!", completion differs from the begin_commit input: {decide (pt.completion ≠ some e.2)}"))
  else .ok ()

def onBeginCommit (task : String) (generation : UInt64) (completion : ProofClaim)
    (producers : ExtTreeMap String ProofClaim) : Except SchedError Exec := do
  c.requireGeneration task generation
  c.requireState task (· = .committable) "begin a commit"
  match c.commitInChain task with
  | some committing => .error (.commitInProgress task committing)
  | none =>
    let t ← c.task task
    if t.completion ≠ some completion then
      .error (bad s!"begin_commit completion for '{task}' is not its accepted completion") else
    let expected := c.graph.producersOf task
    if expected.length ≠ producers.size ∨ expected.any fun p => !producers.contains p then
      .error (bad s!"begin_commit for '{task}' must name exactly its producers") else
    producers.toList.forM c.checkFrozen
    let c' ← c.setState task .committing now
    let c' ← c'.taskMut task fun t => { t with commit := some { completion, producers, beganAt := now } }
    return { core := c' }

def onCommitOutcome (task : String) (generation : UInt64) (outcome : CommitResult) : Except SchedError Exec := do
  c.requireGeneration task generation
  c.requireState task (· = .committing) "record a commit outcome"
  match outcome with
  | .committed detail =>
    let c' ← c.setState task .committed now
    let c' ← c'.taskMut task fun t => { t with lastReason := some s!"committed: {detail}" }
    return { core := c' }
  | .failed reason =>
    let x ← Exec.abort { core := c } task now s!"commit failed: {reason}"
    x.revokeDescendants task now "producer commit failed"
  | .uncertain reason =>
    let x ← Exec.revokeDescendants { core := c } task now "producer commit uncertain"
    let c' ← x.core.setState task .commitUncertain now
    let c' ← c'.taskMut task fun t => { t with lastReason := some s!"commit uncertain: {reason}" }
    return { x with core := c' }

def onBindApproval (key task : String) (generation : UInt64) : Except SchedError Exec := do
  if key.isEmpty ∨ maxApprovalKeyLen < key.utf8ByteSize then
    .error (bad s!"bind_approval key must be 1 to {maxApprovalKeyLen} bytes") else
  c.requireGeneration task generation
  c.requireState task (fun s => !bindingEnded s) "bind a request to a task that already ended"
  let rebind := c.approvals[key]?.any fun b => b.task = task
  let held := (c.approvals.values.filter fun b => b.task = task).length
  if !rebind ∧ maxApprovalBindingsPerTask ≤ held then .error (.bindingsFull task maxApprovalBindingsPerTask) else
  return { core := { c with approvals := c.approvals.insert key { task, generation } } }

def applyKind (kind : EventKind) : Except SchedError Exec :=
  match kind with
  | .registerTask task resources producers => c.onRegisterTask cfg now task resources producers
  | .addDependency producer consumer => c.onAddDependency producer consumer
  | .interfacePublished task generation claim => c.onProof now .interface task generation claim
  | .completionVerified task generation claim => c.onProof now .final task generation claim
  | .newGeneration task generation => c.onNewGeneration now task generation
  | .producerFailed task generation reason => c.onProducerFailed now task generation reason
  | .workDone task generation resultDigest => c.onWorkDone now task generation resultDigest
  | .finalize task generation => c.onFinalize now task generation
  | .heartbeat task generation beat => c.onHeartbeat cfg now task generation beat
  | .cancel task generation => c.onCancel now task generation
  | .retry task generation => c.onRetry now task generation
  | .revoke task generation reason => c.onRevoke now task generation reason
  | .auditRevoke revocations => c.onAuditRevoke now revocations
  | .tick => c.onTick now
  | .beginCommit task generation completion producers => c.onBeginCommit now task generation completion producers
  | .commitOutcome task generation outcome => c.onCommitOutcome now task generation outcome
  | .bindApproval key task generation => c.onBindApproval key task generation

/-- The bookkeeping after the pump: bindings of ended commits are dropped, the event id is remembered. -/
def settle (payloadDigest : EventKind → String) (e : JournalEntry) : Core :=
  let seen := (c.seen.record e.id (payloadDigest e.kind) e.kind cfg.dedupWindow).prune fun t =>
    c.tasks[t]?.map (·.generation)
  { c with
    approvals := c.approvals.filter fun _ b => c.tasks[b.task]?.any fun t => !bindingEnded t.state
    seen
    seq := e.seq }

def apply (payloadDigest : EventKind → String) (e : JournalEntry) : Except SchedError (Core × Effects) := do
  if e.seq ≠ c.seq + 1 then .error (bad s!"sequence {e.seq} out of order, expected {c.seq + 1}") else
  if c.seen.ids.contains e.id then .error (.eventIdConflict e.id) else
  if e.now < c.lastAt then .error (bad "event time is earlier than the previous event") else
  let x ← applyKind cfg { c with lastAt := e.now } e.now e.kind
  let x ← Exec.pump cfg e.now x
  return (x.core.settle cfg payloadDigest e, x.fx)

end Core

end SovereignCore.Harness
