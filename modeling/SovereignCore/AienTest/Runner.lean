import SovereignCore.AienTest.Graph

/-!
# The runner of a gate graph

`run_graph` starts worker threads that share one scheduler record under a lock, one semaphore for each pool and one
condition variable. A state has the phase of every worker; a step is one move of one worker, so that a run of steps is
one interleaving of the threads. What happens under the lock without touching a semaphore is one step; `pick` is one step
for each gate it looks at, since slots go back without the lock.

* `preRun` : what decides, before anything runs, that a gate does not run;
* `Sched`, `Pick`, `Phase`, `State` : the shared record and the workers;
* `GraphRun.step` : the moves; `init`, `collect` : before the first and after the last of them.
-/

namespace SovereignCore.AienTest

open Topo

/-- What is known about one gate a gate depends on. -/
structure DepFact where
  gate : String
  verdict : Option Verdict := none
  receipt : Option String := none
  deriving DecidableEq, Repr

def depVerdict (deps : List DepFact) (gate : String) : Option Verdict :=
  (deps.find? fun d => d.gate = gate).bind DepFact.verdict

/-- The facts the runner measures before a gate runs. -/
structure Facts where
  refusal : Option String := none
  execExists : Bool := true
  deps : List DepFact := []
  gb10Present : Bool := false
  qemuAvailable : Bool := false
  operator : Bool := false
  deriving DecidableEq, Repr

def depBlocked (f : Facts) (d : String) : Option (Verdict × String) :=
  match depVerdict f.deps d with
  | some .blockedHardware => some (.blockedHardware, "DEP_BLOCKED:" ++ d)
  | some .blockedOperator => some (.blockedOperator, "DEP_BLOCKED:" ++ d)
  | _ => none

def depNotPass (m : Manifest) (f : Facts) : Option String :=
  m.dependsOn.find? fun d => depVerdict f.deps d ≠ some .pass

/-- Rows 2 to 7: decided before anything runs. `some` means do not run. -/
def preRun (m : Manifest) (f : Facts) : Option (Verdict × String) :=
  if !f.operator ∧ "operator" ∈ m.requires then some (.blockedOperator, "OPERATOR_STEP_PENDING")
  else if m.pool = .gb10 ∧ !f.gb10Present then some (.blockedHardware, "NO_GB10")
  else if m.pool = .qemu ∧ !f.qemuAvailable then some (.blockedHardware, "NO_QEMU")
  else
    match m.dependsOn.findSome? (depBlocked f) with
    | some v => some v
    | none =>
      match depNotPass m f with
      | some d => some (.notRun, "DEP_NOT_PASS:" ++ d)
      | none =>
        if m.build.any (· ≠ "none") then some (.notRun, "build_unsupported")
        else
          match m.checks.find? (· ≠ "clean_tree_after") with
          | some c => some (.notRun, "check_unsupported:" ++ c)
          | none =>
            match f.refusal with
            | some r => some (.notRun, r)
            | none => if f.execExists then none else some (.missingImplementation, "NO_RUN_EXEC")

theorem depVerdict_of_preRun {m : Manifest} {f : Facts} (h : preRun m f = none) {d : String} (hd : d ∈ m.dependsOn) :
    depVerdict f.deps d = some .pass := by
  cases hpass : depNotPass m f with
  | none =>
    have hall := List.find?_eq_none.1 hpass d hd
    simpa using hall
  | some first =>
    unfold preRun at h
    cases hblocked : m.dependsOn.findSome? (depBlocked f) with
    | none =>
      rw [hblocked, hpass] at h
      split_ifs at h
    | some v =>
      rw [hblocked] at h
      split_ifs at h

inductive RunError
  | badManifest (msg : String)
  | fatal (msg : String)
  deriving DecidableEq, Repr

structure Outcome where
  verdict : Verdict
  reason : String := ""
  receiptDigest : Option String := none
  deriving DecidableEq, Repr

/-- Sizes of the two resizable pools. -/
structure PoolSizes where
  host : Nat
  qemu : Nat
  deriving DecidableEq, Repr

/-- The slots of each semaphore, at least one; the gb10 pool is fixed at one. -/
def PoolSizes.slots (z : PoolSizes) : Pool → Nat
  | .host => max z.host 1
  | .qemu => max z.qemu 1
  | .gb10 => max 1 1

/-- What the scheduler shares between worker threads. -/
structure Sched where
  /-- Selected gates whose dependencies have all finished and that have not started. -/
  ready : List String
  waitingOn : String → Nat
  results : String → Option Outcome
  remaining : Nat
  error : Option RunError

def Sched.Over (s : Sched) : Prop := s.remaining = 0 ∨ s.error.isSome

instance (s : Sched) : Decidable s.Over := inferInstanceAs (Decidable (_ ∨ _))

/-- A gate chosen to start, with the facts about its dependencies and the slot it holds: none when it cannot run. -/
structure Pick where
  node : String
  deps : List DepFact
  permit : Option Pool
  deriving DecidableEq, Repr

/-- Where `execute_gate` is, as long as it has its permit. -/
inductive Stage
  | before
  /-- Inside `process::run`. -/
  | program
  | after
  deriving DecidableEq, Repr

/-- Where a worker is. -/
inductive Phase
  | entering
  /-- In `pick`, under the lock, with the ready gates it has not looked at. -/
  | picking (rest : List String)
  | waiting
  | executing (stage : Stage) (p : Pick)
  /-- In `execute_gate`, after `drop(permit)`. -/
  | reporting (node : String)
  /-- At the lock, with what `execute_gate` came to. -/
  | returned (node : String) (r : Except RunError Outcome)
  /-- Result stored, lock given back, before `notify_all`. -/
  | notifying
  | exited

/-- The moves of a worker. -/
inductive Act
  | enter
  | look
  /-- Leave `wait` without a notification. -/
  | wake
  | start (facts : Facts)
  | finish
  /-- `drop(permit)` -/
  | release
  /-- An error leaves `execute_gate` before `drop(permit)`. -/
  | raise (e : RunError)
  | panic
  /-- `execute_gate` returns. -/
  | ret (r : Except RunError Outcome)
  | store
  | notify

/-- The threads and what they share. `executed`, `finished` and `failed` are kept for the record only: the gates
`execute_gate` was called for, and those whose outcome or error was stored. -/
structure State where
  sched : Sched
  free : Pool → Nat
  workers : List Phase
  executed : List String := []
  finished : List String := []
  failed : List String := []

def dropPermit (free : Pool → Nat) : Option Pool → Pool → Nat
  | none => free
  | some q => Function.update free q (free q + 1)

def Phase.picks : Phase → Bool
  | .picking _ => true
  | _ => false

def Phase.wakeUp : Phase → Phase
  | .waiting => .entering
  | ph => ph

/-- Some worker is in `pick`, so it has the lock. -/
def State.locked (s : State) : Bool := s.workers.any Phase.picks

/-- The arguments of `run_graph`, with what the evidence store says about each gate at the current commit: the verdict
and the digest of its latest receipt. -/
structure GraphRun where
  graph : Graph
  selection : List String
  sizes : PoolSizes
  latestAt : String → Option (Option Verdict × String)
  sorted : selection.Pairwise (· < ·)
  selected : ∀ i ∈ selection, i ∈ graph.nodes.map Node.id

namespace GraphRun

variable (r : GraphRun)

def manifest? (i : String) : Option Manifest := (node? r.graph.nodes i).map Node.manifest

def dependsOn (i : String) : List String := ((r.manifest? i).map Manifest.dependsOn).getD []

def poolOf (i : String) : Pool := ((r.manifest? i).map Manifest.pool).getD .host

/-- Selected gates that `i` depends on. -/
def inside (i : String) : List String := (depsOf r.graph.nodes i).filter (· ∈ r.selection)

/-- Facts about dependencies outside the selection, read from the store. -/
def outside (id : String) : Option DepFact :=
  if id ∉ r.selection ∧ ∃ i ∈ r.selection, id ∈ depsOf r.graph.nodes i then
    match r.latestAt id with
    | some (verdict, digest) => some ⟨id, verdict, some digest⟩
    | none => some ⟨id, none, none⟩
  else none

def depFact (results : String → Option Outcome) (id : String) : DepFact :=
  match results id with
  | some o => ⟨id, some o.verdict, o.receiptDigest⟩
  | none => (r.outside id).getD ⟨id, none, none⟩

def depFacts (results : String → Option Outcome) (node : String) : List DepFact :=
  (r.dependsOn node).map (r.depFact results)

def allPass (deps : List DepFact) : Bool := deps.all fun d => d.verdict = some .pass

/-- The gate leaves `ready` and `execute_gate` is called for it. -/
def choose (s : State) (w : Nat) (p : Pick) (free : Pool → Nat) : State where
  sched := { s.sched with ready := s.sched.ready.erase p.node }
  free := free
  workers := s.workers.set w (.executing .before p)
  executed := s.executed ++ [p.node]
  finished := s.finished
  failed := s.failed

/-- One turn of the loop in `pick`. -/
def lookAt (s : State) (w : Nat) : List String → State
  | [] => { s with workers := s.workers.set w .waiting }
  | i :: rest =>
    let deps := r.depFacts s.sched.results i
    if allPass deps then
      let q := r.poolOf i
      if s.free q = 0 then { s with workers := s.workers.set w (.picking rest) }
      else choose s w ⟨i, deps, some q⟩ (Function.update s.free q (s.free q - 1))
    else choose s w ⟨i, deps, none⟩ s.free

/-- A result is stored: what depends on `i` waits for one less, or the first error stays. -/
def stored (sched : Sched) (i : String) : Except RunError Outcome → Sched
  | .ok o =>
    let released := ((directDependents r.graph.nodes i).filter (· ∈ r.selection)).foldl release
      (sched.waitingOn, sched.ready)
    { sched with
      results := Function.update sched.results i (some o)
      remaining := sched.remaining - 1
      waitingOn := released.1
      ready := released.2 }
  | .error e => { sched with error := sched.error.or (some e) }

/-- A move of worker `w` in the given phase; `none` if it is not there to be made. -/
def move (s : State) (w : Nat) : Phase → Act → Option State
  | .entering, .enter =>
    if s.locked then none
    else if s.sched.Over then some { s with workers := s.workers.set w .exited }
    else some { s with workers := s.workers.set w (.picking s.sched.ready) }
  | .picking rest, .look => some (r.lookAt s w rest)
  | .waiting, .wake => some { s with workers := s.workers.set w .entering }
  | .executing .before p, .start facts =>
    -- The program starts only under `will_run`.
    if (r.manifest? p.node).any fun m => preRun m { facts with deps := p.deps } = none then
      some { s with workers := s.workers.set w (.executing .program p) }
    else none
  | .executing .program p, .finish => some { s with workers := s.workers.set w (.executing .after p) }
  | .executing .program _, .release => none
  -- Before the program: a reused result, or a gate that does not run.
  | .executing _ p, .release =>
    some { s with free := dropPermit s.free p.permit, workers := s.workers.set w (.reporting p.node) }
  | .executing .program _, .raise _ => none
  | .executing _ p, .raise e =>
    some { s with free := dropPermit s.free p.permit, workers := s.workers.set w (.returned p.node (.error e)) }
  | .executing _ p, .panic =>
    some { s with
      free := dropPermit s.free p.permit
      workers := s.workers.set w (.returned p.node (.error (.fatal ("internal error while running gate " ++ p.node)))) }
  | .reporting i, .panic =>
    some { s with
      workers := s.workers.set w (.returned i (.error (.fatal ("internal error while running gate " ++ i)))) }
  | .reporting i, .ret res => some { s with workers := s.workers.set w (.returned i res) }
  | .returned i res, .store =>
    if s.locked then none
    else some { s with
      sched := r.stored s.sched i res
      workers := s.workers.set w .notifying
      finished := if res.isOk then i :: s.finished else s.finished
      failed := if res.isOk then s.failed else i :: s.failed }
  | .notifying, .notify => some { s with workers := (s.workers.set w .entering).map Phase.wakeUp }
  | _, _ => none

def step (s : State) (act : Nat × Act) : Option State := s.workers[act.1]?.bind fun ph => r.move s act.1 ph act.2

def workerCount : Nat := max (min (r.sizes.host + r.sizes.qemu + 1) r.selection.length) 1

def init : State where
  sched :=
    { ready := r.selection.filter fun i => (r.inside i).length = 0
      waitingOn := fun i => (r.inside i).length
      results := fun _ => none
      remaining := r.selection.length
      error := none }
  free := r.sizes.slots
  workers := List.replicate r.workerCount .entering

/-- What `run_graph` returns once every worker has left. -/
def collect (sched : Sched) : Except RunError (List (String × Outcome)) :=
  match sched.error with
  | some e => .error e
  | none => (r.graph.order.filter (· ∈ r.selection)).mapM fun i =>
    match sched.results i with
    | some o => .ok (i, o)
    | none => .error (.fatal ("no result for gate " ++ i))

end GraphRun

end SovereignCore.AienTest
