import SovereignCore.Store.Calls

/-!
# What a job's end depends on

Most fields of the worker's state are accounts. `floor` keeps those that decide who will end a job and who rides it:
where each job is, the queues, the hand-over slot, which job owns each job of the store, and the notices sent. Every
function of the state acts on the floor in one of a few ways.

* `Core`, `Floor`, `floor` : the view;
* `Floor.opens`, `Floor.joins`, `Floor.endAt`, `Floor.reports`, `Dispatch`, `Floor.assigns`, `Floor.orphans` : the ways;
* `floor_submitStore` to `floor_reapOne` : what each function does to it.
-/

namespace SovereignCore.Store

open Std Rides

/-- What decides a job's end. -/
structure Core where
  id : JobId
  status : Status
  inc : Incarnation
  loaded : Bool
  orphaned : Bool
  riders : List Incarnation
  cls : Class

def WorkerJob.core (j : WorkerJob) : Core :=
  ⟨j.id, j.status, j.inc, j.payload.isSome, j.orphaned.isSome, j.waiters.map Waiter.inc, j.cls⟩

def Core.audience (c : Core) : List Incarnation := if c.riders = [] then [c.inc] else c.riders

structure Floor where
  next : Nat
  jobs : JobId → Option Core
  queue : Class → List JobId
  handed : List (JobId × Incarnation)
  owner : JobId → Option JobId
  busy : Nat
  closed : Bool
  dropped : Bool
  sent : List (Notice Incarnation)

def notice (c : Completion) : Notice Incarnation := ⟨c.job, c.incarnation, c.terminal.isSome⟩

def cores (m : ExtTreeMap JobId WorkerJob) : JobId → Option Core := fun j => m[j]?.map WorkerJob.core

def floor (s : State) : Floor where
  next := s.nextJob
  jobs := cores s.jobs
  queue := fun c => match c with
    | .restore => s.restoreQueue
    | .park => s.parkQueue
  handed := s.handed.map fun h => (h.id, h.inc)
  owner := fun i => s.byInner[i]?
  busy := s.dispatchedCount
  closed := s.closed
  dropped := s.workerDropped
  sent := s.completions.map notice

namespace Floor

variable (v : Floor)

def opens (cls : Class) (inc : Incarnation) : Floor :=
  { v with
    next := v.next + 1
    jobs := Function.update v.jobs v.next (some ⟨v.next, .queued, inc, true, false, [inc], cls⟩)
    queue := Function.update v.queue cls (v.queue cls ++ [v.next]) }

def joins (j : JobId) (c : Core) (inc : Incarnation) : Floor :=
  { v with jobs := Function.update v.jobs j (some { c with riders := c.riders ++ [inc] }) }

def ownerAfter (c : Core) : JobId → Option JobId :=
  match c.status with
  | .dispatched i => if v.owner i = some c.id then Function.update v.owner i none else v.owner
  | _ => v.owner

def frees (c : Core) : Floor :=
  { v with owner := v.ownerAfter c, busy := if c.status = .queued then v.busy else v.busy - 1 }

def ends (j : JobId) (c : Core) : Floor :=
  { v.frees c with
    jobs := Function.update v.jobs j none
    sent := v.sent ++ notices c.id c.audience true }

def endAt (j : JobId) : Floor :=
  match v.jobs j with
  | none => v
  | some c => v.ends j c

def reports (j : JobId) (c : Core) : Floor := { v with sent := v.sent ++ notices j c.riders false }

def assigns (j : JobId) (c : Core) (i : JobId) : Floor :=
  { v with
    jobs := Function.update v.jobs j (some { c with status := .dispatched i })
    owner := Function.update v.owner i (some j) }

def orphans (j : JobId) (c : Core) (i : JobId) : Floor :=
  { v with jobs := Function.update v.jobs j (some { c with status := .dispatched i, orphaned := true }) }

def orphanJobs : Floor := { v with jobs := fun j => (v.jobs j).map fun c => { c with orphaned := true } }

def clearQueues : Floor := { v with queue := fun _ => [], handed := [] }

def waiting : List JobId := v.queue .restore ++ v.queue .park

end Floor

/-- One round of the loop that moves a queued job into the hand-over slot. -/
inductive Dispatch : Floor → Floor → Prop
  | skips (v : Floor) (cls : Class) (j : JobId) (rest : List JobId) (ho : v.closed = false) (hq : v.queue cls = j :: rest)
      (hj : v.jobs j = none) : Dispatch v { v with queue := Function.update v.queue cls rest }
  | lends (v : Floor) (cls : Class) (j : JobId) (rest : List JobId) (c : Core) (ho : v.closed = false)
      (hq : v.queue cls = j :: rest) (hj : v.jobs j = some c) (hl : c.loaded = true) : Dispatch v { v with
        queue := Function.update v.queue cls rest
        jobs := Function.update v.jobs c.id (some { c with status := .dispatching, loaded := false })
        handed := v.handed ++ [(c.id, c.inc)]
        busy := v.busy + 1 }
  /-- A queued job always has its payload; the source asserts it. -/
  | stuck (v : Floor) (cls : Class) (j : JobId) (rest : List JobId) (c : Core) (ho : v.closed = false)
      (hq : v.queue cls = j :: rest) (hj : v.jobs j = some c) (hl : c.loaded = false) :
      Dispatch v { v with queue := Function.update v.queue cls rest }

/-! ## The functions of the state -/

section Lookup

variable {s : State} {m : ExtTreeMap JobId WorkerJob} {j : JobId} {job job' : WorkerJob}

theorem cores_some (h : m[j]? = some job) : cores m j = some job.core := by
  simp [cores, h]

theorem cores_none (h : m[j]? = none) : cores m j = none := by
  simp [cores, h]

theorem cores_insert : cores (m.insert j job) = Function.update (cores m) j (some job.core) := by
  funext i
  unfold cores
  rw [Table.get_insert]
  by_cases h : j = i
  · subst h
    rw [if_pos rfl, Function.update_self]
    rfl
  · rw [if_neg h, Function.update_of_ne (Ne.symm h)]

theorem cores_erase : cores (m.erase j) = Function.update (cores m) j none := by
  funext i
  unfold cores
  rw [Table.get_erase]
  by_cases h : j = i
  · subst h
    rw [if_pos rfl, Function.update_self]
    rfl
  · rw [if_neg h, Function.update_of_ne (Ne.symm h)]

theorem cores_insert_same (h : m[j]? = some job) (hc : job'.core = job.core) : cores (m.insert j job') = cores m := by
  rw [cores_insert, hc, Function.update_eq_self_iff]
  exact (cores_some h).symm

theorem cores_map (f : JobId → WorkerJob → WorkerJob) (g : Core → Core) (hf : ∀ i j, (f i j).core = g j.core) :
    cores (m.map f) = fun i => (cores m i).map g := by
  funext i
  unfold cores
  rw [ExtTreeMap.getElem?_map]
  cases m[i]? with
  | none => rfl
  | some j => simp [hf]

theorem cores_map_same (f : JobId → WorkerJob → WorkerJob) (hf : ∀ i j, (f i j).core = j.core) :
    cores (m.map f) = cores m := by
  rw [cores_map f id hf]
  funext i
  exact Option.map_id_apply

end Lookup

section Ends

variable (s : State)

theorem notice_terminals (job : WorkerJob) (f : Waiter → Completion) (hj : ∀ w, (f w).job = job.id)
    (hi : ∀ w, (f w).incarnation = w.inc) (ht : ∀ w, (f w).terminal.isSome = true) :
    ((State.riders job).map f).map notice = notices job.id job.core.audience true := by
  have hmap : ∀ ws : List Waiter, (ws.map f).map notice = notices job.id (ws.map Waiter.inc) true := by
    intro ws
    unfold notices
    rw [List.map_map, List.map_map]
    apply List.map_congr_left
    intro w _
    simp [notice, hj, hi, ht]
  rw [hmap]
  unfold State.riders Core.audience
  cases hw : job.waiters with
  | nil => simp [WorkerJob.core, hw]
  | cons w ws => simp [WorkerJob.core, hw]

theorem floor_returnCredits (job : WorkerJob) : floor (s.returnCredits job) = floor s := by
  unfold State.returnCredits
  cases job.cls with
  | restore => rfl
  | park => rfl

theorem floor_releaseKey (job : WorkerJob) : floor (s.releaseKey job) = floor s := by
  unfold State.releaseKey
  dsimp only
  split_ifs <;> rfl

theorem floor_countEnd (job : WorkerJob) (t : Terminal) (st : JobStage) : floor (s.countEnd job t st) = floor s := by
  unfold State.countEnd
  dsimp only
  split_ifs <;> rfl

theorem floor_returnSlot (job : WorkerJob) : floor (s.returnSlot job) = (floor s).frees job.core := by
  unfold State.returnSlot Floor.frees Floor.ownerAfter
  have hst : job.core.status = job.status := rfl
  rw [hst]
  cases hs : job.status with
  | queued => rfl
  | dispatching => rfl
  | dispatched i =>
    have hid : job.core.id = job.id := rfl
    have how : (floor s).owner i = s.byInner[i]? := rfl
    simp only [hid, how]
    by_cases ho : s.byInner[i]? = some job.id
    · rw [if_pos ho, if_pos ho]
      have herase : (floor { s with byInner := s.byInner.erase i }).owner =
          Function.update (floor s).owner i none := by
        funext k
        show (s.byInner.erase i)[k]? = Function.update (fun k => s.byInner[k]?) i none k
        rw [Table.get_erase]
        by_cases hk : i = k
        · subst hk
          rw [if_pos rfl, Function.update_self]
        · rw [if_neg hk, Function.update_of_ne (Ne.symm hk)]
      rw [← herase]
      rfl
    · rw [if_neg ho, if_neg ho]
      rfl

theorem floor_finishJob (job : WorkerJob) (j : JobId) (t : Terminal) (st : JobStage) (p : PublishOutcome) :
    floor ({ s with jobs := s.jobs.erase j }.finishJob job t st p) = (floor s).ends j job.core := by
  unfold State.finishJob
  dsimp only
  generalize hs₁ : ((({ s with jobs := s.jobs.erase j } : State).returnCredits job).returnSlot job) = s₁
  generalize hs₂ : (s₁.releaseKey job).countEnd job t st = s₂
  have h₂ : floor s₂ = floor s₁ := by rw [← hs₂, floor_countEnd, floor_releaseKey]
  have hguard : floor (if State.adopts job t = true then s₂
      else { s₂ with graveyard := s₂.graveyard ++ (State.guardOf job).toList }) = floor s₂ := by
    split_ifs <;> rfl
  generalize (if State.adopts job t = true then s₂
    else { s₂ with graveyard := s₂.graveyard ++ (State.guardOf job).toList }) = s₃ at hguard ⊢
  have h₁ : floor s₁ = (floor { s with jobs := s.jobs.erase j }).frees job.core := by
    rw [← hs₁, floor_returnSlot, floor_returnCredits]
  have hsent : ∀ (cs : List Completion), floor { s₃ with completions := s₃.completions ++ cs } =
      { floor s₃ with sent := (floor s₃).sent ++ cs.map notice } := by
    intro cs
    simp [floor]
  rw [hsent, notice_terminals job _ (fun _ => rfl) (fun _ => rfl) (fun _ => rfl), hguard, h₂, h₁]
  unfold Floor.ends
  have herase : Function.update (floor s).jobs j none = cores (s.jobs.erase j) := cores_erase.symm
  rw [herase]
  rfl

theorem floor_endJob (j : JobId) (f : WorkerJob → Terminal) : floor (s.endJob j f) = (floor s).endAt j := by
  unfold State.endJob Floor.endAt
  cases hj : s.jobs[j]? with
  | none =>
    have hn : (floor s).jobs j = none := cores_none hj
    rw [hn]
  | some job =>
    have hs : (floor s).jobs j = some job.core := cores_some hj
    rw [hs]
    exact floor_finishJob s job j _ _ _

theorem floor_endJobs (f : WorkerJob → Terminal) (ids : List JobId) :
    floor (ids.foldl (fun s id => s.endJob id f) s) = ids.foldl Floor.endAt (floor s) := by
  induction ids generalizing s with
  | nil => rfl
  | cons j ids ih =>
    rw [List.foldl_cons, List.foldl_cons, ih, floor_endJob]

theorem floor_reapOrphans : floor s.reapOrphans = s.reapable.foldl Floor.endAt (floor s) := floor_endJobs s _ _

theorem floor_poll (max : Nat) :
    floor (s.poll max).2 = { floor s.reapOrphans with sent := (s.reapOrphans.completions.drop max).map notice } := rfl

theorem floor_clear :
    floor { s with restoreQueue := [], parkQueue := [], handed := [] } = (floor s).clearQueues := by
  unfold floor Floor.clearQueues
  simp only [List.map_nil, Floor.mk.injEq, and_true, true_and]
  funext c
  cases c with
  | restore => rfl
  | park => rfl

theorem floor_cancelUnstarted :
    floor s.cancelUnstarted.1 = (s.restoreQueue ++ s.parkQueue ++ s.handed.map HandedJob.id).foldl Floor.endAt
      (floor s).clearQueues := by
  unfold State.cancelUnstarted
  dsimp only
  rw [← floor_clear, ← floor_endJobs (f := fun _ => .cancelled)]
  generalize List.foldl _ _ _ = s'
  unfold floor
  simp only [Floor.mk.injEq, and_true, true_and]
  refine cores_map_same _ fun i j => ?_
  unfold State.markCancel
  split_ifs <;> rfl

end Ends

section Client

variable {s s' : State} {job id : JobId} {inc : Incarnation}

/-- A call that accepts a ride opens a job, joins a live one that does not carry the token yet, or finds the token there. -/
inductive Accepts (v : Floor) (j : JobId) (inc : Incarnation) : Floor → Prop
  | opens (cls : Class) (ho : v.closed = false) (hj : j = v.next) : Accepts v j inc (v.opens cls inc)
  | joins (c : Core) (hc : v.jobs j = some c) (hi : inc ∉ c.riders) : Accepts v j inc (v.joins j c inc)
  | again (c : Core) (hc : v.jobs j = some c) (hi : inc ∈ c.riders) : Accepts v j inc v

theorem floor_open (cls : Class) (job : WorkerJob) (s' : State)
    (hcore : job.core = ⟨s.nextJob, .queued, inc, true, false, [inc], cls⟩) (hjobs : s'.jobs = s.jobs.insert s.nextJob job)
    (hnext : s'.nextJob = s.nextJob + 1)
    (hr : s'.restoreQueue = s.restoreQueue ++ if cls = .restore then [s.nextJob] else [])
    (hp : s'.parkQueue = s.parkQueue ++ if cls = .park then [s.nextJob] else [])
    (hrest : s'.handed = s.handed ∧ s'.byInner = s.byInner ∧ s'.dispatchedCount = s.dispatchedCount ∧
      s'.closed = s.closed ∧ s'.workerDropped = s.workerDropped ∧ s'.completions = s.completions) :
    floor s' = (floor s).opens cls inc := by
  obtain ⟨h1, h2, h3, h4, h5, h6⟩ := hrest
  unfold floor Floor.opens
  simp only [hnext, h1, h2, h3, h4, h5, h6, Floor.mk.injEq, and_true, true_and]
  constructor
  · rw [hjobs, cores_insert, hcore]
  · funext c
    cases cls with
    | restore =>
      cases c with
      | restore => simp [hr]
      | park => simp [hp, Function.update]
    | park =>
      cases c with
      | restore => simp [hr, Function.update]
      | park => simp [hp]

theorem tryAttach_accepts (h : s.tryAttach job inc = .ok s') : Accepts (floor s) job inc (floor s') := by
  unfold State.tryAttach at h
  cases hj : s.jobs[job]? with
  | none =>
    rw [hj] at h
    cases h
  | some j =>
    rw [hj] at h
    dsimp only at h
    split_ifs at h with hk hw hcap
    split at h
    · rename_i t ht
      cases h
      have hcore : (floor s).jobs job = some j.core := cores_some hj
      have hnew : inc ∉ j.core.riders := by
        intro hmem
        obtain ⟨w, hwm, hwi⟩ := List.mem_map.1 hmem
        exact hw (List.any_eq_true.2 ⟨w, hwm, by simpa using hwi⟩)
      have heq : floor { s with
          coalesce := t
          jobs := s.jobs.insert job { j with waiters := j.waiters ++ [{ inc := inc }] } } =
            (floor s).joins job j.core inc := by
        unfold floor Floor.joins
        simp only [cores_insert, Floor.mk.injEq, and_true, true_and]
        simp [WorkerJob.core]
      rw [heq]
      exact .joins _ hcore hnew
    all_goals cases h

theorem checkStoreState_open {st : StoreState} {b : Bool} {u : Unit} (h : s.checkStoreState st b = .ok u) :
    s.closed = false := by
  unfold State.checkStoreState at h
  split_ifs at h with hc
  simp only [Bool.or_eq_true, not_or, Bool.not_eq_true] at hc
  exact hc.1

theorem openLoad_accepts (hc : s.closed = false) (key : ChunkKey) (len : Nat) (e : ChunkHeader) (dst : PinnedDest)
    (inc : Incarnation) :
    Accepts (floor s) (s.openLoad key len e dst inc).1 inc (floor (s.openLoad key len e dst inc).2) := by
  have heq : floor (s.openLoad key len e dst inc).2 = (floor s).opens .restore inc :=
    floor_open .restore _ _ rfl rfl rfl rfl (by simp [State.openLoad]) ⟨rfl, rfl, rfl, rfl, rfl, rfl⟩
  rw [heq]
  exact .opens .restore hc rfl

theorem openStore_accepts (hc : s.closed = false) (header : ChunkHeader) (src : PinnedSource) (inc : Incarnation) :
    Accepts (floor s) (s.openStore header src inc).1 inc (floor (s.openStore header src inc).2) := by
  have heq : floor (s.openStore header src inc).2 = (floor s).opens .park inc :=
    floor_open .park _ _ rfl rfl rfl (by simp [State.openStore]) rfl ⟨rfl, rfl, rfl, rfl, rfl, rfl⟩
  rw [heq]
  exact .opens .park hc rfl

theorem openFlush_accepts (hc : s.closed = false) (inc : Incarnation) :
    Accepts (floor s) (s.openFlush inc).1 inc (floor (s.openFlush inc).2) := by
  have heq : floor (s.openFlush inc).2 = (floor s).opens .park inc :=
    floor_open .park _ _ rfl rfl rfl (by simp [State.openFlush]) rfl ⟨rfl, rfl, rfl, rfl, rfl, rfl⟩
  rw [heq]
  exact .opens .park hc rfl

variable {st : StoreState} {len : Option Nat} {key : ChunkKey} {e : ChunkHeader} {dst : PinnedDest} {t : LoadTicket}

theorem submitLoad_accepts (h : s.submitLoad st len key e dst inc = .ok (id, s')) :
    Accepts (floor s) id inc (floor s') := by
  obtain ⟨_, hst, h⟩ := Result.bind_ok.1 h
  obtain ⟨n, _, h⟩ := Result.bind_ok.1 h
  obtain ⟨_, _, h⟩ := Result.bind_ok.1 h
  have hok := openLoad_accepts (checkStoreState_open hst) key n e dst inc
  rw [Except.ok.inj h] at hok
  exact hok

theorem submitFlush_accepts (h : s.submitFlush st inc = .ok (id, s')) : Accepts (floor s) id inc (floor s') := by
  obtain ⟨_, hst, h⟩ := Result.bind_ok.1 h
  obtain ⟨_, _, h⟩ := Result.bind_ok.1 h
  have hok := openFlush_accepts (checkStoreState_open hst) inc
  rw [Except.ok.inj h] at hok
  exact hok

theorem attachLoad_accepts (h : s.attachLoad st key inc = .ok (some (t, s'))) :
    Accepts (floor s) t.job inc (floor s') := by
  obtain ⟨_, hst, h⟩ := Result.bind_ok.1 h
  cases hf : s.coalesce.find .load key with
  | none =>
    rw [hf] at h
    cases h
  | some j =>
    rw [hf] at h
    obtain ⟨s₁, ht, h⟩ := Result.bind_ok.1 h
    cases h
    exact tryAttach_accepts ht

theorem submitLoadCoalesced_accepts (h : s.submitLoadCoalesced st len key e dst inc = .ok (t, s')) :
    Accepts (floor s) t.job inc (floor s') := by
  obtain ⟨o, ho, h⟩ := Result.bind_ok.1 h
  cases o with
  | some r =>
    cases h
    exact attachLoad_accepts ho
  | none =>
    obtain ⟨n, _, h⟩ := Result.bind_ok.1 h
    obtain ⟨_, _, h⟩ := Result.bind_ok.1 h
    cases h
    obtain ⟨_, hst, _⟩ := Result.bind_ok.1 ho
    exact openLoad_accepts (checkStoreState_open hst) key n e dst inc

theorem joinStore_accepts (h : s.joinStore job key inc = .ok (id, s')) : Accepts (floor s) id inc (floor s') := by
  unfold State.joinStore at h
  dsimp only at h
  split_ifs at h with h1 h2
  · cases h
    obtain ⟨j, hj, hw⟩ := (Option.any_eq_true _ _).1 (Bool.and_eq_true_iff.1 h1).2
    obtain ⟨w, hwm, hwi⟩ := List.any_eq_true.1 hw
    refine .again j.core (cores_some hj) (List.mem_map.2 ⟨w, hwm, ?_⟩)
    simp only [Bool.and_eq_true, decide_eq_true_eq] at hwi
    exact hwi.1
  · split at h
    · rename_i s₁ hs₁
      cases h
      exact tryAttach_accepts hs₁
    · cases h

theorem submitStore_accepts {ns : NamespaceId} {src : PinnedSource} (h : s.submitStore ns st e src inc = .ok (id, s')) :
    Accepts (floor s) id inc (floor s') := by
  obtain ⟨_, hst, h⟩ := Result.bind_ok.1 h
  obtain ⟨_, _, h⟩ := Result.bind_ok.1 h
  cases hk : s.storeByKey[e.chunkKey]? with
  | some j =>
    rw [hk] at h
    exact joinStore_accepts h
  | none =>
    rw [hk] at h
    obtain ⟨_, _, h⟩ := Result.bind_ok.1 h
    have hok := openStore_accepts (checkStoreState_open hst) e src inc
    rw [Except.ok.inj h] at hok
    exact hok

theorem attachWaiter_accepts (h : s.attachWaiter job inc = .ok s') : Accepts (floor s) job inc (floor s') := by
  unfold State.attachWaiter at h
  split_ifs at h
  exact tryAttach_accepts h

end Client

section Dispatching

variable {s s' : State} {cls : Class} {j : JobId}

theorem floor_nextClass (h : s.nextClass = some (cls, s')) : floor s' = floor s := by
  unfold State.nextClass at h
  split at h
  · cases h
  · cases h
    rfl
  · cases h
    rfl
  · split_ifs at h
    · cases h
      rfl
    · cases h
      rfl

theorem floor_popQueue (h : s.popQueue cls = some (j, s')) :
    ∃ rest, (floor s).queue cls = j :: rest ∧
      floor s' = { floor s with queue := Function.update (floor s).queue cls rest } := by
  cases cls with
  | restore =>
    unfold State.popQueue at h
    cases hq : s.restoreQueue with
    | nil =>
      simp only [hq] at h
      cases h
    | cons i rest =>
      simp only [hq] at h
      cases h
      refine ⟨rest, hq, ?_⟩
      unfold floor
      simp only [Floor.mk.injEq, and_true, true_and]
      funext c
      cases c with
      | restore => rfl
      | park => rfl
  | park =>
    unfold State.popQueue at h
    cases hq : s.parkQueue with
    | nil =>
      simp only [hq] at h
      cases h
    | cons i rest =>
      simp only [hq] at h
      cases h
      refine ⟨rest, hq, ?_⟩
      unfold floor
      simp only [Floor.mk.injEq, and_true, true_and]
      funext c
      cases c with
      | restore => rfl
      | park => rfl

theorem floor_lend (job : WorkerJob) (cls : Class) (payload : Payload) :
    floor { (s.lend job cls payload).2 with
      handed := (s.lend job cls payload).2.handed ++ [(s.lend job cls payload).1] } =
    { floor s with
      jobs := Function.update (floor s).jobs job.core.id (some { job.core with status := .dispatching, loaded := false })
      handed := (floor s).handed ++ [(job.core.id, job.core.inc)]
      busy := (floor s).busy + 1 } := by
  have hcore : (State.lent job payload).core = { job.core with status := .dispatching, loaded := false } := by
    unfold State.lent
    cases payload.guard with
    | none => rfl
    | some g => rfl
  unfold State.lend floor
  simp only [cores_insert, hcore, List.map_append, List.map_cons, List.map_nil]
  rfl

theorem floor_handed_none (s : State) : floor { s with handed := s.handed ++ (none : Option HandedJob).toList } = floor s := by
  simp [floor]

/-- The loop of `pop_next_to_dispatch`, with what it found put in the hand-over slot. -/
theorem popLoop_dispatch (n : Nat) (s : State) (hc : s.closed = false) :
    Relation.ReflTransGen Dispatch (floor s)
      (floor { (State.popLoop n s).2 with handed := (State.popLoop n s).2.handed ++ (State.popLoop n s).1.toList }) := by
  induction n generalizing s with
  | zero =>
    rw [State.popLoop, floor_handed_none]
  | succ n ih =>
    rw [State.popLoop]
    cases hnc : s.nextClass with
    | none =>
      dsimp only
      rw [floor_handed_none]
    | some r =>
      obtain ⟨cls, s₁⟩ := r
      dsimp only
      have h₁ : floor s₁ = floor s := floor_nextClass hnc
      cases hpq : s₁.popQueue cls with
      | none =>
        dsimp only
        rw [floor_handed_none, h₁]
      | some r =>
        obtain ⟨id, s₂⟩ := r
        dsimp only
        obtain ⟨rest, hq, h₂⟩ := floor_popQueue hpq
        rw [h₁] at hq h₂
        have hcl : (floor s).closed = false := hc
        have hjobs : (floor s₂).jobs = (floor s).jobs := by rw [h₂]
        cases hj : s₂.jobs[id]? with
        | none =>
          have hn : (floor s).jobs id = none := by
            rw [← hjobs]
            exact cores_none hj
          have hstep : Dispatch (floor s) (floor s₂) := by
            rw [h₂]
            exact .skips _ cls id rest hcl hq hn
          refine Relation.ReflTransGen.head hstep (ih s₂ ?_)
          have hcl₂ : (floor s₂).closed = false := by rw [h₂]; exact hcl
          exact hcl₂
        | some job =>
          have hsome : (floor s).jobs id = some job.core := by
            rw [← hjobs]
            exact cores_some hj
          dsimp only
          cases hp : job.payload with
          | none =>
            dsimp only
            rw [floor_handed_none, h₂]
            exact .single (.stuck _ cls id rest _ hcl hq hsome (by simp [WorkerJob.core, hp]))
          | some payload =>
            have hl : job.core.loaded = true := by simp [WorkerJob.core, hp]
            refine .single ?_
            show Dispatch _ (floor { (s₂.lend job cls payload).2 with
              handed := (s₂.lend job cls payload).2.handed ++ [(s₂.lend job cls payload).1] })
            rw [floor_lend, h₂]
            exact .lends _ cls id rest _ hcl hq hsome hl

theorem popNextToDispatch_dispatch (s : State) :
    Relation.ReflTransGen Dispatch (floor s) (floor { s.popNextToDispatch.2 with
      handed := s.popNextToDispatch.2.handed ++ s.popNextToDispatch.1.toList }) := by
  unfold State.popNextToDispatch
  split_ifs with h1 h2
  · rw [floor_handed_none]
  · rw [floor_handed_none]
  · simp only [Bool.or_eq_true, not_or, Bool.not_eq_true] at h1
    exact popLoop_dispatch _ s h1.1.2

theorem handOverLoop_dispatch (n : Nat) (s : State) :
    Relation.ReflTransGen Dispatch (floor s) (floor (State.handOverLoop n s)) := by
  induction n generalizing s with
  | zero => exact .refl
  | succ n ih =>
    have hpop := popNextToDispatch_dispatch s
    rw [State.handOverLoop]
    cases hp : s.popNextToDispatch with
    | mk o s₁ =>
      rw [hp] at hpop
      cases o with
      | none =>
        rw [floor_handed_none] at hpop
        exact hpop
      | some h => exact hpop.trans (ih _)

theorem handOver_dispatch (s : State) : Relation.ReflTransGen Dispatch (floor s) (floor s.handOver) :=
  handOverLoop_dispatch _ s

theorem takeHanded_dispatch {h : HandedJob} (ht : s.takeHanded = some (h, s')) :
    ∃ v rest, Relation.ReflTransGen Dispatch (floor s) v ∧ v.handed = (h.id, h.inc) :: rest ∧
      floor s' = { v with handed := rest } := by
  unfold State.takeHanded at ht
  dsimp only at ht
  split at ht
  · cases ht
  · rename_i h' rest hh
    cases ht
    refine ⟨floor s.handOver, rest.map fun h => (h.id, h.inc), handOver_dispatch s, ?_, rfl⟩
    show s.handOver.handed.map _ = _
    rw [hh]
    rfl

end Dispatching

section Thread

variable {s : State} {j : JobId}

theorem detachWaiter_incs {inc : Incarnation} {ws ws' : List Waiter} (h : State.detachWaiter inc ws = some ws') :
    ws'.map Waiter.inc = ws.map Waiter.inc := by
  induction ws generalizing ws' with
  | nil => cases h
  | cons w ws ih =>
    rw [State.detachWaiter] at h
    split_ifs at h
    · cases h
      rfl
    · obtain ⟨ws₁, h₁, rfl⟩ := Option.map_eq_some_iff.1 h
      simp [ih h₁]

theorem floor_unqueue (s : State) (job : WorkerJob) : floor (s.unqueue job) = { floor s with
    queue := Function.update (floor s).queue job.cls (((floor s).queue job.cls).filter (· ≠ job.id)) } := by
  unfold State.unqueue
  cases job.cls with
  | restore =>
    unfold floor
    simp only [Floor.mk.injEq, and_true, true_and]
    funext c
    cases c with
    | restore => rfl
    | park => rfl
  | park =>
    unfold floor
    simp only [Floor.mk.injEq, and_true, true_and]
    funext c
    cases c with
    | restore => rfl
    | park => rfl

/-- A cancel leaves the view as it is, or takes a queued job out of its queue and ends it. -/
theorem floor_cancelWaiter (s : State) (j : JobId) (inc : Incarnation) :
    floor (s.cancelWaiter j inc).2 = floor s ∨
    ∃ c, (floor s).jobs j = some c ∧ c.status = .queued ∧ floor (s.cancelWaiter j inc).2 =
      { floor s with queue := Function.update (floor s).queue c.cls (((floor s).queue c.cls).filter (· ≠ c.id)) }.endAt
        j := by
  unfold State.cancelWaiter
  cases hj : s.jobs[j]? with
  | none => exact Or.inl rfl
  | some job =>
    dsimp only
    split_ifs with hk
    · exact Or.inl rfl
    · cases hd : State.detachWaiter inc job.waiters with
      | none => exact Or.inl rfl
      | some ws =>
        have hcore : ∀ b, ({ job with waiters := ws, cancelling := b } : WorkerJob).core = job.core := by
          intro b
          simp [WorkerJob.core, detachWaiter_incs hd]
        have hsame : ∀ (job' : WorkerJob) (t : CoalesceTable), job'.core = job.core →
            floor { s with jobs := s.jobs.insert j job', coalesce := t } = floor s := by
          intro job' t hc
          unfold floor
          simp only [cores_insert_same hj hc]
        have htwice : ∀ (job₁ job₂ : WorkerJob) (t : CoalesceTable), job₁.core = job.core → job₂.core = job.core →
            floor { s with jobs := (s.jobs.insert j job₁).insert j job₂, coalesce := t } = floor s := by
          intro job₁ job₂ t h₁ h₂
          have hget : (s.jobs.insert j job₁)[j]? = some job₁ := by rw [Table.get_insert, if_pos rfl]
          unfold floor
          simp only [cores_insert_same hget (h₂.trans h₁.symm), cores_insert_same hj h₁]
        dsimp only
        split
        · exact Or.inl (hsame _ _ (hcore job.cancelling))
        · split
          · exact Or.inl (htwice _ _ _ (hcore job.cancelling) (hcore true))
          · rename_i hst
            refine Or.inr ⟨job.core, cores_some hj, hst, ?_⟩
            dsimp only
            rw [floor_endJob, floor_unqueue, hsame _ _ (hcore job.cancelling)]
            rfl
          · exact Or.inl (htwice _ _ _ (hcore job.cancelling) (hcore true))

theorem floor_cancelRefused (s : State) (j : JobId) : floor (s.cancelRefused j) = floor s := by
  have hjobs : cores (s.jobs.modify j fun j => { j with cancelling := false }) = cores s.jobs := by
    funext i
    unfold cores
    rw [Table.get_modify]
    split_ifs
    · cases s.jobs[i]? with
      | none => rfl
      | some job => rfl
    · rfl
  unfold State.cancelRefused floor
  simp only [hjobs]

theorem floor_returnLeases (s : State) (ids : List JobId) : floor (s.returnLeases ids) = floor s := by
  unfold State.returnLeases floor
  simp only [Floor.mk.injEq, and_true, true_and]
  refine cores_map_same _ fun i j => ?_
  split_ifs <;> rfl

theorem floor_panic (s : State) : floor s.panic = { (floor s).clearQueues with closed := true } := by
  unfold State.panic
  rw [floor_returnLeases]
  unfold floor Floor.clearQueues
  simp only [List.map_nil, Floor.mk.injEq, and_true, true_and]
  funext c
  cases c with
  | restore => rfl
  | park => rfl

theorem floor_orphanJobs (s : State) : floor s.orphanJobs = (floor s).orphanJobs := by
  unfold State.orphanJobs floor Floor.orphanJobs
  simp only [Floor.mk.injEq, and_true, true_and]
  exact cores_map _ (fun c => { c with orphaned := true }) fun i j => rfl

theorem floor_orphanAll (s : State) :
    floor s.orphanAll = s.orphanJobs.reapable.foldl Floor.endAt (floor s).orphanJobs := by
  unfold State.orphanAll
  rw [floor_reapOrphans, floor_orphanJobs]

theorem floor_beginShutdown (s : State) (drop : Bool) : floor (s.beginShutdown drop).1 =
    (s.restoreQueue ++ s.parkQueue ++ s.handed.map HandedJob.id).foldl Floor.endAt
      { (floor s).clearQueues with closed := true, dropped := s.workerDropped || drop } := by
  unfold State.beginShutdown
  rw [floor_cancelUnstarted]
  rfl

theorem floor_register_error (s : State) (j : JobId) (e : PlatformError) :
    floor (s.register j (.error e)).1 = (floor s).endAt j := floor_endJob s j _

theorem floor_register_ok {c : Core} {i : JobId} (hj : (floor s).jobs j = some c) :
    ((∃ o, (floor s).owner i = some o ∧ o ≠ j) ∧ floor (s.register j (.ok i)).1 = (floor s).orphans j c i) ∨
    (((floor s).owner i = none ∨ (floor s).owner i = some j) ∧ floor (s.register j (.ok i)).1 = (floor s).assigns j c i) := by
  obtain ⟨job, hget, rfl⟩ := Option.map_eq_some_iff.1 hj
  unfold State.register
  simp only [hget]
  by_cases ht : (s.byInner[i]?.any fun o => o ≠ j) = true
  · rw [if_pos ht]
    obtain ⟨o, ho, hne⟩ := (Option.any_eq_true _ _).1 ht
    refine Or.inl ⟨⟨o, ho, by simpa using hne⟩, ?_⟩
    unfold floor Floor.orphans
    simp only [cores_insert]
    rfl
  · rw [if_neg ht]
    refine Or.inr ⟨?_, ?_⟩
    · cases ho : s.byInner[i]? with
      | none => exact Or.inl ho
      | some o =>
        rw [ho] at ht
        refine Or.inr ?_
        show s.byInner[i]? = some j
        rw [ho]
        simpa using ht
    · unfold floor Floor.assigns
      simp only [cores_insert, Floor.mk.injEq, and_true, true_and]
      refine ⟨rfl, ?_⟩
      funext k
      rw [Table.get_insert]
      by_cases hk : i = k
      · subst hk
        rw [if_pos rfl, Function.update_self]
      · rw [if_neg hk, Function.update_of_ne (Ne.symm hk)]

/-- One completion of the store: stale, a report to the riders, or the job's end. -/
theorem floor_reapOne (s : State) (c : Completion) :
    (floor (s.reapOne c) = floor s ∧
      ¬ (c.terminal.isSome = true ∧
        ∃ j k, (floor s).owner c.job = some j ∧ (floor s).jobs j = some k ∧ k.inc = c.incarnation)) ∨
    ∃ j k, (floor s).owner c.job = some j ∧ (floor s).jobs j = some k ∧ k.inc = c.incarnation ∧
      ((c.terminal = none ∧ floor (s.reapOne c) = (floor s).reports j k) ∨
        (c.terminal.isSome = true ∧ floor (s.reapOne c) = (floor s).ends j k)) := by
  unfold State.reapOne
  cases ho : s.byInner[c.job]? with
  | none =>
    refine Or.inl ⟨rfl, ?_⟩
    rintro ⟨-, j, k, hj, -⟩
    have hn : (floor s).owner c.job = none := ho
    rw [hn] at hj
    cases hj
  | some id =>
    have how : (floor s).owner c.job = some id := ho
    dsimp only
    cases hj : s.jobs[id]? with
    | none =>
      refine Or.inl ⟨rfl, ?_⟩
      rintro ⟨-, j, k, hj', hk, -⟩
      rw [how] at hj'
      cases hj'
      have hn : (floor s).jobs id = none := cores_none hj
      rw [hn] at hk
      cases hk
    | some job =>
      have hcore : (floor s).jobs id = some job.core := cores_some hj
      dsimp only
      by_cases hi : job.inc = c.incarnation
      · rw [if_neg (not_not.2 hi)]
        cases ht : c.terminal with
        | none =>
          dsimp only
          by_cases hstale : job.progressSeen = true ∨ c.stage.rank ≤ job.stage.rank
          · rw [if_pos hstale]
            exact Or.inl ⟨rfl, by simp⟩
          · rw [if_neg hstale]
            refine Or.inr ⟨id, job.core, how, hcore, hi, Or.inl ⟨rfl, ?_⟩⟩
            unfold floor Floor.reports
            rw [cores_insert_same hj (by rfl)]
            simp [notices, notice, WorkerJob.core, Function.comp]
        | some t =>
          exact Or.inr ⟨id, job.core, how, hcore, hi, Or.inr ⟨rfl, floor_finishJob s job id _ _ _⟩⟩
      · rw [if_pos hi]
        refine Or.inl ⟨rfl, ?_⟩
        rintro ⟨-, j, k, hj', hk, hki⟩
        rw [how] at hj'
        cases hj'
        rw [hcore] at hk
        cases hk
        exact hi hki

end Thread

end SovereignCore.Store
