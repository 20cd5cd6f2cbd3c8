import SovereignCore.Store.Worker

/-!
# The bounds of coalescing

The table is changed by four operations, in any order; a job id that is opened is not tracked at that time. The total
counts the waiters beyond each job's first. A job's last waiter leaves without a change of the total, since the first
was never counted; a job that is closed gives back what it still counts for.

* `Op`, `step`, `Reaches` : sequences of operations;
* `Op.Exact` : the subtractions of the operation do not underflow;
* `Counted` : the total is the sum over the jobs, and all is within the limits; `counted_step`, `counted_of_reaches`;
* `coalesce_bounded` : so at every point of every sequence.
-/

namespace SovereignCore.Store.CoalesceTable

open Std Table

inductive Op
  | «open» (share : Share) (key : ChunkKey) (job : JobId)
  | attach (job : JobId)
  | detach (job : JobId)
  | close (job : JobId)

variable {t t' : CoalesceTable} {job : JobId} {e : CoalesceEntry} {op : Op}

/-- A refused `attach` changes nothing. -/
def step (t : CoalesceTable) : Op → CoalesceTable
  | .open share key job => t.open share key job
  | .attach job =>
    match t.attach job with
    | .ok t' => t'
    | .error _ => t
  | .detach job => (t.detach job).1
  | .close job => t.close job

def Op.Fresh (t : CoalesceTable) : Op → Prop
  | .open _ _ job => t.jobs[job]? = none
  | _ => True

/-- The table after some operations. -/
inductive Reaches (t : CoalesceTable) : List Op → CoalesceTable → Prop
  | nil : Reaches t [] t
  | snoc {ops t' op} : Reaches t ops t' → op.Fresh t' → Reaches t (ops ++ [op]) (t'.step op)

def Op.Exact (t : CoalesceTable) : Op → Prop
  | .detach job => ∀ e : CoalesceEntry, t.jobs[job]? = some e → 1 < e.waiters → 1 ≤ t.attachedTotal
  | .close job => ∀ e : CoalesceEntry, t.jobs[job]? = some e → e.waiters - 1 ≤ t.attachedTotal
  | _ => True

def attached (e : CoalesceEntry) : Nat := e.waiters - 1

structure Counted (t : CoalesceTable) : Prop where
  total : t.attachedTotal = Table.total t.jobs attached
  bounded : t.attachedTotal ≤ t.maxWaitersTotal
  waiters : ∀ (job : JobId) (e : CoalesceEntry), t.jobs[job]? = some e → e.waiters ≤ max 1 t.maxWaitersPerJob

theorem counted_new (perJob bound : Nat) : Counted { maxWaitersPerJob := perJob, maxWaitersTotal := bound } where
  total := total_empty.symm
  bounded := Nat.zero_le _
  waiters job e h := by simp at h

theorem Counted.attached_le (h : t.Counted) (hjob : t.jobs[job]? = some e) : e.waiters - 1 ≤ t.attachedTotal := by
  rw [h.total]
  exact le_total (w := attached) hjob

theorem Counted.exact (h : t.Counted) (op : Op) : op.Exact t := by
  cases op with
  | «open» | attach => trivial
  | detach job =>
    intro e he hw
    have := h.attached_le he
    omega
  | close job => exact fun e he => h.attached_le he

/-! ## One operation -/

/-- The entry of one job is replaced by one that is within the bound. -/
theorem waiters_insert {e' : CoalesceEntry} {bound : Nat} (h : ∀ (job : JobId) (e : CoalesceEntry), t.jobs[job]? = some e → e.waiters ≤ bound)
    (he' : e'.waiters ≤ bound) : ∀ (j : JobId) (e : CoalesceEntry), (t.jobs.insert job e')[j]? = some e → e.waiters ≤ bound := by
  intro j e he
  rw [get_insert] at he
  split at he
  · rw [← Option.some.inj he]
    exact he'
  · exact h j e he

theorem Counted.open (h : t.Counted) (share : Share) (key : ChunkKey) (hjob : t.jobs[job]? = none) :
    (t.open share key job).Counted where
  total := by
    show t.attachedTotal = Table.total (t.jobs.insert job ⟨share, key, 1⟩) attached
    rw [total_insert_new hjob, h.total]
    rfl
  bounded := h.bounded
  waiters := waiters_insert h.waiters (le_max_left 1 _)

theorem Counted.attach (h : t.Counted) (hok : t.attach job = .ok t') : t'.Counted := by
  unfold CoalesceTable.attach at hok
  split at hok
  · cases hok
  · rename_i e he
    split at hok
    · cases hok
    · rename_i hpos
      split at hok
      · cases hok
      · rename_i hjob
        split at hok
        · cases hok
        · rename_i htotal
          cases hok
          refine ⟨?_, ?_, waiters_insert h.waiters ?_⟩
          · show t.attachedTotal + 1 = Table.total (t.jobs.insert job { e with waiters := e.waiters + 1 }) attached
            have hsum := total_insert (v := { e with waiters := e.waiters + 1 }) (w := attached) he
            have htot := h.total
            simp only [attached] at hsum htot ⊢
            omega
          · show t.attachedTotal + 1 ≤ t.maxWaitersTotal
            omega
          · show e.waiters + 1 ≤ max 1 t.maxWaitersPerJob
            omega

theorem Counted.detach (h : t.Counted) (job : JobId) : (t.detach job).1.Counted := by
  unfold CoalesceTable.detach
  split
  · exact h
  · rename_i e he
    have hbound := h.waiters job e he
    have hle := h.attached_le he
    have htot := h.total
    split
    · rename_i hlast
      have hsum := total_insert (v := { e with waiters := 0 }) (w := attached) he
      refine ⟨?_, h.bounded, waiters_insert h.waiters (Nat.zero_le _)⟩
      show t.attachedTotal = Table.total (t.jobs.insert job { e with waiters := 0 }) attached
      simp only [attached] at hsum htot ⊢
      omega
    · rename_i hmore
      have hsum := total_insert (v := { e with waiters := e.waiters - 1 }) (w := attached) he
      have hmax := h.bounded
      refine ⟨?_, ?_, waiters_insert h.waiters ?_⟩
      · show t.attachedTotal - 1 = Table.total (t.jobs.insert job { e with waiters := e.waiters - 1 }) attached
        simp only [attached] at hsum htot ⊢
        omega
      · show t.attachedTotal - 1 ≤ t.maxWaitersTotal
        omega
      · show e.waiters - 1 ≤ max 1 t.maxWaitersPerJob
        omega

theorem Counted.close (h : t.Counted) (job : JobId) : (t.close job).Counted := by
  unfold CoalesceTable.close
  split
  · exact h
  · rename_i e he
    have hle := h.attached_le he
    have hsum := total_erase (w := attached) he
    have htot := h.total
    have hmax := h.bounded
    refine ⟨?_, ?_, ?_⟩
    · show t.attachedTotal - (e.waiters - 1) = Table.total (t.jobs.erase job) attached
      simp only [attached] at hsum htot ⊢
      omega
    · show t.attachedTotal - (e.waiters - 1) ≤ t.maxWaitersTotal
      omega
    · intro j e' he'
      rw [get_erase] at he'
      split at he'
      · cases he'
      · exact h.waiters j e' he'

theorem counted_step (h : t.Counted) (hop : op.Fresh t) : (t.step op).Counted := by
  cases op with
  | «open» share key job => exact h.open share key hop
  | attach job =>
    rw [step]
    split
    · exact h.attach ‹_›
    · exact h
  | detach job => exact h.detach job
  | close job => exact h.close job

/-! ## All operations -/

theorem counted_of_reaches {ops : List Op} (h : t.Counted) (hr : t.Reaches ops t') : t'.Counted := by
  induction hr with
  | nil => exact h
  | snoc _ hop ih => exact counted_step ih hop

theorem limits_step (t : CoalesceTable) (op : Op) :
    (t.step op).maxWaitersPerJob = t.maxWaitersPerJob ∧ (t.step op).maxWaitersTotal = t.maxWaitersTotal := by
  cases op with
  | «open» => exact ⟨rfl, rfl⟩
  | attach job =>
    simp only [step, CoalesceTable.attach]
    grind
  | detach job =>
    simp only [step, CoalesceTable.detach]
    grind
  | close job =>
    simp only [step, CoalesceTable.close]
    grind

theorem limits_of_reaches {ops : List Op} (hr : t.Reaches ops t') :
    t'.maxWaitersPerJob = t.maxWaitersPerJob ∧ t'.maxWaitersTotal = t.maxWaitersTotal := by
  induction hr with
  | nil => exact ⟨rfl, rfl⟩
  | @snoc _ t' op _ _ ih =>
    obtain ⟨hjob, htotal⟩ := limits_step t' op
    exact ⟨hjob.trans ih.1, htotal.trans ih.2⟩

/-- After every sequence of operations on a new table the total is the sum of the waiters beyond each job's first and is
within its limit, no job has more waiters than its limit (or one), and no next operation underflows. -/
theorem coalesce_bounded {perJob bound : Nat} {ops : List Op}
    (h : Reaches { maxWaitersPerJob := perJob, maxWaitersTotal := bound } ops t) :
    t.attachedTotal = Table.total t.jobs (fun e => e.waiters - 1) ∧ t.attachedTotal ≤ bound ∧
    (∀ (job : JobId) (e : CoalesceEntry), t.jobs[job]? = some e → e.waiters ≤ max 1 perJob) ∧ ∀ op : Op, op.Exact t := by
  obtain ⟨hjob, hmax⟩ : t.maxWaitersPerJob = perJob ∧ t.maxWaitersTotal = bound := limits_of_reaches h
  have hc := counted_of_reaches (counted_new perJob bound) h
  have hbounded := hc.bounded
  have hwaiters := hc.waiters
  rw [hmax] at hbounded
  rw [hjob] at hwaiters
  exact ⟨hc.total, hbounded, hwaiters, hc.exact⟩

/-- A job is opened, joined, left by its last waiter and closed; a second job keeps one waiter attached. -/
theorem coalesce_bounded_two :
    let ops : List Op := [.open .load 1 1, .attach 1, .attach 1, .detach 1, .open .load 2 2, .attach 2, .close 1]
    let t : CoalesceTable := ops.foldl step { maxWaitersPerJob := 2, maxWaitersTotal := 2 }
    t.attachedTotal = 1 ∧ t.attachedTotal = Table.total t.jobs (fun e => e.waiters - 1) := by
  intro ops t
  have hr : Reaches { maxWaitersPerJob := 2, maxWaitersTotal := 2 } ops t := by
    refine .snoc (.snoc (.snoc (.snoc (.snoc (.snoc (.snoc .nil ?_) ?_) ?_) ?_) ?_) ?_) ?_
    · exact ExtTreeMap.getElem?_empty
    · trivial
    · trivial
    · trivial
    · exact Option.isNone_iff_eq_none.1 (by decide)
    · trivial
    · trivial
  exact ⟨by decide, (coalesce_bounded hr).1⟩

end SovereignCore.Store.CoalesceTable
