import SovereignCore.Store.Links

/-!
# The completion queue is bounded

Admission counts three slots for a job and one or two for each further rider, on top of the completions that wait to be
polled. What a job can still send is never more: a terminal for each rider, and for a store one progress report before
it. So the queue has room for everything that is owed, whoever is next.

* `WorkerJob.owed` : the completions that a job has still to send;
* `Room` : what waits and what is owed fit into the capacity; every change of the books keeps it;
* `completion_queue_bound` : so it is in every state of every run, and at the longest moment of every step.
-/

namespace SovereignCore.Store

open Std Table

/-- The completions that the job has still to send: a terminal to each rider, and for a store that has not reported its
progress a report to each. -/
def WorkerJob.owed (j : WorkerJob) : Nat :=
  (State.riders j).length * if j.kind = .store ∧ j.progressSeen = false then 2 else 1

theorem length_riders (j : WorkerJob) : (State.riders j).length = max 1 j.waiters.length := by
  unfold State.riders
  cases hw : j.waiters with
  | nil => rfl
  | cons w ws => simp

theorem owed_le (j : WorkerJob) : j.owed ≤ 3 + j.slots := by
  unfold WorkerJob.owed WorkerJob.slots State.slotsPer
  rw [length_riders]
  by_cases hs : j.kind = .store
  · rw [if_pos hs]
    split_ifs <;> omega
  · rw [if_neg hs, if_neg (fun h => hs h.1)]
    omega

structure Room (cap : Nat) (b : Books) : Prop where
  capacity : b.capacity = cap
  fits : b.unread + total b.jobs WorkerJob.owed ≤ cap

namespace Room

variable {cap : Nat} {b b' : Books} {P : Books → WorkerJob → Prop} {j : JobId} {job job' : WorkerJob}

theorem owed_le_taken : b.unread + total b.jobs WorkerJob.owed ≤ b.taken := by
  have hle : total b.jobs WorkerJob.owed ≤ total b.jobs fun j => 3 + j.slots := total_le_total owed_le
  have hthree : total b.jobs (fun _ => 3) = 3 * b.jobs.size := by
    rw [size_eq_total]
    unfold total
    rw [← List.sum_map_mul_left, Nat.mul_one]
  rw [total_add, hthree] at hle
  unfold Books.taken
  omega

/-- One job's record is replaced, and so many completions are sent. -/
theorem put (h : Room cap b) (hj : b.jobs[j]? = some job) (hjobs : b'.jobs = b.jobs.insert j job') (hcfg : b'.cfg = b.cfg)
    (hfits : b'.unread + job'.owed ≤ b.unread + job.owed) : Room cap b' := by
  refine ⟨?_, ?_⟩
  · rw [← h.capacity]
    unfold Books.capacity
    rw [hcfg]
  · have hsum := total_insert (w := WorkerJob.owed) (v := job') hj
    have hold := h.fits
    rw [hjobs]
    omega

theorem opens (h : Room cap b) (hb : Balanced b) (ho : Opens b b') : Room cap b' := by
  obtain ⟨job, hnew, hroom, -⟩ := ho
  refine ⟨h.capacity, ?_⟩
  have hfree : b.jobs[b.next]? = none := by
    cases hn : b.jobs[b.next]? with
    | none => rfl
    | some job' => exact absurd (hb.below _ _ hn) (Nat.lt_irrefl _)
  have hsum : total (b.opens job).jobs WorkerJob.owed = total b.jobs WorkerJob.owed + job.owed := total_insert_new hfree
  have hslots : job.slots = 0 := by
    unfold WorkerJob.slots
    rw [hnew.waiters]
    simp
  have hown := owed_le job
  have htaken := owed_le_taken (b := b)
  rw [hsum]
  show b.unread + _ ≤ cap
  rw [← h.capacity]
  omega

theorem assigns (h : Room cap b) (ha : Assigns b b') : Room cap b' := by
  obtain ⟨j, job, i, hj, hs, hi⟩ := ha
  exact h.put hj rfl rfl (Nat.le_refl _)

theorem move (h : Room cap b) (hb : Balanced b) (hm : Move P b b') : Room cap b' := by
  cases hm with
  | joins j job inc t hj hk hc hi hroom ht =>
    -- the room that was asked for covers what the new rider is owed
    refine ⟨h.capacity, ?_⟩
    have hsum := total_insert (w := WorkerJob.owed)
      (v := { job with waiters := job.waiters ++ [{ inc := inc }] }) hj
    have htaken := owed_le_taken (b := b)
    have hmore : ({ job with waiters := job.waiters ++ [{ inc := inc }] } : WorkerJob).owed ≤
        job.owed + State.slotsPer job.kind := by
      unfold WorkerJob.owed State.slotsPer
      rw [length_riders, length_riders]
      dsimp only
      rw [List.length_append, List.length_singleton]
      by_cases hs : job.kind = .store
      · rw [if_pos hs]
        split_ifs <;> omega
      · rw [if_neg hs, if_neg (fun h => hs h.1)]
        omega
    show b.unread + total (b.jobs.insert j _) WorkerJob.owed ≤ cap
    rw [← h.capacity]
    omega
  | withdraws j job inc ws hj hk hw hp =>
    refine h.put hj rfl rfl (Nat.le_of_eq ?_)
    show b.unread + _ = _
    have hlen : ws.length = job.waiters.length := by
      have := congrArg List.length (detachWaiter_incs hw)
      simpa using this
    unfold WorkerJob.owed
    rw [length_riders, length_riders]
    dsimp only
    rw [hlen]
  | revises m hm hc =>
    refine ⟨h.capacity, ?_⟩
    have hsum : total m (fun job => job.account.owed) = total b.jobs fun job => job.account.owed :=
      total_congr (w := WorkerJob.owed) hm
    show b.unread + total m (fun job => job.account.owed) ≤ cap
    rw [hsum]
    exact h.fits
  | lends j job cls payload hj hl =>
    have hid := hb.keyed j job hj
    refine h.put (j := job.id) (show b.jobs[job.id]? = some job by rw [hid]; exact hj) rfl rfl (Nat.le_of_eq ?_)
    show b.unread + _ = _
    unfold State.lent
    cases payload.guard with
    | none => rfl
    | some g => rfl
  | reports j job stage hj hk hs hp =>
    refine h.put hj rfl rfl ?_
    show b.unread + job.waiters.length + _ ≤ _
    unfold WorkerJob.owed
    rw [length_riders, length_riders]
    simp only [hk, hs, and_true, Bool.true_eq_false, and_false, if_true, if_false]
    omega
  | ends j job hj hp =>
    refine ⟨h.capacity, ?_⟩
    have hsum := total_erase (w := WorkerJob.owed) hj
    have hold := h.fits
    have hone : (State.riders job).length ≤ job.owed := by
      unfold WorkerJob.owed
      split_ifs <;> omega
    show b.unread + (State.riders job).length + total (b.jobs.erase j) WorkerJob.owed ≤ cap
    omega
  | polls n =>
    refine ⟨h.capacity, ?_⟩
    have hold := h.fits
    show b.unread - n + total b.jobs WorkerJob.owed ≤ cap
    omega
  | shuts => exact ⟨h.capacity, h.fits⟩
  | hands l hl => exact ⟨h.capacity, h.fits⟩

theorem moves (h : Room cap b) (hb : Balanced b) (hm : Moves b b') : Room cap b' := by
  induction hm with
  | refl => exact h
  | tail hms hstep ih => exact ih.move (hb.moves hms).1 hstep

theorem run {cfg : WorkerConfig} {y : System} (h : Run (.new cfg) y) :
    Room (3 * (cfg.maxRestoreOps + cfg.maxParkOps)) (books y.state) := by
  induction h with
  | refl => exact ⟨rfl, Nat.zero_le _⟩
  | tail hrun hstep ih =>
    have hs := Sound.run hrun
    rcases (hs.turns hstep).turned with ho | ha | hm
    · exact ih.opens hs.balanced ho
    · exact ih.assigns ha
    · exact ih.moves hs.balanced hm

end Room

/-- **The completion queue is bounded.** In every state of every run the completions that wait and those that the open
jobs have still to send fit into the capacity; and in every step everything that waits or is sent in it fits, before any
of it is polled. -/
theorem completion_queue_bound (cfg : WorkerConfig) (y : System) (h : Run (.new cfg) y) :
    y.state.completionCapacity = 3 * (cfg.maxRestoreOps + cfg.maxParkOps) ∧
    y.state.completions.length + total y.state.jobs WorkerJob.owed ≤ y.state.completionCapacity ∧
    ∀ y', Step y y' →
      y'.polled.length + y'.state.completions.length ≤ y.polled.length + y.state.completionCapacity := by
  have hroom := Room.run h
  have hcap : y.state.completionCapacity = 3 * (cfg.maxRestoreOps + cfg.maxParkOps) := hroom.capacity
  refine ⟨hcap, hcap ▸ hroom.fits, fun y' hstep => ?_⟩
  rw [hcap]
  have hafter := (Room.run (h.tail hstep)).fits
  have hsame : y'.polled = y.polled → y'.polled.length + y'.state.completions.length ≤
      y.polled.length + 3 * (cfg.maxRestoreOps + cfg.maxParkOps) := by
    intro he
    have hun : (books y'.state).unread = y'.state.completions.length := rfl
    rw [he]
    omega
  cases hstep with
  | poll max =>
    have hreap := (hroom.moves (Sound.run h).balanced (reapOrphans_moves y.state)).fits
    have hun : (books y.state.reapOrphans).unread = y.state.reapOrphans.completions.length := rfl
    unfold State.poll
    dsimp only
    rw [List.length_append, List.length_take, List.length_drop]
    omega
  | _ => exact hsame rfl

theorem completion_queue_bound_oneStore : Run (.new {}) oneStore ∧
    oneStore.state.completions.length + total oneStore.state.jobs WorkerJob.owed ≤ oneStore.state.completionCapacity :=
  ⟨run_oneStore, (completion_queue_bound {} oneStore run_oneStore).2.1⟩

end SovereignCore.Store
