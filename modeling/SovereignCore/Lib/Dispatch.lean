import SovereignCore.Lib.Topo

/-!
# Dispatching jobs under dependencies

The books of a dispatcher that hands out ready jobs and hears back from them in any order. A job is ready when all it
depends on has finished; the counters are those of `Topo.release`.

* `Book` : counters, ready jobs, and the jobs that were started, are busy, have finished, have failed;
* `take`, `finish`, `fail` : one job is handed out, comes back, is lost;
* `Kept` : what holds of the books; kept by `take`, `finish` and `fail` from `opened` on;
* `Kept.exists_ready` : with no job busy or lost, and some not finished, there is a ready one.
-/

namespace SovereignCore.Dispatch

open Topo

variable {α : Type} [LinearOrder α]

structure Book (α : Type) where
  waiting : α → Nat
  ready : List α
  started : List α
  busy : List α
  done : List α
  failed : List α

namespace Book

def take (b : Book α) (i : α) : Book α :=
  { b with ready := b.ready.erase i, started := b.started ++ [i], busy := i :: b.busy }

/-- `i` has finished, and `dependents` wait for one less. -/
def finish (b : Book α) (i : α) (dependents : List α) : Book α :=
  let s := dependents.foldl release (b.waiting, b.ready)
  { b with waiting := s.1, ready := s.2, busy := b.busy.erase i, done := i :: b.done }

def fail (b : Book α) (i : α) : Book α := { b with busy := b.busy.erase i, failed := i :: b.failed }

def opened (nodes : List α) (deps : α → List α) : Book α where
  waiting i := (deps i).length
  ready := nodes.filter fun i => (deps i).length = 0
  started := []
  busy := []
  done := []
  failed := []

end Book

/-- What holds of the books of the jobs `nodes`. -/
structure Kept (nodes : List α) (deps : α → List α) (b : Book α) : Prop where
  started_nodup : b.started.Nodup
  split : b.started.Perm (b.busy ++ (b.done ++ b.failed))
  ready_nodup : b.ready.Nodup
  ready_new : ∀ i ∈ b.ready, i ∉ b.started
  sub : ∀ i, i ∈ b.ready ∨ i ∈ b.started → i ∈ nodes
  free : ∀ i, i ∈ b.ready ∨ i ∈ b.started → ∀ d ∈ deps i, d ∈ b.done
  waits : ∀ j ∈ nodes, b.waiting j = ((deps j).filter (· ∉ b.done)).length
  ripe : ∀ j ∈ nodes, b.waiting j = 0 → j ∈ b.ready ∨ j ∈ b.started

namespace Kept

variable {nodes dependents : List α} {deps : α → List α} {b : Book α} {i : α}

theorem mem_started (h : Kept nodes deps b) : i ∈ b.started ↔ i ∈ b.busy ∨ i ∈ b.done ∨ i ∈ b.failed := by
  rw [h.split.mem_iff, List.mem_append, List.mem_append]

theorem not_done (h : Kept nodes deps b) (hi : i ∈ b.busy) : i ∉ b.done := by
  have hnd := h.split.nodup_iff.1 h.started_nodup
  exact fun hd => (List.nodup_append'.1 hnd).2.2 hi (List.mem_append_left _ hd)

theorem done_nodup (h : Kept nodes deps b) : b.done.Nodup :=
  (List.nodup_append'.1 (List.nodup_append'.1 (h.split.nodup_iff.1 h.started_nodup)).2.1).1

theorem done_sub (h : Kept nodes deps b) (hi : i ∈ b.done) : i ∈ nodes :=
  h.sub i (.inr (h.mem_started.2 (.inr (.inl hi))))

theorem perm_busy (h : Kept nodes deps b) {busy : List α} (hperm : b.busy.Perm busy) :
    Kept nodes deps { b with busy := busy } :=
  ⟨h.started_nodup, h.split.trans (hperm.append_right _), h.ready_nodup, h.ready_new, h.sub, h.free, h.waits, h.ripe⟩

theorem opened (hnodes : nodes.Nodup) : Kept nodes deps (Book.opened nodes deps) where
  started_nodup := List.nodup_nil
  split := .refl _
  ready_nodup := hnodes.filter _
  ready_new _ _ := List.not_mem_nil
  sub i hi := by
    rcases hi with hi | hi
    · exact (List.mem_filter.1 hi).1
    · exact absurd hi List.not_mem_nil
  free i hi d hd := by
    rcases hi with hi | hi
    · have hzero : (deps i).length = 0 := by simpa using (List.mem_filter.1 hi).2
      rw [List.length_eq_zero_iff.1 hzero] at hd
      exact absurd hd List.not_mem_nil
    · exact absurd hi List.not_mem_nil
  waits j _ := by simp [Book.opened]
  ripe j hj hzero := .inl (List.mem_filter.2 ⟨hj, decide_eq_true hzero⟩)

theorem take (h : Kept nodes deps b) (hi : i ∈ b.ready) : Kept nodes deps (b.take i) := by
  have hfrom : ∀ j, j ∈ b.ready.erase i ∨ j ∈ b.started ++ [i] → j ∈ b.ready ∨ j ∈ b.started := by
    rintro j (hj | hj)
    · exact .inl (List.mem_of_mem_erase hj)
    · rcases List.mem_append.1 hj with hj | hj
      · exact .inr hj
      · exact .inl (List.mem_singleton.1 hj ▸ hi)
  constructor
  case started_nodup =>
    exact List.nodup_append'.2 ⟨h.started_nodup, List.nodup_singleton i, List.disjoint_singleton.2 (h.ready_new i hi)⟩
  case split => exact (List.perm_append_singleton i b.started).trans (h.split.cons i)
  case ready_nodup => exact h.ready_nodup.erase i
  case ready_new =>
    intro j hj hmem
    obtain ⟨hne, hj⟩ := (h.ready_nodup.mem_erase_iff).1 hj
    rcases List.mem_append.1 hmem with hmem | hmem
    · exact h.ready_new j hj hmem
    · exact hne (List.mem_singleton.1 hmem)
  case sub => exact fun j hj => h.sub j (hfrom j hj)
  case free => exact fun j hj => h.free j (hfrom j hj)
  case waits => exact h.waits
  case ripe =>
    intro j hj hzero
    by_cases hji : j = i
    · exact .inr (List.mem_append_right _ (List.mem_singleton.2 hji))
    · rcases h.ripe j hj hzero with hj | hj
      · exact .inl ((h.ready_nodup.mem_erase_iff).2 ⟨hji, hj⟩)
      · exact .inr (List.mem_append_left _ hj)

theorem fail (h : Kept nodes deps b) (hi : i ∈ b.busy) : Kept nodes deps (b.fail i) := by
  refine ⟨h.started_nodup, h.split.trans ?_, h.ready_nodup, h.ready_new, h.sub, h.free, h.waits, h.ripe⟩
  calc b.busy ++ (b.done ++ b.failed)
      _ |>.Perm ((i :: b.busy.erase i) ++ (b.done ++ b.failed)) := (List.perm_cons_erase hi).append_right _
      _ |>.Perm (b.busy.erase i ++ i :: (b.done ++ b.failed)) := List.perm_middle.symm
      _ |>.Perm (b.busy.erase i ++ (b.done ++ i :: b.failed)) := List.perm_middle.symm.append_left _

theorem finish (h : Kept nodes deps b) (hi : i ∈ b.busy) (hdeps : ∀ j, (deps j).Nodup) (hdependents : dependents.Nodup)
    (hlinked : ∀ j, j ∈ dependents ↔ j ∈ nodes ∧ i ∈ deps j) : Kept nodes deps (b.finish i dependents) := by
  have hnew : i ∉ b.done := h.not_done hi
  have hwaits : ∀ j ∈ nodes, (b.finish i dependents).waiting j = ((deps j).filter (· ∉ i :: b.done)).length := by
    intro j hj
    have hperm : (deps j).filter (· ∉ i :: b.done) = (deps j).filter (· ∉ b.done ++ [i]) :=
      List.filter_congr fun x _ => by simp [or_comm]
    rw [hperm, length_filter_done (hdeps j) hnew, ← h.waits j hj]
    exact (releases_waiting hdependents j).trans (if_congr ((hlinked j).trans (and_iff_right hj)) rfl rfl)
  -- A job that waited for `i` was not ready and had not been started.
  have hlate : ∀ j ∈ dependents, j ∉ b.started := fun j hj hmem =>
    hnew (h.free j (.inr hmem) i ((hlinked j).1 hj).2)
  have hready : ∀ j, j ∈ (b.finish i dependents).ready ↔ j ∈ b.ready ∨ j ∈ dependents ∧ b.waiting j - 1 = 0 :=
    mem_releases hdependents
  have hmore : ∀ j ∈ dependents, (b.finish i dependents).waiting j = b.waiting j - 1 := fun j hj =>
    (releases_waiting hdependents j).trans (if_pos hj)
  constructor
  case started_nodup => exact h.started_nodup
  case split => exact h.split.trans (((List.perm_cons_erase hi).append_right _).trans List.perm_middle.symm)
  case ready_nodup => exact nodup_releases h.ready_nodup
  case ready_new =>
    intro j hj
    rcases (hready j).1 hj with hj | ⟨hj, -⟩
    · exact h.ready_new j hj
    · exact hlate j hj
  case sub =>
    rintro j (hj | hj)
    · rcases (hready j).1 hj with hj | ⟨hj, -⟩
      · exact h.sub j (.inl hj)
      · exact ((hlinked j).1 hj).1
    · exact h.sub j (.inr hj)
  case free =>
    rintro j (hj | hj) d hd
    · rcases (hready j).1 hj with hj | ⟨hj, hzero⟩
      · exact List.mem_cons_of_mem _ (h.free j (.inl hj) d hd)
      · have hnodes := ((hlinked j).1 hj).1
        exact free_iff.1 ((hwaits j hnodes).symm.trans ((hmore j hj).trans hzero)) d hd
    · exact List.mem_cons_of_mem _ (h.free j (.inr hj) d hd)
  case waits => exact hwaits
  case ripe =>
    intro j hj hzero
    by_cases hmem : j ∈ dependents
    · exact .inl ((hready j).2 (.inr ⟨hmem, (hmore j hmem).symm.trans hzero⟩))
    · have hsame : (b.finish i dependents).waiting j = b.waiting j := (releases_waiting hdependents j).trans (if_neg hmem)
      exact (h.ripe j hj (hsame.symm.trans hzero)).imp_left fun hj => (hready j).2 (.inl hj)

/-- The first job in the order that has not finished waits for none. -/
theorem exists_ready (h : Kept nodes deps b) {order : List α} (hfirst : DepsFirst deps [] order)
    (horder : ∀ j ∈ nodes, j ∈ order) (hdeps : ∀ j ∈ nodes, ∀ d ∈ deps j, d ∈ nodes) (hbusy : b.busy = [])
    (hfailed : b.failed = []) {j : α} (hj : j ∈ nodes) (hopen : j ∉ b.done) : ∃ i, i ∈ b.ready := by
  obtain ⟨before, i, rest, rfl, hi, hbefore⟩ : ∃ before i rest, order = before ++ i :: rest ∧
      (i ∈ nodes ∧ i ∉ b.done) ∧ ∀ d ∈ before, ¬ (d ∈ nodes ∧ d ∉ b.done) := by
    obtain ⟨i, hfind⟩ := Option.isSome_iff_exists.1 (List.find?_isSome (p := fun i => i ∈ nodes ∧ i ∉ b.done).2
      ⟨j, horder j hj, decide_eq_true ⟨hj, hopen⟩⟩)
    obtain ⟨hi, before, rest, rfl, hbefore⟩ := List.find?_eq_some_iff_append.1 hfind
    refine ⟨before, i, rest, rfl, of_decide_eq_true hi, fun d hd hboth => ?_⟩
    simpa [hboth] using hbefore d hd
  have hdone : ∀ d ∈ deps i, d ∈ b.done := by
    intro d hd
    have hmem := hfirst.split d hd
    rw [List.nil_append] at hmem
    by_contra hnot
    exact hbefore d hmem ⟨hdeps i hi.1 d hd, hnot⟩
  have hzero : b.waiting i = 0 := (h.waits i hi.1).trans (free_iff.2 hdone)
  rcases h.ripe i hi.1 hzero with hready | hstarted
  · exact ⟨i, hready⟩
  · rcases h.mem_started.1 hstarted with hmem | hmem | hmem
    · rw [hbusy] at hmem
      exact absurd hmem List.not_mem_nil
    · exact absurd hmem hi.2
    · rw [hfailed] at hmem
      exact absurd hmem List.not_mem_nil

end Kept

end SovereignCore.Dispatch
