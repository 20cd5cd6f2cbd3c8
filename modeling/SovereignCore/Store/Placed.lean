import SovereignCore.Store.Floor

/-!
# Every open job is in somebody's hands

While the worker thread is up, every open job is in a queue, in the hand-over slot, in the thread's hand, owned by a
job of the store that is live or whose terminal the thread has polled, or an orphan that `reap_orphans` will end. After
a panic or the normal exit only orphans are open.

* `Up` : the places, with the facts that keep them disjoint;
* `Up.accepts`, `Up.dispatch`, `Up.ends` and the endings of it : what the calls keep.
-/

namespace SovereignCore.Store

open Std Rides Table

def Thread.hand : Thread → List JobId
  | .holding h => [h.id]
  | .answered j _ => [j]
  | _ => []

def Thread.comps : Thread → List Completion
  | .reaping cs => cs
  | _ => []

/-- A terminal of the store's job `i`, with the token that the job was submitted with. -/
def Completion.ends (d : Completion) (i : JobId) (inc : Incarnation) : Prop :=
  d.job = i ∧ d.incarnation = inc ∧ d.terminal.isSome = true

def Core.Placed (v : Floor) (t : Thread) (n : Inner) (loose : List JobId) (j : JobId) (c : Core) : Prop :=
  match c.status with
  | .queued => j ∈ v.waiting ∨ j ∈ loose
  | .dispatching => j ∈ v.handed.map Prod.fst ∨ j ∈ loose
  | .dispatched i => v.owner i = some j ∧
      ((∃ m ∈ n.live, m.id = i ∧ m.inc = c.inc) ∨ ∃ d ∈ t.comps, d.ends i c.inc)

/-- The store answered the submit of `j` with the id of a live job: a new one, or one that it merged `j` into. -/
def Submitted (v : Floor) (n : Inner) (j : JobId) (c : Core) (i : JobId) : Prop :=
  ∃ m ∈ n.live, m.id = i ∧
    ((v.owner i = none ∧ m.opener = j ∧ m.inc = c.inc) ∨ (v.owner i = some m.opener ∧ m.opener ≠ j))

/-- The owner of a live job of the store is the worker's job that it was accepted for. -/
def InnerJob.Owned (v : Floor) (m : InnerJob) : Prop :=
  v.owner m.id = some m.opener ∧ ∃ c, v.jobs m.opener = some c ∧ c.status = .dispatched m.id ∧ c.inc = m.inc

/-- What holds while the worker thread is up. `loose` are the jobs in the thread's hand and those that the running call
is about to end. -/
structure Up (v : Floor) (t : Thread) (n : Inner) (loose : List JobId) : Prop where
  keyed : ∀ j c, v.jobs j = some c → c.id = j
  below : ∀ j c, v.jobs j = some c → j < v.next
  waiting_below : ∀ j ∈ v.waiting, j < v.next
  queued : ∀ j ∈ v.waiting, ∀ c, v.jobs j = some c → c.status = .queued ∧ c.loaded = true
  handed : ∀ p ∈ v.handed, ∃ c, v.jobs p.1 = some c ∧ c.status = .dispatching ∧ c.inc = p.2
  loose_below : ∀ j ∈ loose, j < v.next
  loosened : ∀ j ∈ loose, ∀ c, v.jobs j = some c → ∀ i, c.status ≠ .dispatched i
  hand : ∀ j ∈ t.hand, j ∈ loose
  held : ∀ h, t = .holding h → ∃ c, v.jobs h.id = some c ∧ c.status = .dispatching ∧ c.inc = h.inc
  answered : ∀ j r, t = .answered j r → ∃ c, v.jobs j = some c ∧ c.status = .dispatching ∧
    ∀ i, r = .ok i → Submitted v n j c i
  distinct : (v.waiting ++ v.handed.map Prod.fst ++ loose).Nodup
  placed : ∀ j c, v.jobs j = some c → c.orphaned = false → c.Placed v t n loose j
  orphan : ∀ j c, v.jobs j = some c → c.orphaned = true → ∃ i, c.status = .dispatched i ∧ v.owner i ≠ some j
  live_owned : ∀ m ∈ n.live, t = .answered m.opener (.ok m.id) ∨ m.Owned v
  owner_open : ∀ i j, v.owner i = some j → i ∈ n.issued ∧ ∃ c, v.jobs j = some c ∧ c.status = .dispatched i
  live_distinct : (n.live.map InnerJob.id).Nodup
  live_issued : ∀ m ∈ n.live, m.id ∈ n.issued
  pending : ∀ d ∈ t.comps, d.terminal.isSome = true → ∀ m ∈ n.live, m.id ≠ d.job
  counted : Tally (fun j => ∃ c, v.jobs j = some c ∧ c.status ≠ .queued) v.busy
  shut : v.closed = true → v.waiting = [] ∧ v.handed = []
  dropped : v.dropped = true → v.closed = true

section Queues

variable {v : Floor} {cls : Class} {rest : List JobId} {j x : JobId}

theorem mem_waiting : x ∈ v.waiting ↔ ∃ cls, x ∈ v.queue cls := by
  unfold Floor.waiting
  rw [List.mem_append]
  constructor
  · rintro (h | h)
    · exact ⟨_, h⟩
    · exact ⟨_, h⟩
  · rintro ⟨cls, h⟩
    cases cls with
    | restore => exact Or.inl h
    | park => exact Or.inr h

theorem waiting_push (v' : Floor) (h : v'.queue = Function.update v.queue cls (v.queue cls ++ [j])) :
    v'.waiting.Perm (j :: v.waiting) := by
  unfold Floor.waiting
  rw [h]
  cases cls with
  | restore =>
    rw [Function.update_self, Function.update_of_ne (by simp), List.append_assoc]
    exact List.perm_middle
  | park =>
    rw [Function.update_self, Function.update_of_ne (by simp), ← List.append_assoc]
    exact (List.perm_append_comm).trans (by simp)

theorem waiting_pop (v' : Floor) (hq : v.queue cls = j :: rest) (h : v'.queue = Function.update v.queue cls rest) :
    v.waiting.Perm (j :: v'.waiting) := by
  unfold Floor.waiting
  rw [h]
  cases cls with
  | restore =>
    rw [Function.update_self, Function.update_of_ne (by simp), hq]
    rfl
  | park =>
    rw [Function.update_self, Function.update_of_ne (by simp), hq]
    exact List.perm_middle

/-- A queue without the ids `j`. -/
theorem waiting_filter (v' : Floor) (h : v'.queue = Function.update v.queue cls ((v.queue cls).filter (· ≠ j))) :
    v'.waiting.Sublist v.waiting ∧ ∀ x ∈ v.waiting, x = j ∨ x ∈ v'.waiting := by
  have hmem : ∀ (l : List JobId) (x : JobId), x ∈ l → x = j ∨ x ∈ l.filter (· ≠ j) := by
    intro l x hx
    by_cases he : x = j
    · exact Or.inl he
    · exact Or.inr (List.mem_filter.2 ⟨hx, by simpa using he⟩)
  unfold Floor.waiting
  rw [h]
  cases cls with
  | restore =>
    rw [Function.update_self, Function.update_of_ne (by simp)]
    refine ⟨List.filter_sublist.append_right _, fun x hx => ?_⟩
    rcases List.mem_append.1 hx with hx | hx
    · exact (hmem _ x hx).imp id (List.mem_append_left _)
    · exact Or.inr (List.mem_append_right _ hx)
  | park =>
    rw [Function.update_self, Function.update_of_ne (by simp)]
    refine ⟨List.filter_sublist.append_left _, fun x hx => ?_⟩
    rcases List.mem_append.1 hx with hx | hx
    · exact Or.inr (List.mem_append_left _ hx)
    · exact (hmem _ x hx).imp id (List.mem_append_right _)

end Queues

theorem Core.Placed.mono {v v' : Floor} {t t' : Thread} {n n' : Inner} {l l' : List JobId} {j : JobId} {c : Core}
    (h : c.Placed v t n l j) (hq : j ∈ v.waiting ∨ j ∈ l → j ∈ v'.waiting ∨ j ∈ l')
    (hh : j ∈ v.handed.map Prod.fst ∨ j ∈ l → j ∈ v'.handed.map Prod.fst ∨ j ∈ l')
    (ho : ∀ i, c.status = .dispatched i → v.owner i = some j → v'.owner i = some j)
    (hm : ∀ i, c.status = .dispatched i → ((∃ m ∈ n.live, m.id = i ∧ m.inc = c.inc) ∨ ∃ d ∈ t.comps, d.ends i c.inc) →
      (∃ m ∈ n'.live, m.id = i ∧ m.inc = c.inc) ∨ ∃ d ∈ t'.comps, d.ends i c.inc) :
    c.Placed v' t' n' l' j := by
  unfold Core.Placed at h ⊢
  cases hs : c.status with
  | queued =>
    rw [hs] at h
    exact hq h
  | dispatching =>
    rw [hs] at h
    exact hh h
  | dispatched i =>
    rw [hs] at h
    exact ⟨ho i hs h.1, hm i hs h.2⟩

namespace Up

section Calls

variable {v v' : Floor} {t : Thread} {n : Inner} {l : List JobId} {j : JobId} {c : Core} {inc : Incarnation}

theorem joins (h : Up v t n l) (hj : v.jobs j = some c) (inc : Incarnation) : Up (v.joins j c inc) t n l := by
  have hback : ∀ i k, (v.joins j c inc).jobs i = some k →
      ∃ k₀, v.jobs i = some k₀ ∧ k = { k₀ with riders := k.riders } := by
    intro i k hk
    simp only [Floor.joins, Function.update_apply] at hk
    split_ifs at hk with he
    · cases hk
      rw [he]
      exact ⟨c, hj, rfl⟩
    · exact ⟨k, hk, rfl⟩
  have hforth : ∀ i k₀, v.jobs i = some k₀ → ∃ r, (v.joins j c inc).jobs i = some { k₀ with riders := r } := by
    intro i k₀ hk
    simp only [Floor.joins, Function.update_apply]
    split_ifs with he
    · rw [he, hj] at hk
      cases hk
      exact ⟨_, rfl⟩
    · exact ⟨k₀.riders, hk⟩
  refine {
    keyed := ?_, below := ?_, waiting_below := h.waiting_below, queued := ?_, handed := ?_, loose_below := h.loose_below,
    loosened := ?_, hand := h.hand, held := ?_, answered := ?_, distinct := h.distinct, placed := ?_, orphan := ?_,
    live_owned := ?_, owner_open := ?_, live_distinct := h.live_distinct, live_issued := h.live_issued,
    pending := h.pending, counted := ?_, shut := h.shut, dropped := h.dropped }
  · intro i k hk
    obtain ⟨k₀, h0, he⟩ := hback i k hk
    rw [he]
    exact h.keyed i k₀ h0
  · intro i k hk
    obtain ⟨k₀, h0, -⟩ := hback i k hk
    exact h.below i k₀ h0
  · intro i hi k hk
    obtain ⟨k₀, h0, he⟩ := hback i k hk
    rw [he]
    exact h.queued i hi k₀ h0
  · intro p hp
    obtain ⟨k₀, h0, hs⟩ := h.handed p hp
    obtain ⟨r, hr⟩ := hforth p.1 k₀ h0
    exact ⟨_, hr, hs⟩
  · intro i hi k hk
    obtain ⟨k₀, h0, he⟩ := hback i k hk
    rw [he]
    exact h.loosened i hi k₀ h0
  · intro g hg
    obtain ⟨k₀, h0, hs⟩ := h.held g hg
    obtain ⟨r, hr⟩ := hforth g.id k₀ h0
    exact ⟨_, hr, hs⟩
  · intro i r hi
    obtain ⟨k₀, h0, hs⟩ := h.answered i r hi
    obtain ⟨r, hr⟩ := hforth i k₀ h0
    exact ⟨_, hr, hs⟩
  · intro i k hk ho
    obtain ⟨k₀, h0, he⟩ := hback i k hk
    rw [he] at ho ⊢
    exact h.placed i k₀ h0 ho
  · intro i k hk ho
    obtain ⟨k₀, h0, he⟩ := hback i k hk
    rw [he] at ho ⊢
    exact h.orphan i k₀ h0 ho
  · intro m hm
    refine (h.live_owned m hm).imp id fun ⟨how, k₀, h0, hs⟩ => ?_
    obtain ⟨r, hr⟩ := hforth _ k₀ h0
    exact ⟨how, _, hr, hs⟩
  · intro i k hk
    obtain ⟨hi, k₀, h0, hs⟩ := h.owner_open i k hk
    obtain ⟨r, hr⟩ := hforth k k₀ h0
    exact ⟨hi, _, hr, hs⟩
  · refine h.counted.congr fun i => ?_
    constructor
    · rintro ⟨k, hk, hs⟩
      obtain ⟨k₀, h0, he⟩ := hback i k hk
      rw [he] at hs
      exact ⟨k₀, h0, hs⟩
    · rintro ⟨k₀, h0, hs⟩
      obtain ⟨r, hr⟩ := hforth i k₀ h0
      exact ⟨_, hr, hs⟩

theorem opens (h : Up v t n l) (ho : v.closed = false) (cls : Class) (inc : Incarnation) :
    Up (v.opens cls inc) t n l := by
  have hperm : (v.opens cls inc).waiting.Perm (v.next :: v.waiting) := waiting_push _ rfl
  have hback : ∀ i k, (v.opens cls inc).jobs i = some k →
      (i = v.next ∧ k = ⟨v.next, .queued, inc, true, false, [inc], cls⟩) ∨ i ≠ v.next ∧ v.jobs i = some k := by
    intro i k hk
    simp only [Floor.opens, Function.update_apply] at hk
    split_ifs at hk with he
    · exact Or.inl ⟨he, (Option.some.inj hk).symm⟩
    · exact Or.inr ⟨he, hk⟩
  -- every job that was there is below the new number
  have hforth : ∀ i k, v.jobs i = some k → (v.opens cls inc).jobs i = some k := by
    intro i k hk
    simp only [Floor.opens]
    rw [Function.update_of_ne (Nat.ne_of_lt (h.below i k hk))]
    exact hk
  have hin : ∀ i, i < v.next → i ≠ v.next := fun i => Nat.ne_of_lt
  refine {
    keyed := ?_, below := ?_, waiting_below := ?_, queued := ?_, handed := ?_, loose_below := ?_, loosened := ?_,
    hand := h.hand, held := ?_, answered := ?_, distinct := ?_, placed := ?_, orphan := ?_, live_owned := ?_,
    owner_open := ?_, live_distinct := h.live_distinct, live_issued := h.live_issued, pending := h.pending,
    counted := ?_, shut := ?_, dropped := h.dropped }
  · intro i k hk
    rcases hback i k hk with ⟨rfl, rfl⟩ | ⟨-, hk⟩
    · rfl
    · exact h.keyed i k hk
  · intro i k hk
    rcases hback i k hk with ⟨rfl, -⟩ | ⟨-, hk⟩
    · exact Nat.lt_succ_self _
    · exact Nat.lt_succ_of_lt (h.below i k hk)
  · intro i hi
    rcases List.mem_cons.1 (hperm.mem_iff.1 hi) with rfl | hi
    · exact Nat.lt_succ_self _
    · exact Nat.lt_succ_of_lt (h.waiting_below i hi)
  · intro i hi k hk
    rcases hback i k hk with ⟨rfl, rfl⟩ | ⟨hne, hk⟩
    · exact ⟨rfl, rfl⟩
    · rcases List.mem_cons.1 (hperm.mem_iff.1 hi) with he | hi
      · exact absurd he hne
      · exact h.queued i hi k hk
  · intro p hp
    obtain ⟨k, hk, hs⟩ := h.handed p hp
    exact ⟨k, hforth _ k hk, hs⟩
  · exact fun i hi => Nat.lt_succ_of_lt (h.loose_below i hi)
  · intro i hi k hk
    rcases hback i k hk with ⟨rfl, -⟩ | ⟨-, hk⟩
    · exact absurd rfl (hin _ (h.loose_below _ hi))
    · exact h.loosened i hi k hk
  · intro g hg
    obtain ⟨k, hk, hs⟩ := h.held g hg
    exact ⟨k, hforth _ k hk, hs⟩
  · intro i r hi
    obtain ⟨k, hk, hs⟩ := h.answered i r hi
    exact ⟨k, hforth _ k hk, hs⟩
  · show ((v.opens cls inc).waiting ++ v.handed.map Prod.fst ++ l).Nodup
    rw [List.append_assoc, (hperm.append_right _).nodup_iff, List.cons_append, List.nodup_cons,
      ← List.append_assoc]
    refine ⟨fun hmem => ?_, h.distinct⟩
    rcases List.mem_append.1 hmem with hmem | hmem
    · rcases List.mem_append.1 hmem with hmem | hmem
      · exact absurd rfl (hin _ (h.waiting_below _ hmem))
      · obtain ⟨p, hp, he⟩ := List.mem_map.1 hmem
        obtain ⟨k, hk, -⟩ := h.handed p hp
        exact absurd he (hin _ (h.below _ k hk))
    · exact absurd rfl (hin _ (h.loose_below _ hmem))
  · intro i k hk hf
    rcases hback i k hk with ⟨rfl, rfl⟩ | ⟨-, hk⟩
    · exact Or.inl (hperm.mem_iff.2 (by simp))
    · refine (h.placed i k hk hf).mono ?_ id (fun _ _ => id) (fun _ _ => id)
      exact Or.imp (fun hw => hperm.mem_iff.2 (List.mem_cons_of_mem _ hw)) id
  · intro i k hk hf
    rcases hback i k hk with ⟨-, rfl⟩ | ⟨-, hk⟩
    · cases hf
    · exact h.orphan i k hk hf
  · intro m hm
    refine (h.live_owned m hm).imp id fun ⟨how, k, hk, hs⟩ => ?_
    exact ⟨how, k, hforth _ k hk, hs⟩
  · intro i k hk
    obtain ⟨hi, k₀, h0, hs⟩ := h.owner_open i k hk
    exact ⟨hi, k₀, hforth _ k₀ h0, hs⟩
  · refine h.counted.congr fun i => ?_
    constructor
    · rintro ⟨k, hk, hs⟩
      rcases hback i k hk with ⟨-, rfl⟩ | ⟨-, hk⟩
      · exact absurd rfl hs
      · exact ⟨k, hk, hs⟩
    · rintro ⟨k, hk, hs⟩
      exact ⟨k, hforth i k hk, hs⟩
  · intro hcl
    have : v.closed = true := hcl
    rw [ho] at this
    cases this

theorem accepts (h : Up v t n l) (ha : Accepts v j inc v') : Up v' t n l := by
  cases ha with
  | opens cls ho hj => exact h.opens ho cls inc
  | joins c hc hi => exact h.joins hc inc
  | again c hc hi => exact h

theorem dispatching_of_hand (h : Up v t n l) (hj : j ∈ t.hand) :
    ∃ c, v.jobs j = some c ∧ c.status = .dispatching := by
  cases t with
  | holding g =>
    rw [List.mem_singleton.1 hj]
    obtain ⟨c, hc, hs, -⟩ := h.held g rfl
    exact ⟨c, hc, hs⟩
  | answered i r =>
    rw [List.mem_singleton.1 hj]
    obtain ⟨c, hc, hs, -⟩ := h.answered i r rfl
    exact ⟨c, hc, hs⟩
  | looping => cases hj
  | cancelling i k => cases hj
  | reaping cs => cases hj
  | unwinding => cases hj
  | exited => cases hj

theorem dispatching_of_handed (h : Up v t n l) (hj : j ∈ v.handed.map Prod.fst) :
    ∃ c, v.jobs j = some c ∧ c.status = .dispatching := by
  obtain ⟨p, hp, rfl⟩ := List.mem_map.1 hj
  obtain ⟨c, hc, hs, -⟩ := h.handed p hp
  exact ⟨c, hc, hs⟩

/-- Ids leave the queues and the hand-over slot, into the loose ones or because their job has ended. -/
theorem loosen (h : Up v t n l) {l' : List JobId} (hjobs : v'.jobs = v.jobs) (hnext : v'.next = v.next)
    (howner : v'.owner = v.owner) (hbusy : v'.busy = v.busy) (hw : ∀ x ∈ v'.waiting, x ∈ v.waiting)
    (hh : ∀ p ∈ v'.handed, p ∈ v.handed)
    (hfrom : ∀ x ∈ l', x ∈ v.waiting ∨ x ∈ v.handed.map Prod.fst ∨ x ∈ l) (hhand : ∀ x ∈ t.hand, x ∈ l')
    (hkeepw : ∀ x ∈ v.waiting, x ∈ v'.waiting ∨ x ∈ l' ∨ v.jobs x = none)
    (hkeeph : ∀ x ∈ v.handed.map Prod.fst, x ∈ v'.handed.map Prod.fst ∨ x ∈ l' ∨ v.jobs x = none)
    (hkeepl : ∀ x ∈ l, x ∈ l' ∨ v.jobs x = none)
    (hdistinct : (v'.waiting ++ v'.handed.map Prod.fst ++ l').Nodup)
    (hshut : v'.closed = true → v'.waiting = [] ∧ v'.handed = []) (hdropped : v'.dropped = true → v'.closed = true) :
    Up v' t n l' := by
  have hsub : ∀ i j c, Submitted v n j c i → Submitted v' n j c i := by
    intro i j c hs
    unfold Submitted at hs ⊢
    rw [howner]
    exact hs
  refine {
    keyed := hjobs ▸ h.keyed, below := by rw [hjobs, hnext]; exact h.below, waiting_below := ?_, queued := ?_,
    handed := ?_, loose_below := ?_, loosened := ?_, hand := hhand, held := hjobs ▸ h.held, answered := ?_,
    distinct := hdistinct, placed := ?_, orphan := by rw [hjobs, howner]; exact h.orphan, live_owned := ?_,
    owner_open := by rw [hjobs, howner]; exact h.owner_open, live_distinct := h.live_distinct,
    live_issued := h.live_issued, pending := h.pending, counted := by rw [hjobs, hbusy]; exact h.counted,
    shut := hshut, dropped := hdropped }
  · intro x hx
    rw [hnext]
    exact h.waiting_below x (hw x hx)
  · intro x hx c hc
    rw [hjobs] at hc
    exact h.queued x (hw x hx) c hc
  · intro p hp
    rw [hjobs]
    exact h.handed p (hh p hp)
  · intro x hx
    rw [hnext]
    rcases hfrom x hx with hx | hx | hx
    · exact h.waiting_below x hx
    · obtain ⟨c, hc, -⟩ := h.dispatching_of_handed hx
      exact h.below x c hc
    · exact h.loose_below x hx
  · intro x hx c hc i
    rw [hjobs] at hc
    rcases hfrom x hx with hx | hx | hx
    · rw [(h.queued x hx c hc).1]
      simp
    · obtain ⟨c', hc', hs⟩ := h.dispatching_of_handed hx
      rw [hc] at hc'
      cases hc'
      rw [hs]
      simp
    · exact h.loosened x hx c hc i
  · intro j r hr
    obtain ⟨c, hc, hs, hi⟩ := h.answered j r hr
    rw [hjobs]
    exact ⟨c, hc, hs, fun i hir => hsub i j c (hi i hir)⟩
  · intro x c hc hf
    rw [hjobs] at hc
    have hne : ¬ v.jobs x = none := by rw [hc]; simp
    refine (h.placed x c hc hf).mono ?_ ?_ ?_ (fun _ _ => id)
    · rintro (hx | hx)
      · exact (hkeepw x hx).imp id fun hx => hx.resolve_right hne
      · exact Or.inr ((hkeepl x hx).resolve_right hne)
    · rintro (hx | hx)
      · exact (hkeeph x hx).imp id fun hx => hx.resolve_right hne
      · exact Or.inr ((hkeepl x hx).resolve_right hne)
    · intro i _ ho
      rw [howner]
      exact ho
  · intro m hm
    refine (h.live_owned m hm).imp id fun ho => ?_
    unfold InnerJob.Owned at ho ⊢
    rw [howner, hjobs]
    exact ho

/-- The store's jobs that are owned once `j` has ended. -/
theorem ownerAfter_eq (h : Up v t n l) (hj : v.jobs j = some c) (i : JobId) :
    v.ownerAfter c i = if v.owner i = some j then none else v.owner i := by
  have hid : c.id = j := h.keyed j c hj
  -- a job that owns `i` is dispatched as `i`
  have hof : ∀ i, v.owner i = some j → c.status = .dispatched i := by
    intro i hi
    obtain ⟨-, c', hc', hs⟩ := h.owner_open i j hi
    rw [hj] at hc'
    cases hc'
    exact hs
  have hother : ¬ (∃ i, c.status = .dispatched i) → v.owner i = if v.owner i = some j then none else v.owner i := by
    intro hs
    rw [if_neg fun hi' => hs ⟨i, hof i hi'⟩]
  unfold Floor.ownerAfter
  cases hs : c.status with
  | queued => exact hother (by simp [hs])
  | dispatching => exact hother (by simp [hs])
  | dispatched i₀ =>
    dsimp only
    rw [hid]
    by_cases hown : v.owner i₀ = some j
    · rw [if_pos hown, Function.update_apply]
      by_cases hi : i = i₀
      · rw [if_pos hi, hi, if_pos hown]
      · have hne : ¬ v.owner i = some j := by
          intro hi'
          have := hof i hi'
          rw [hs] at this
          cases this
          exact hi rfl
        rw [if_neg hi, if_neg hne]
    · rw [if_neg hown]
      have hne : ¬ v.owner i = some j := by
        intro hi'
        have := hof i hi'
        rw [hs] at this
        cases this
        exact hown hi'
      rw [if_neg hne]

theorem ends (h : Up v t n l) (hj : v.jobs j = some c) (hh : j ∉ v.handed.map Prod.fst) (ht : j ∉ t.hand)
    (hown : ∀ i, v.owner i = some j → ∀ m ∈ n.live, m.id ≠ i) : Up (v.ends j c) t n l := by
  have howner : ∀ i, (v.ends j c).owner i = if v.owner i = some j then none else v.owner i := h.ownerAfter_eq hj
  have hkeep : ∀ i k, v.owner i = some k → k ≠ j → (v.ends j c).owner i = some k := by
    intro i k hi hk
    rw [howner, if_neg, hi]
    rw [hi]
    simpa using hk
  have hdrop : ∀ i k, (v.ends j c).owner i = some k → v.owner i = some k ∧ k ≠ j := by
    intro i k hi
    rw [howner] at hi
    split_ifs at hi with he
    refine ⟨hi, ?_⟩
    rintro rfl
    exact he hi
  have hback : ∀ i k, (v.ends j c).jobs i = some k → i ≠ j ∧ v.jobs i = some k := by
    intro i k hk
    simp only [Floor.ends, Function.update_apply] at hk
    split_ifs at hk with he
    exact ⟨he, hk⟩
  have hforth : ∀ i k, i ≠ j → v.jobs i = some k → (v.ends j c).jobs i = some k := by
    intro i k hi hk
    simp only [Floor.ends]
    rw [Function.update_of_ne hi]
    exact hk
  refine {
    keyed := fun i k hk => h.keyed i k (hback i k hk).2, below := fun i k hk => h.below i k (hback i k hk).2,
    waiting_below := h.waiting_below, queued := fun i hi k hk => h.queued i hi k (hback i k hk).2, handed := ?_,
    loose_below := h.loose_below, loosened := fun i hi k hk => h.loosened i hi k (hback i k hk).2, hand := h.hand,
    held := ?_, answered := ?_, distinct := h.distinct, placed := ?_, orphan := ?_, live_owned := ?_,
    owner_open := ?_, live_distinct := h.live_distinct, live_issued := h.live_issued, pending := h.pending,
    counted := ?_, shut := h.shut, dropped := h.dropped }
  · intro p hp
    obtain ⟨k, hk, hs⟩ := h.handed p hp
    have hne : p.1 ≠ j := fun he => hh (he ▸ List.mem_map_of_mem hp)
    exact ⟨k, hforth _ k hne hk, hs⟩
  · intro g hg
    obtain ⟨k, hk, hs⟩ := h.held g hg
    have hne : g.id ≠ j := by
      rintro rfl
      exact ht (by simp [hg, Thread.hand])
    exact ⟨k, hforth _ k hne hk, hs⟩
  · intro i r hi
    obtain ⟨k, hk, hs, hsub⟩ := h.answered i r hi
    have hne : i ≠ j := by
      rintro rfl
      exact ht (by simp [hi, Thread.hand])
    refine ⟨k, hforth i k hne hk, hs, fun x hx => ?_⟩
    obtain ⟨m, hm, hmx, hcase⟩ := hsub x hx
    refine ⟨m, hm, hmx, hcase.imp ?_ ?_⟩
    · intro ⟨ho, hmi⟩
      refine ⟨?_, hmi⟩
      rw [howner, if_neg (by rw [ho]; simp)]
      exact ho
    · intro ⟨ho, hmi⟩
      -- the job that the submit was merged into has a live job of the store, so it is not the one that ends
      have hne' : m.opener ≠ j := by
        rintro he
        rw [he] at ho
        exact hown x ho m hm hmx
      exact ⟨hkeep x _ ho hne', hmi⟩
  · intro i k hk hf
    obtain ⟨hne, hk⟩ := hback i k hk
    refine (h.placed i k hk hf).mono id id ?_ (fun _ _ => id)
    exact fun x _ hx => hkeep x i hx hne
  · intro i k hk hf
    obtain ⟨hne, hk⟩ := hback i k hk
    obtain ⟨x, hs, ho⟩ := h.orphan i k hk hf
    exact ⟨x, hs, fun ho' => ho (hdrop x i ho').1⟩
  · intro m hm
    refine (h.live_owned m hm).imp id fun ⟨how, k, hk, hs⟩ => ?_
    have hne : m.opener ≠ j := by
      rintro he
      rw [he] at how
      exact hown m.id how m hm rfl
    exact ⟨hkeep _ _ how hne, k, hforth _ k hne hk, hs⟩
  · intro i k hk
    obtain ⟨hk, hne⟩ := hdrop i k hk
    obtain ⟨hi, k₀, h0, hs⟩ := h.owner_open i k hk
    exact ⟨hi, k₀, hforth _ k₀ hne h0, hs⟩
  · show Tally _ (if c.status = .queued then v.busy else v.busy - 1)
    split_ifs with hs
    · refine h.counted.congr fun i => ?_
      constructor
      · rintro ⟨k, hk, hks⟩
        exact ⟨k, (hback i k hk).2, hks⟩
      · rintro ⟨k, hk, hks⟩
        have hne : i ≠ j := by
          rintro rfl
          rw [hj] at hk
          cases hk
          exact hks hs
        exact ⟨k, hforth i k hne hk, hks⟩
    · refine h.counted.remove (a := j) ⟨c, hj, hs⟩ fun i => ?_
      constructor
      · rintro ⟨k, hk, hks⟩
        exact ⟨(hback i k hk).1, k, (hback i k hk).2, hks⟩
      · rintro ⟨hne, k, hk, hks⟩
        exact ⟨k, hforth i k hne hk, hks⟩

theorem ends_jobs_self : (v.ends j c).jobs j = none := by
  unfold Floor.ends
  exact Function.update_self j none v.jobs

theorem endOrphan (h : Up v t n l) (hj : v.jobs j = some c) (ho : c.orphaned = true) : Up (v.ends j c) t n l := by
  obtain ⟨i, hs, hown⟩ := h.orphan j c hj ho
  have hstatus : ∀ c', v.jobs j = some c' → c'.status ≠ .dispatching := by
    intro c' hc'
    rw [hj] at hc'
    cases hc'
    rw [hs]
    simp
  refine h.ends hj ?_ ?_ ?_
  · intro hmem
    obtain ⟨c', hc', hd⟩ := h.dispatching_of_handed hmem
    exact hstatus c' hc' hd
  · intro hmem
    obtain ⟨c', hc', hd⟩ := h.dispatching_of_hand hmem
    exact hstatus c' hc' hd
  · intro i' hi'
    obtain ⟨-, c', hc', hd⟩ := h.owner_open i' j hi'
    rw [hj] at hc'
    cases hc'
    rw [hs] at hd
    cases hd
    exact absurd hi' hown

theorem endUnsubmitted (h : Up v t n l) (hj : v.jobs j = some c) (hh : j ∉ v.handed.map Prod.fst) (ht : j ∉ t.hand)
    (hs : ∀ i, c.status ≠ .dispatched i) : Up (v.ends j c) t n l := by
  refine h.ends hj hh ht fun i hi => ?_
  obtain ⟨-, c', hc', hd⟩ := h.owner_open i j hi
  rw [hj] at hc'
  cases hc'
  exact absurd hd (hs i)

theorem endQueued (h : Up v t n l) (hj : v.jobs j = some c) (hs : c.status = .queued) (cls : Class) :
    Up ({ v with queue := Function.update v.queue cls ((v.queue cls).filter (· ≠ c.id)) }.endAt j) t n l := by
  have hstatus : ∀ c', v.jobs j = some c' → c'.status ≠ .dispatching := by
    intro c' hc'
    rw [hj] at hc'
    cases hc'
    rw [hs]
    simp
  have hup : Up (v.ends j c) t n l := by
    refine h.endUnsubmitted hj ?_ ?_ (by rw [hs]; simp)
    · intro hmem
      obtain ⟨c', hc', hd⟩ := h.dispatching_of_handed hmem
      exact hstatus c' hc' hd
    · intro hmem
      obtain ⟨c', hc', hd⟩ := h.dispatching_of_hand hmem
      exact hstatus c' hc' hd
  have heq : ({ v with queue := Function.update v.queue cls ((v.queue cls).filter (· ≠ c.id)) }.endAt j) =
      { v.ends j c with queue := Function.update v.queue cls ((v.queue cls).filter (· ≠ c.id)) } := by
    unfold Floor.endAt
    dsimp only
    rw [hj]
    rfl
  rw [heq, h.keyed j c hj]
  obtain ⟨hsub, hin⟩ := waiting_filter (v := v.ends j c)
    { v.ends j c with queue := Function.update v.queue cls ((v.queue cls).filter (· ≠ j)) } rfl
  have hgone : (v.ends j c).jobs j = none := ends_jobs_self
  refine hup.loosen rfl rfl rfl rfl (fun x hx => hsub.subset hx) (fun _ => id) (fun x hx => Or.inr (Or.inr hx)) hup.hand
    ?_ (fun x hx => Or.inl hx) (fun x hx => Or.inl hx) ?_ ?_ hup.dropped
  · intro x hx
    rcases hin x hx with rfl | hx
    · exact Or.inr (Or.inr hgone)
    · exact Or.inl hx
  · exact hup.distinct.sublist ((hsub.append_right _).append_right _)
  · intro hcl
    obtain ⟨hw, hhd⟩ := hup.shut hcl
    rw [hw] at hsub
    exact ⟨List.sublist_nil.1 hsub, hhd⟩

theorem endLoose (h : Up v t n (j :: l)) (hhand : ∀ x ∈ t.hand, x ∈ l) : Up (v.endAt j) t n l := by
  have hd := h.distinct
  rw [List.nodup_append] at hd
  obtain ⟨hd₁, hdl, hcross⟩ := hd
  have hjl : j ∉ l := (List.nodup_cons.1 hdl).1
  -- once the job has gone, its id is no loose one
  have hdone : ∀ v₁, Up v₁ t n (j :: l) → v₁.jobs j = none → Up v₁ t n l := by
    intro v₁ h₁ hnone
    refine h₁.loosen rfl rfl rfl rfl (fun _ => id) (fun _ => id)
      (fun x hx => Or.inr (Or.inr (List.mem_cons_of_mem _ hx))) hhand (fun x hx => Or.inl hx) (fun x hx => Or.inl hx)
      ?_ ?_ h₁.shut h₁.dropped
    · intro x hx
      rcases List.mem_cons.1 hx with rfl | hx
      · exact Or.inr hnone
      · exact Or.inl hx
    · exact h₁.distinct.sublist (List.Sublist.append_left (List.sublist_cons_self j l) _)
  unfold Floor.endAt
  cases hj : v.jobs j with
  | none => exact hdone v h hj
  | some c =>
    refine hdone (v.ends j c) ?_ ends_jobs_self
    refine h.endUnsubmitted hj ?_ (fun hmem => hjl (hhand j hmem)) (h.loosened j (by simp) c hj)
    intro hmem
    exact hcross j (List.mem_append_right _ hmem) j (by simp) rfl

theorem endAllLoose (ids : List JobId) (h : Up v t n (ids ++ l)) (hhand : ∀ x ∈ t.hand, x ∈ l) :
    Up (ids.foldl Floor.endAt v) t n l := by
  induction ids generalizing v with
  | nil => exact h
  | cons j ids ih => exact ih (Up.endLoose h fun x hx => List.mem_append_right _ (hhand x hx))

/-- Shutdown empties the queues and the hand-over slot, then ends what was there. -/
theorem clear (h : Up v t n l) (b : Bool) : Up
    { v.clearQueues with closed := true, dropped := b } t n (v.waiting ++ v.handed.map Prod.fst ++ l) := by
  refine h.loosen rfl rfl rfl rfl ?_ ?_ ?_ (fun x hx => List.mem_append_right _ (h.hand x hx)) ?_ ?_ ?_ ?_ ?_ ?_
  · exact fun x hx => absurd hx List.not_mem_nil
  · exact fun x hx => absurd hx List.not_mem_nil
  · intro x hx
    rcases List.mem_append.1 hx with hx | hx
    · rcases List.mem_append.1 hx with hx | hx
      · exact Or.inl hx
      · exact Or.inr (Or.inl hx)
    · exact Or.inr (Or.inr hx)
  · exact fun x hx => Or.inr (Or.inl (List.mem_append_left _ (List.mem_append_left _ hx)))
  · exact fun x hx => Or.inr (Or.inl (List.mem_append_left _ (List.mem_append_right _ hx)))
  · exact fun x hx => Or.inl (List.mem_append_right _ hx)
  · exact h.distinct
  · exact fun _ => ⟨rfl, rfl⟩
  · exact fun _ => rfl

theorem lends (h : Up v t n (j :: l)) (hhand : ∀ x ∈ t.hand, x ∈ l) (ho : v.closed = false)
    (hj : v.jobs j = some c) (hs : c.status = .queued) : Up { v with
      jobs := Function.update v.jobs j (some { c with status := .dispatching, loaded := false })
      handed := v.handed ++ [(j, c.inc)]
      busy := v.busy + 1 } t n l := by
  have hd := h.distinct
  rw [List.nodup_append] at hd
  obtain ⟨hd₁, hdl, hcross⟩ := hd
  have hjl : j ∉ l := (List.nodup_cons.1 hdl).1
  have hnotq : ∀ x ∈ v.waiting ++ v.handed.map Prod.fst, x ≠ j := fun x hx => hcross x hx j (by simp)
  have hback : ∀ i k, Function.update v.jobs j (some { c with status := .dispatching, loaded := false }) i = some k →
      (i = j ∧ k = { c with status := .dispatching, loaded := false }) ∨ i ≠ j ∧ v.jobs i = some k := by
    intro i k hk
    rw [Function.update_apply] at hk
    split_ifs at hk with he
    · exact Or.inl ⟨he, (Option.some.inj hk).symm⟩
    · exact Or.inr ⟨he, hk⟩
  have hforth : ∀ i k, i ≠ j → v.jobs i = some k →
      Function.update v.jobs j (some { c with status := .dispatching, loaded := false }) i = some k := by
    intro i k hi hk
    rw [Function.update_of_ne hi]
    exact hk
  have hnofor : ∀ i k, v.owner i = some k → k ≠ j := by
    rintro i k hi rfl
    obtain ⟨-, c', hc', hs'⟩ := h.owner_open i k hi
    rw [hj] at hc'
    cases hc'
    rw [hs] at hs'
    cases hs'
  refine {
    keyed := ?_, below := ?_, waiting_below := h.waiting_below, queued := ?_, handed := ?_, loose_below := ?_,
    loosened := ?_, hand := hhand, held := ?_, answered := ?_, distinct := ?_, placed := ?_, orphan := ?_,
    live_owned := ?_, owner_open := ?_, live_distinct := h.live_distinct, live_issued := h.live_issued,
    pending := h.pending, counted := ?_, shut := ?_, dropped := h.dropped }
  · intro i k hk
    rcases hback i k hk with ⟨rfl, rfl⟩ | ⟨-, hk⟩
    · exact h.keyed i c hj
    · exact h.keyed i k hk
  · intro i k hk
    rcases hback i k hk with ⟨rfl, -⟩ | ⟨-, hk⟩
    · exact h.below i c hj
    · exact h.below i k hk
  · intro i hi k hk
    rcases hback i k hk with ⟨rfl, -⟩ | ⟨-, hk⟩
    · exact absurd rfl (hnotq i (List.mem_append_left _ hi))
    · exact h.queued i hi k hk
  · intro p hp
    rcases List.mem_append.1 hp with hp | hp
    · obtain ⟨k, hk, hks⟩ := h.handed p hp
      exact ⟨k, hforth _ k (hnotq _ (List.mem_append_right _ (List.mem_map_of_mem hp))) hk, hks⟩
    · rw [List.mem_singleton.1 hp]
      exact ⟨_, Function.update_self j _ v.jobs, rfl, rfl⟩
  · exact fun i hi => h.loose_below i (List.mem_cons_of_mem _ hi)
  · intro i hi k hk
    rcases hback i k hk with ⟨rfl, -⟩ | ⟨-, hk⟩
    · exact absurd hi hjl
    · exact h.loosened i (List.mem_cons_of_mem _ hi) k hk
  · intro g hg
    obtain ⟨k, hk, hks⟩ := h.held g hg
    have hne : g.id ≠ j := by
      rintro rfl
      exact hjl (hhand _ (by simp [hg, Thread.hand]))
    exact ⟨k, hforth _ k hne hk, hks⟩
  · intro i r hi
    obtain ⟨k, hk, hks⟩ := h.answered i r hi
    have hne : i ≠ j := by
      rintro rfl
      exact hjl (hhand _ (by simp [hi, Thread.hand]))
    exact ⟨k, hforth _ k hne hk, hks⟩
  · show (v.waiting ++ (v.handed ++ [(j, c.inc)]).map Prod.fst ++ l).Nodup
    rw [List.map_append, List.map_cons, List.map_nil, ← List.append_assoc, List.append_assoc]
    exact h.distinct
  · intro i k hk hf
    rcases hback i k hk with ⟨rfl, rfl⟩ | ⟨hne, hk⟩
    · exact Or.inl (by simp)
    · refine (h.placed i k hk hf).mono ?_ ?_ (fun _ _ => id) (fun _ _ => id)
      · exact Or.imp id fun hl => (List.mem_cons.1 hl).resolve_left hne
      · refine Or.imp (fun hl => ?_) fun hl => (List.mem_cons.1 hl).resolve_left hne
        rw [List.map_append]
        exact List.mem_append_left _ hl
  · intro i k hk hf
    rcases hback i k hk with ⟨rfl, rfl⟩ | ⟨-, hk⟩
    · obtain ⟨x, hx, -⟩ := h.orphan i c hj hf
      rw [hs] at hx
      cases hx
    · exact h.orphan i k hk hf
  · intro m hm
    refine (h.live_owned m hm).imp id fun ⟨how, k, hk, hks⟩ => ?_
    exact ⟨how, k, hforth _ k (hnofor _ _ how) hk, hks⟩
  · intro i k hk
    obtain ⟨hi, k₀, h0, hks⟩ := h.owner_open i k hk
    exact ⟨hi, k₀, hforth _ k₀ (hnofor _ _ hk) h0, hks⟩
  · refine h.counted.add (a := j) ?_ fun i => ?_
    · rintro ⟨k, hk, hks⟩
      rw [hj] at hk
      cases hk
      exact hks hs
    · constructor
      · rintro ⟨k, hk, hks⟩
        exact (hback i k hk).imp (fun h => h.1) fun h => ⟨k, h.2, hks⟩
      · rintro (rfl | ⟨k, hk, hks⟩)
        · exact ⟨_, Function.update_self i _ v.jobs, by simp⟩
        · have hne : i ≠ j := by
            rintro rfl
            rw [hj] at hk
            cases hk
            exact hks hs
          exact ⟨k, hforth i k hne hk, hks⟩
  · intro hcl
    have : v.closed = true := hcl
    rw [ho] at this
    cases this

theorem pops {cls : Class} {rest : List JobId} (h : Up v t n l) (ho : v.closed = false) (hq : v.queue cls = j :: rest) :
    Up { v with queue := Function.update v.queue cls rest } t n (j :: l) := by
  have hperm : v.waiting.Perm (j :: ({ v with queue := Function.update v.queue cls rest } : Floor).waiting) :=
    waiting_pop _ hq rfl
  refine h.loosen rfl rfl rfl rfl ?_ (fun _ => id) ?_ (fun x hx => List.mem_cons_of_mem _ (h.hand x hx)) ?_
    (fun x hx => Or.inl hx) (fun x hx => Or.inl (List.mem_cons_of_mem _ hx)) ?_ ?_ h.dropped
  · exact fun x hx => hperm.mem_iff.2 (List.mem_cons_of_mem _ hx)
  · intro x hx
    rcases List.mem_cons.1 hx with rfl | hx
    · exact Or.inl (hperm.mem_iff.2 (by simp))
    · exact Or.inr (Or.inr hx)
  · intro x hx
    rcases List.mem_cons.1 (hperm.mem_iff.1 hx) with rfl | hx
    · exact Or.inr (Or.inl (by simp))
    · exact Or.inl hx
  · have hd := h.distinct
    rw [List.append_assoc, (hperm.append_right _).nodup_iff, List.cons_append, ← List.append_assoc] at hd
    exact (List.perm_middle.nodup_iff).2 hd
  · intro hcl
    have : v.closed = true := hcl
    rw [ho] at this
    cases this

theorem dispatch (h : Up v t n l) (hd : Dispatch v v') : Up v' t n l := by
  cases hd with
  | skips cls j rest ho hq hj =>
    have hup := (h.pops ho hq).endLoose h.hand
    unfold Floor.endAt at hup
    dsimp only at hup
    rw [hj] at hup
    exact hup
  | lends cls j rest c ho hq hj hl =>
    have hw : j ∈ v.waiting := mem_waiting.2 ⟨cls, by simp [hq]⟩
    have hup := (h.pops ho hq).lends h.hand ho hj (h.queued j hw c hj).1
    rw [← h.keyed j c hj] at hup
    exact hup
  | stuck cls j rest c ho hq hj hl =>
    have hw : j ∈ v.waiting := mem_waiting.2 ⟨cls, by simp [hq]⟩
    rw [(h.queued j hw c hj).2] at hl
    cases hl

end Calls

end Up

end SovereignCore.Store
