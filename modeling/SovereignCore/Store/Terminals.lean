import SovereignCore.Store.Hands

/-!
# One terminal for every ride

Over every run of the worker, its thread and the store behind it: a ride that a call accepted has at most one terminal
completion, nothing follows it, and once the store owes nothing more for its job a poll of everything delivers it.

* `Stands`, `Stands.step` : every open job is in somebody's hands, in every reachable system;
* `Fit`, `Fit.step` : the worker is a fair desk;
* `every_ride_ends_once`.
-/

namespace SovereignCore.Store

open Std Rides Table

/-! ## Every open job is in somebody's hands -/

/-- Where the thread is, and what that says of the open jobs. -/
inductive Stands (v : Floor) (n : Inner) : Thread → Prop
  | up (t : Thread) (hu : t ≠ .unwinding) (he : t ≠ .exited) (h : Up v t n t.hand) : Stands v n t
  | unwinding (hc : v.closed = true) : Stands v n .unwinding
  | exited (hc : v.closed = true) (ho : ∀ j c, v.jobs j = some c → c.orphaned = true) : Stands v n .exited

section EndAt

variable {v : Floor} {j x : JobId} {c : Core}

theorem endAt_flags : (v.endAt j).closed = v.closed ∧ (v.endAt j).dropped = v.dropped := by
  unfold Floor.endAt
  cases v.jobs j with
  | none => exact ⟨rfl, rfl⟩
  | some c => exact ⟨rfl, rfl⟩

theorem endAt_jobs (h : (v.endAt j).jobs x = some c) : v.jobs x = some c := by
  unfold Floor.endAt at h
  cases hj : v.jobs j with
  | none =>
    rw [hj] at h
    exact h
  | some k =>
    rw [hj] at h
    simp only [Floor.ends, Function.update_apply] at h
    split_ifs at h
    exact h

theorem endAll_flags (ids : List JobId) :
    (ids.foldl Floor.endAt v).closed = v.closed ∧ (ids.foldl Floor.endAt v).dropped = v.dropped := by
  induction ids generalizing v with
  | nil => exact ⟨rfl, rfl⟩
  | cons j ids ih =>
    rw [List.foldl_cons, ih.1, ih.2]
    exact endAt_flags

theorem endAll_jobs (ids : List JobId) (h : (ids.foldl Floor.endAt v).jobs x = some c) : v.jobs x = some c := by
  induction ids generalizing v with
  | nil => exact h
  | cons j ids ih => exact endAt_jobs (ih h)

theorem endAt_self : (v.endAt j).jobs j = none := by
  unfold Floor.endAt
  cases hj : v.jobs j with
  | none => exact hj
  | some c => exact Up.ends_jobs_self

theorem endAll_mem {ids : List JobId} (hx : x ∈ ids) : (ids.foldl Floor.endAt v).jobs x = none := by
  induction ids generalizing v with
  | nil => cases hx
  | cons j ids ih =>
    rw [List.foldl_cons]
    rcases List.mem_cons.1 hx with rfl | hx
    · cases hj : (ids.foldl Floor.endAt (v.endAt x)).jobs x with
      | none => rfl
      | some c =>
        have := endAll_jobs ids hj
        rw [endAt_self] at this
        cases this
    · exact ih hx

end EndAt

namespace Stands

variable {v v' : Floor} {n n' : Inner} {t : Thread} {j : JobId} {inc : Incarnation}

/-- A call that keeps the places of an up worker, never opens intake again and opens no job of a closed one. -/
theorem keeps (h : Stands v n t) (hup : Up v t n t.hand → Up v' t n t.hand) (hclosed : v.closed = true → v'.closed = true)
    (hjobs : v.closed = true → ∀ j c', v'.jobs j = some c' → ∃ c, v.jobs j = some c ∧ (c.orphaned = true →
      c'.orphaned = true)) : Stands v' n t := by
  cases h with
  | up _ hu he h => exact .up t hu he (hup h)
  | unwinding hc => exact .unwinding (hclosed hc)
  | exited hc ho =>
    refine .exited (hclosed hc) fun j c' hc' => ?_
    obtain ⟨c, hj, hor⟩ := hjobs hc j c' hc'
    exact hor (ho j c hj)

theorem accepts (h : Stands v n t) (ha : Accepts v j inc v') : Stands v' n t := by
  refine h.keeps (fun hup => hup.accepts ha) ?_ ?_
  · cases ha with
    | opens cls ho hj => exact id
    | joins c hc hi => exact id
    | again c hc hi => exact id
  · intro hcl
    cases ha with
    | opens cls ho hj =>
      rw [ho] at hcl
      cases hcl
    | joins c hc hi =>
      intro x c' hc'
      simp only [Floor.joins, Function.update_apply] at hc'
      split_ifs at hc' with he
      · cases hc'
        exact ⟨c, he ▸ hc, id⟩
      · exact ⟨c', hc', id⟩
    | again c hc hi => exact fun x c' hc' => ⟨c', hc', id⟩

theorem ending (ids : List JobId) {v₁ : Floor} (h : Stands v n t) (hjobs : v₁.jobs = v.jobs)
    (hclosed : v.closed = true → v₁.closed = true)
    (hup : Up v t n t.hand → Up (ids.foldl Floor.endAt v₁) t n t.hand) : Stands (ids.foldl Floor.endAt v₁) n t := by
  refine h.keeps hup ?_ ?_
  · intro hcl
    rw [(endAll_flags _).1]
    exact hclosed hcl
  · intro _ x c' hc'
    have hx := endAll_jobs ids hc'
    rw [hjobs] at hx
    exact ⟨c', hx, id⟩

theorem dispatches (h : Stands v n t) (hd : Relation.ReflTransGen Dispatch v v') : Stands v' n t := by
  induction hd with
  | refl => exact h
  | tail _ hstep ih =>
    rename_i v₁ v₂ _
    have hopen : v₁.closed = false := by
      cases hstep with
      | skips cls j rest ho _ _ => exact ho
      | lends cls j rest c ho _ _ _ => exact ho
      | stuck cls j rest c ho _ _ _ => exact ho
    refine ih.keeps (fun hup => hup.dispatch hstep) ?_ ?_
    · rw [hopen]
      simp
    · rw [hopen]
      simp

end Stands

theorem Up.endOrphans {v : Floor} {t : Thread} {n : Inner} {l : List JobId} (ids : List JobId) (h : Up v t n l)
    (ho : ∀ j ∈ ids, ∀ c, v.jobs j = some c → c.orphaned = true) : Up (ids.foldl Floor.endAt v) t n l := by
  induction ids generalizing v with
  | nil => exact h
  | cons j ids ih =>
    rw [List.foldl_cons]
    refine ih ?_ fun x hx c hc => ho x (List.mem_cons_of_mem _ hx) c (endAt_jobs hc)
    unfold Floor.endAt
    cases hj : v.jobs j with
    | none => exact h
    | some c => exact h.endOrphan hj (ho j (by simp) c hj)

/-- A job that `reap_orphans` ends is an orphan. -/
theorem orphaned_of_reapable {s : State} (hk : ∀ j c, (floor s).jobs j = some c → c.id = j) {j : JobId} {c : Core}
    (hj : j ∈ s.reapable) (hc : (floor s).jobs j = some c) : c.orphaned = true := by
  unfold State.reapable at hj
  obtain ⟨job, hjob, rfl⟩ := List.mem_map.1 hj
  obtain ⟨hval, hor⟩ := List.mem_filter.1 hjob
  obtain ⟨x, hx⟩ := mem_values.1 hval
  have hkey : job.id = x := hk x job.core (cores_some hx)
  have hget : (floor s).jobs job.id = some job.core := by
    rw [hkey]
    exact cores_some hx
  rw [hget] at hc
  cases hc
  simp only [Bool.and_eq_true] at hor
  exact hor.1

theorem Stands.reapOrphans {s : State} {n : Inner} {t : Thread} (h : Stands (floor s) n t) :
    Stands (floor s.reapOrphans) n t := by
  rw [floor_reapOrphans]
  refine h.ending _ rfl id fun hup => hup.endOrphans _ fun j hj c hc => ?_
  exact orphaned_of_reapable hup.keyed hj hc

theorem Stands.sent {v v' : Floor} {n : Inner} {t : Thread} (h : Stands v n t)
    (he : v' = { v with sent := v'.sent }) : Stands v' n t := by
  rw [he]
  refine h.keeps (fun hup => ?_) id fun _ x c hc => ⟨c, hc, id⟩
  exact hup.loosen rfl rfl rfl rfl (fun _ => id) (fun _ => id) (fun _ hx => Or.inr (Or.inr hx)) hup.hand
    (fun _ => Or.inl) (fun _ => Or.inl) (fun _ => Or.inl) hup.distinct hup.shut hup.dropped

theorem Stands.looping {v : Floor} {n : Inner} (h : Stands v n .looping) : Up v .looping n [] := by
  cases h with
  | up _ hu he h => exact h

theorem Stands.beginShutdown {s : State} {n : Inner} {t : Thread} (h : Stands (floor s) n t) (drop : Bool) :
    Stands (floor (s.beginShutdown drop).1) n t := by
  rw [floor_beginShutdown]
  refine h.ending _ rfl (fun _ => rfl) fun hup => ?_
  have hids : s.restoreQueue ++ s.parkQueue ++ s.handed.map HandedJob.id =
      (floor s).waiting ++ (floor s).handed.map Prod.fst := by
    unfold Floor.waiting floor
    simp [Function.comp]
  rw [hids]
  exact Up.endAllLoose _ (hup.clear _) hup.hand

theorem Stands.cancelWaiter {s : State} {n : Inner} {t : Thread} (h : Stands (floor s) n t) (j : JobId)
    (inc : Incarnation) : Stands (floor (s.cancelWaiter j inc).2) n t := by
  rcases floor_cancelWaiter s j inc with heq | ⟨c, hc, hs, heq⟩
  · rw [heq]
    exact h
  · rw [heq]
    exact h.ending [j] rfl id fun hup => hup.endQueued hc hs c.cls

theorem Stands.step {y y' : System} (h : Stands (floor y.state) y.inner y.thread) (hs : Step y y') :
    Stands (floor y'.state) y'.inner y'.thread := by
  cases hs with
  | submitStore ns store header src inc id s hok => exact h.accepts (submitStore_accepts hok)
  | submitLoad store len key expect dst inc id s hok => exact h.accepts (submitLoad_accepts hok)
  | attachLoad store key inc t s hok => exact h.accepts (attachLoad_accepts hok)
  | submitLoadCoalesced store len key expect dst inc t s hok => exact h.accepts (submitLoadCoalesced_accepts hok)
  | submitFlush store inc id s hok => exact h.accepts (submitFlush_accepts hok)
  | attachWaiter job inc s hok => exact h.accepts (attachWaiter_accepts hok)
  | poll max =>
    refine h.reapOrphans.sent ?_
    rw [floor_poll]
  | cancelWaiter job inc => exact h.cancelWaiter job inc
  | cancelAnswered pre post job inner out hask =>
    dsimp only
    split_ifs
    · rw [floor_cancelRefused]
      exact h
    · exact h
  | pauseDispatch => exact h
  | resumeDispatch => exact Stands.dispatches (v := floor { y.state with paused := false }) h (handOver_dispatch _)
  | beginShutdown drop => exact h.beginShutdown drop
  | reapOrphans => exact h.reapOrphans
  | take g s ht hg =>
    rw [ht] at h
    obtain ⟨v, rest, hd, hhd, heq⟩ := takeHanded_dispatch hg
    dsimp only
    rw [heq]
    exact .up _ (by simp) (by simp) ((h.dispatches hd).looping.taken hhd)
  | idle ht => exact h.dispatches (handOver_dispatch _)
  | submit g res n ht hn =>
    rw [ht] at h
    cases h with
    | up _ hu he h => exact .up _ (by simp) (by simp) (h.submitted hn)
  | register id res ht =>
    rw [ht] at h
    cases h with
    | up _ hu he h =>
      cases res with
      | error e =>
        show Stands _ y.inner .looping
        exact .up _ (by simp) (by simp) h.refused
      | ok i =>
        dsimp only
        cases hr : (y.state.register id (.ok i)).2 with
        | none => exact .up _ (by simp) (by simp) (h.registered rfl rfl (by simp))
        | some inner => exact .up _ (by simp) (by simp) (h.registered rfl rfl (by simp))
  | forwarded id inner out ht =>
    rw [ht] at h
    have hup : Up (floor y.state) .looping y.inner [] := by
      cases h with
      | up _ hu he h => exact h.rethread rfl (fun x hx => absurd hx List.not_mem_nil) (by simp) (by simp) (by simp)
    refine .up _ (by simp) (by simp) ?_
    dsimp only
    split_ifs
    · rw [floor_cancelRefused]
      exact hup
    · exact hup
  | innerShutdown ht hreq => exact h
  | innerPoll comps n ht hn =>
    rw [ht] at h
    have hup : Up (floor y.state) (.reaping []) y.inner [] :=
      h.looping.rethread rfl (fun x hx => absurd hx List.not_mem_nil) (by simp) (by simp) (by simp)
    exact .up _ (by simp) (by simp) (hup.polled hn)
  | reap comps ht =>
    rw [ht] at h
    cases h with
    | up _ hu he h => exact .up _ (by simp) (by simp) h.reap
  | exit ht hd hc =>
    rw [ht] at h
    -- nothing is dispatched and nothing is queued, so nothing is open
    have hup := h.reapOrphans.looping
    have hdrop : (floor y.state.reapOrphans).dropped = true := by
      rw [floor_reapOrphans]
      exact (endAll_flags _).2.trans hd
    have hclosed := hup.dropped hdrop
    refine .exited hclosed fun j c hj => ?_
    by_contra ho
    have hp := hup.placed j c hj (by simpa using ho)
    have hbusy : (floor y.state.reapOrphans).busy = 0 := hc
    have hnone := (hbusy ▸ hup.counted).none_of_zero j
    unfold Core.Placed at hp
    cases hst : c.status with
    | queued =>
      rw [hst] at hp
      rw [(hup.shut hclosed).1] at hp
      simp at hp
    | dispatching => exact hnone ⟨c, hj, by rw [hst]; simp⟩
    | dispatched i => exact hnone ⟨c, hj, by rw [hst]; simp⟩
  | panic ht hu =>
    dsimp only
    rw [floor_panic]
    exact .unwinding rfl
  | orphanAll ht =>
    rw [ht] at h
    have hcl : (floor y.state).closed = true := by
      cases h with
      | up _ hu he h => exact absurd rfl hu
      | unwinding hc => exact hc
    dsimp only
    rw [floor_orphanAll]
    refine .exited ?_ fun j c hj => ?_
    · rw [(endAll_flags _).1]
      exact hcl
    · have hj := endAll_jobs _ hj
      obtain ⟨k, -, rfl⟩ := Option.map_eq_some_iff.1 hj
      rfl
  | leaseBack id =>
    dsimp only
    rw [floor_returnLeases]
    exact h

/-! ## The worker is a fair desk -/

def desk (v : Floor) (accepted : List (JobId × Incarnation)) (polled : List Completion) : Desk Incarnation where
  next := v.next
  riders := fun j => (v.jobs j).map Core.riders
  accepted := accepted
  sent := polled.map notice ++ v.sent

structure Fit (v : Floor) (accepted : List (JobId × Incarnation)) (polled : List Completion) : Prop where
  keyed : ∀ j c, v.jobs j = some c → c.id = j
  fair : Fair (desk v accepted polled)

namespace Fit

variable {v v' : Floor} {acc : List (JobId × Incarnation)} {pol pol' : List Completion} {j : JobId} {c : Core}
variable {inc : Incarnation}

theorem same (h : Fit v acc pol) (hnext : v'.next = v.next)
    (hjobs : ∀ j, (v'.jobs j).map (fun c => (c.id, c.riders)) = (v.jobs j).map fun c => (c.id, c.riders))
    (hsent : pol'.map notice ++ v'.sent = pol.map notice ++ v.sent) : Fit v' acc pol' := by
  constructor
  · intro j c hj
    have he := hjobs j
    rw [hj, Option.map_some] at he
    obtain ⟨k, hk, hkc⟩ := Option.map_eq_some_iff.1 he.symm
    have hid : k.id = c.id := congrArg Prod.fst hkc
    rw [← hid]
    exact h.keyed j k hk
  · have hdesk : desk v' acc pol' = desk v acc pol := by
      unfold desk
      rw [hnext, hsent]
      simp only [Desk.mk.injEq, and_true, true_and]
      funext j
      have he := congrArg (Option.map Prod.snd) (hjobs j)
      simpa [Option.map_map, Function.comp_def] using he
    rw [hdesk]
    exact h.fair

theorem accepts (h : Fit v acc pol) (ha : Accepts v j inc v') : Fit v' ((j, inc) :: acc) pol := by
  cases ha with
  | opens cls ho hj =>
    subst hj
    refine ⟨?_, ?_⟩
    · intro i k hk
      simp only [Floor.opens, Function.update_apply] at hk
      split_ifs at hk with he
      · cases hk
        exact he.symm
      · exact h.keyed i k hk
    · have hdesk : desk (v.opens cls inc) ((v.next, inc) :: acc) pol = { desk v acc pol with
          next := v.next + 1
          riders := Function.update (desk v acc pol).riders v.next (some [inc])
          accepted := (v.next, inc) :: acc } := by
        unfold desk Floor.opens
        simp only [Desk.mk.injEq, and_true, true_and]
        funext i
        simp only [Function.update_apply]
        split_ifs <;> rfl
      rw [hdesk]
      exact h.fair.turn (.opens _ inc)
  | joins c hc hi =>
    refine ⟨?_, ?_⟩
    · intro i k hk
      simp only [Floor.joins, Function.update_apply] at hk
      split_ifs at hk with he
      · cases hk
        rw [he]
        exact h.keyed j c hc
      · exact h.keyed i k hk
    · have hr : (desk v acc pol).riders j = some c.riders := by simp [desk, hc]
      have hdesk : desk (v.joins j c inc) ((j, inc) :: acc) pol = { desk v acc pol with
          riders := Function.update (desk v acc pol).riders j (some (c.riders ++ [inc]))
          accepted := (j, inc) :: acc } := by
        unfold desk Floor.joins
        simp only [Desk.mk.injEq, and_true, true_and]
        funext i
        simp only [Function.update_apply]
        split_ifs <;> rfl
      rw [hdesk]
      exact h.fair.turn (.joins _ j inc c.riders hr hi)
  | again c hc hi =>
    have hr : (desk v acc pol).riders j = some c.riders := by simp [desk, hc]
    exact ⟨h.keyed, h.fair.turn (.again _ j inc c.riders hr hi)⟩

theorem ends (h : Fit v acc pol) (hj : v.jobs j = some c) : Fit (v.ends j c) acc pol := by
  have hr : (desk v acc pol).riders j = some c.riders := by simp [desk, hj]
  refine ⟨?_, ?_⟩
  · intro i k hk
    simp only [Floor.ends, Function.update_apply] at hk
    split_ifs at hk
    exact h.keyed i k hk
  · have haud : c.audience = c.riders := by
      unfold Core.audience
      rw [if_neg (h.fair.manned j _ hr)]
    have hdesk : desk (v.ends j c) acc pol = { desk v acc pol with
        riders := Function.update (desk v acc pol).riders j none
        sent := (desk v acc pol).sent ++ notices j c.riders true } := by
      unfold desk Floor.ends
      rw [h.keyed j c hj, haud]
      simp only [Desk.mk.injEq, List.append_assoc, and_true]
      refine ⟨rfl, ?_⟩
      funext i
      simp only [Function.update_apply]
      split_ifs <;> rfl
    rw [hdesk]
    exact h.fair.turn (.ends _ j c.riders hr)

theorem endAt (h : Fit v acc pol) (j : JobId) : Fit (v.endAt j) acc pol := by
  unfold Floor.endAt
  cases hj : v.jobs j with
  | none => exact h
  | some c => exact h.ends hj

theorem endAll (ids : List JobId) (h : Fit v acc pol) : Fit (ids.foldl Floor.endAt v) acc pol := by
  induction ids generalizing v with
  | nil => exact h
  | cons j ids ih => exact ih (h.endAt j)

theorem reports (h : Fit v acc pol) (hj : v.jobs j = some c) : Fit (v.reports j c) acc pol := by
  refine ⟨h.keyed, ?_⟩
  have hr : (desk v acc pol).riders j = some c.riders := by simp [desk, hj]
  have hdesk : desk (v.reports j c) acc pol =
      { desk v acc pol with sent := (desk v acc pol).sent ++ notices j c.riders false } := by
    unfold desk Floor.reports
    simp only [List.append_assoc]
  rw [hdesk]
  exact h.fair.turn (.reports _ j c.riders hr)

theorem putBack {k : Core} (h : Fit v acc pol) (hj : v.jobs j = some c) (hid : k.id = c.id) (hr : k.riders = c.riders)
    (hjobs : v'.jobs = Function.update v.jobs j (some k)) (hnext : v'.next = v.next) (hsent : v'.sent = v.sent) :
    Fit v' acc pol := by
  refine h.same hnext (fun i => ?_) (by rw [hsent])
  rw [hjobs, Function.update_apply]
  split_ifs with he
  · rw [he, hj]
    simp [hid, hr]
  · rfl

theorem dispatches (h : Fit v acc pol) (hd : Relation.ReflTransGen Dispatch v v') : Fit v' acc pol := by
  induction hd with
  | refl => exact h
  | tail _ hstep ih =>
    cases hstep with
    | skips cls j rest ho hq hj => exact ih.same rfl (fun _ => rfl) rfl
    | lends cls j rest c ho hq hj hl =>
      have hid : c.id = j := ih.keyed j c hj
      have hc := hj
      rw [← hid] at hc
      exact Fit.putBack (k := { c with status := .dispatching, loaded := false }) ih hc rfl rfl rfl rfl rfl
    | stuck cls j rest c ho hq hj hl => exact ih.same rfl (fun _ => rfl) rfl

theorem reapOrphans {s : State} (h : Fit (floor s) acc pol) : Fit (floor s.reapOrphans) acc pol := by
  rw [floor_reapOrphans]
  exact h.endAll _

theorem reap {s : State} (h : Fit (floor s) acc pol) (comps : List Completion) : Fit (floor (s.reap comps)) acc pol := by
  unfold State.reap
  induction comps generalizing s with
  | nil => exact h
  | cons d ds ih =>
    rw [List.foldl_cons]
    apply ih
    rcases floor_reapOne s d with ⟨heq, -⟩ | ⟨x, k, -, hk, -, ⟨-, heq⟩ | ⟨-, heq⟩⟩
    · rw [heq]
      exact h
    · rw [heq]
      exact h.reports hk
    · rw [heq]
      exact h.ends hk

theorem register {s : State} (h : Fit (floor s) acc pol) (j : JobId) (res : Except PlatformError JobId) :
    Fit (floor (s.register j res).1) acc pol := by
  cases res with
  | error e =>
    rw [floor_register_error]
    exact h.endAt j
  | ok i =>
    cases hj : s.jobs[j]? with
    | none =>
      have heq : (s.register j (.ok i)).1 = s := by simp [State.register, hj]
      rw [heq]
      exact h
    | some job =>
      have hc : (floor s).jobs j = some job.core := cores_some hj
      rcases floor_register_ok hc (i := i) with ⟨-, heq⟩ | ⟨-, heq⟩
      · rw [heq]
        exact Fit.putBack (k := { job.core with status := .dispatched i, orphaned := true }) h hc rfl rfl rfl rfl rfl
      · rw [heq]
        exact Fit.putBack (k := { job.core with status := .dispatched i }) h hc rfl rfl rfl rfl rfl

end Fit

theorem Fit.step {y y' : System} (h : Fit (floor y.state) y.accepted y.polled) (hs : Step y y') :
    Fit (floor y'.state) y'.accepted y'.polled := by
  cases hs with
  | submitStore ns store header src inc id s hok => exact h.accepts (submitStore_accepts hok)
  | submitLoad store len key expect dst inc id s hok => exact h.accepts (submitLoad_accepts hok)
  | attachLoad store key inc t s hok => exact h.accepts (attachLoad_accepts hok)
  | submitLoadCoalesced store len key expect dst inc t s hok => exact h.accepts (submitLoadCoalesced_accepts hok)
  | submitFlush store inc id s hok => exact h.accepts (submitFlush_accepts hok)
  | attachWaiter job inc s hok => exact h.accepts (attachWaiter_accepts hok)
  | poll max =>
    refine h.reapOrphans.same rfl (fun _ => rfl) ?_
    show (y.polled ++ y.state.reapOrphans.completions.take max).map notice ++
      (y.state.reapOrphans.completions.drop max).map notice = y.polled.map notice ++ y.state.reapOrphans.completions.map notice
    rw [List.map_append, List.append_assoc, ← List.map_append, List.take_append_drop]
  | cancelWaiter job inc =>
    dsimp only
    rcases floor_cancelWaiter y.state job inc with heq | ⟨c, hc, -, heq⟩
    · rw [heq]
      exact h
    · rw [heq]
      refine Fit.endAt ?_ job
      exact h.same rfl (fun _ => rfl) rfl
  | cancelAnswered pre post job inner out hask =>
    dsimp only
    split_ifs
    · rw [floor_cancelRefused]
      exact h
    · exact h
  | pauseDispatch => exact h
  | resumeDispatch => exact Fit.dispatches (v := floor { y.state with paused := false }) h (handOver_dispatch _)
  | beginShutdown drop =>
    dsimp only
    rw [floor_beginShutdown]
    refine Fit.endAll _ ?_
    exact h.same rfl (fun _ => rfl) rfl
  | reapOrphans => exact h.reapOrphans
  | take g s ht hg =>
    obtain ⟨v, rest, hd, -, heq⟩ := takeHanded_dispatch hg
    dsimp only
    rw [heq]
    exact (h.dispatches hd).same rfl (fun _ => rfl) rfl
  | idle ht => exact h.dispatches (handOver_dispatch _)
  | submit g res n ht hn => exact h
  | register id res ht => exact h.register id res
  | forwarded id inner out ht =>
    dsimp only
    split_ifs
    · rw [floor_cancelRefused]
      exact h
    · exact h
  | innerShutdown ht hreq => exact h
  | innerPoll comps n ht hn => exact h
  | reap comps ht => exact h.reap comps
  | exit ht hd hc => exact h.reapOrphans
  | panic ht hu =>
    dsimp only
    rw [floor_panic]
    exact h.same rfl (fun _ => rfl) rfl
  | orphanAll ht =>
    dsimp only
    rw [floor_orphanAll]
    refine Fit.endAll _ (h.same rfl (fun j => ?_) rfl)
    unfold Floor.orphanJobs
    simp [Option.map_map, Function.comp_def]
  | leaseBack id =>
    dsimp only
    rw [floor_returnLeases]
    exact h

/-! ## Runs -/

theorem Up.start (cfg : WorkerConfig) : Up (floor (.new cfg)) .looping {} [] where
  keyed := by simp [floor, State.new, cores]
  below := by simp [floor, State.new, cores]
  waiting_below := by simp [floor, State.new, Floor.waiting]
  queued := by simp [floor, State.new, Floor.waiting]
  handed := by simp [floor, State.new]
  loose_below := by simp
  loosened := by simp
  hand := by simp [Thread.hand]
  held := by simp
  answered := by simp
  distinct := by simp [floor, State.new, Floor.waiting]
  placed := by simp [floor, State.new, cores]
  orphan := by simp [floor, State.new, cores]
  live_owned := by simp
  owner_open := by simp [floor, State.new]
  live_distinct := by simp
  live_issued := by simp
  pending := by simp
  counted := Tally.zero (by simp [floor, State.new, cores])
  shut := by simp [floor, State.new, Floor.waiting]
  dropped := by simp [floor, State.new]

theorem Fit.start (cfg : WorkerConfig) : Fit (floor (.new cfg)) [] [] := by
  refine ⟨by simp [floor, State.new, cores], ?_⟩
  have hdesk : desk (floor (.new cfg)) [] [] = ⟨1, fun _ => none, [], []⟩ := by
    simp [desk, floor, State.new, cores]
  rw [hdesk]
  exact Fair.start 1

theorem run_sound {cfg : WorkerConfig} {y : System} (h : Run (.new cfg) y) :
    Stands (floor y.state) y.inner y.thread ∧ Fit (floor y.state) y.accepted y.polled := by
  induction h with
  | refl => exact ⟨.up _ (by simp [System.new]) (by simp [System.new]) (Up.start cfg), Fit.start cfg⟩
  | tail _ hstep ih => exact ⟨ih.1.step hstep, ih.2.step hstep⟩

def Completion.terminalOf (c : Completion) (j : JobId) (inc : Incarnation) : Bool :=
  c.job = j ∧ c.incarnation = inc ∧ c.terminal.isSome = true

/-- The store has answered for the job: the worker has given it the job, it has ended every job that it accepted for it
and dropped its lease; or the worker thread has gone and the store has dropped its lease. -/
def System.Answered (y : System) (j : JobId) : Prop :=
  (y.thread = .exited ∨ y.thread = .looping ∧ j ∉ y.state.restoreQueue ++ y.state.parkQueue ∧
    j ∉ y.state.handed.map HandedJob.id ∧ ∀ m ∈ y.inner.live, m.opener ≠ j) ∧
  ∀ job, y.state.jobs[j]? = some job → job.storeHoldsLease = false

/-- A job that the store has answered for is an orphan, if it is open at all. -/
theorem orphaned_of_answered {y : System} {j : JobId} {c : Core} (h : Stands (floor y.state) y.inner y.thread)
    (ha : y.Answered j) (hj : (floor y.state).jobs j = some c) : c.orphaned = true := by
  rcases ha.1 with ht | ⟨ht, hq, hhd, hlive⟩
  · rw [ht] at h
    cases h with
    | up _ hu he h => exact absurd rfl he
    | exited hc ho => exact ho j c hj
  · rw [ht] at h
    have hup := h.looping
    by_contra ho
    have hp := hup.placed j c hj (by simpa using ho)
    unfold Core.Placed at hp
    cases hs : c.status with
    | queued =>
      rw [hs] at hp
      exact hq (hp.resolve_right List.not_mem_nil)
    | dispatching =>
      rw [hs] at hp
      have hmem := hp.resolve_right List.not_mem_nil
      unfold floor at hmem
      simp only [List.map_map, Function.comp_def] at hmem
      exact hhd hmem
    | dispatched i =>
      rw [hs] at hp
      obtain ⟨hown, ⟨m, hm, hid, -⟩ | ⟨d, hd, -⟩⟩ := hp
      · obtain ⟨hm', -⟩ := (hup.live_owned m hm).resolve_left (by simp)
        rw [hid, hown] at hm'
        exact hlive m hm (Option.some.inj hm').symm
      · exact absurd hd List.not_mem_nil

/-- `reap_orphans` ends a job that the store has answered for. -/
theorem reapOrphans_answered {y : System} {j : JobId} (h : Stands (floor y.state) y.inner y.thread)
    (hk : ∀ j c, (floor y.state).jobs j = some c → c.id = j) (ha : y.Answered j) :
    (floor y.state.reapOrphans).jobs j = none := by
  rw [floor_reapOrphans]
  cases hj : y.state.jobs[j]? with
  | none =>
    cases hr : (y.state.reapable.foldl Floor.endAt (floor y.state)).jobs j with
    | none => rfl
    | some c =>
      have hopen := endAll_jobs _ hr
      have hnone : (floor y.state).jobs j = none := cores_none hj
      rw [hnone] at hopen
      cases hopen
  | some job =>
    have hcore : (floor y.state).jobs j = some job.core := cores_some hj
    have ho : job.core.orphaned = true := orphaned_of_answered h ha hcore
    refine endAll_mem (List.mem_map.2 ⟨job, List.mem_filter.2 ⟨mem_values.2 ⟨j, hj⟩, ?_⟩, hk j _ hcore⟩)
    have hlease := ha.2 job hj
    have ho' : job.orphaned.isSome = true := ho
    simp [ho', hlease]

theorem countP_terminalOf (cs : List Completion) (j : JobId) (inc : Incarnation) :
    cs.countP (Completion.terminalOf · j inc) = (cs.map notice).countP (Notice.lastOf j inc) := by
  rw [List.countP_map]
  rfl

/-- **Every accepted ride has exactly one terminal.** In every reachable system an accepted ride has at most one
terminal, no completion of the ride follows it, and once the store has answered for its job a poll of everything has
delivered it. -/
theorem every_ride_ends_once (cfg : WorkerConfig) (y : System) (h : Run (.new cfg) y) (j : JobId) (inc : Incarnation)
    (ha : (j, inc) ∈ y.accepted) :
    (y.polled ++ y.state.completions).countP (Completion.terminalOf · j inc) ≤ 1 ∧
    (∀ pre c post, y.polled ++ y.state.completions = pre ++ c :: post → c.terminalOf j inc = true →
      ∀ d ∈ post, ¬ (d.job = j ∧ d.incarnation = inc)) ∧
    (y.Answered j → ∀ max, y.state.reapOrphans.completions.length ≤ max →
      (y.polled ++ (y.state.poll max).1).countP (Completion.terminalOf · j inc) = 1) := by
  obtain ⟨hstands, hfit⟩ := run_sound h
  have hsent : (desk (floor y.state) y.accepted y.polled).sent = (y.polled ++ y.state.completions).map notice := by
    rw [List.map_append]
    rfl
  refine ⟨?_, ?_, ?_⟩
  · rw [countP_terminalOf, ← hsent]
    show (desk (floor y.state) y.accepted y.polled).lasts j inc ≤ 1
    cases hr : (desk (floor y.state) y.accepted y.polled).riders j with
    | none => exact Nat.le_of_eq (hfit.fair.ended j inc ha hr)
    | some ws =>
      rw [hfit.fair.lasts_open hr]
      exact Nat.zero_le 1
  · intro pre c post heq hc d hd ⟨hdj, hdi⟩
    have hpair := hfit.fair.nothing_follows
    rw [hsent, heq, List.map_append, List.map_cons, List.pairwise_append, List.pairwise_cons] at hpair
    simp only [Completion.terminalOf, decide_eq_true_eq] at hc
    have hlast := hpair.2.1.1 (notice d) (List.mem_map_of_mem hd) (hc.1.trans hdj.symm) (hc.2.1.trans hdi.symm)
    have : c.terminal.isSome = false := hlast
    rw [hc.2.2] at this
    cases this
  · intro hans max hmax
    have hfit' := hfit.reapOrphans
    have hnone : (desk (floor y.state.reapOrphans) y.accepted y.polled).riders j = none := by
      simp [desk, reapOrphans_answered hstands hfit.keyed hans]
    have hall : (y.state.poll max).1 = y.state.reapOrphans.completions := List.take_of_length_le hmax
    rw [hall, countP_terminalOf, List.map_append]
    exact hfit'.fair.ended j inc ha hnone

/-! A flush from its submit to its terminal. -/

def flushInc : Incarnation := ⟨5, 1⟩

def queuedFlush : State := ((State.new {}).openFlush flushInc).2

def handedFlush : HandedJob := ⟨1, .park, flushInc, 0, .flush⟩

def takenFlush : State := { queuedFlush.handOver with handed := [] }

def flushDone : Completion := ⟨7, flushInc, 0, .durable, some (.done .durable), .notApplicable, 0, none⟩

def reapedFlush : System where
  state := (takenFlush.register 1 (.ok 7)).1.reap [flushDone]
  inner := ⟨[], [7]⟩
  accepted := [(1, flushInc)]

theorem run_reapedFlush : Run (.new {}) reapedFlush := by
  have h₁ : Step (.new {}) { System.new {} with state := queuedFlush, accepted := [(1, flushInc)] } :=
    .submitFlush _ .open flushInc 1 queuedFlush rfl
  have h₂ : Step { System.new {} with state := queuedFlush, accepted := [(1, flushInc)] }
      { System.new {} with state := takenFlush, thread := .holding handedFlush, accepted := [(1, flushInc)] } :=
    .take _ handedFlush takenFlush rfl rfl
  have h₃ : Step
      { System.new {} with state := takenFlush, thread := .holding handedFlush, accepted := [(1, flushInc)] }
      { System.new {} with
        state := takenFlush
        thread := .answered 1 (.ok 7)
        inner := ⟨[⟨7, 1, flushInc, .flush, 0, false⟩], [7]⟩
        accepted := [(1, flushInc)] } :=
    .submit _ handedFlush (.ok 7) _ rfl (.accepted 7 (by simp [System.new]))
  have h₄ : Step
      { System.new {} with
        state := takenFlush
        thread := .answered 1 (.ok 7)
        inner := ⟨[⟨7, 1, flushInc, .flush, 0, false⟩], [7]⟩
        accepted := [(1, flushInc)] }
      { System.new {} with
        state := (takenFlush.register 1 (.ok 7)).1
        inner := ⟨[⟨7, 1, flushInc, .flush, 0, false⟩], [7]⟩
        accepted := [(1, flushInc)] } :=
    .register _ 1 (.ok 7) rfl
  have h₅ : Step
      { System.new {} with
        state := (takenFlush.register 1 (.ok 7)).1
        inner := ⟨[⟨7, 1, flushInc, .flush, 0, false⟩], [7]⟩
        accepted := [(1, flushInc)] }
      { System.new {} with
        state := (takenFlush.register 1 (.ok 7)).1
        thread := .reaping [flushDone]
        inner := ⟨[], [7]⟩
        accepted := [(1, flushInc)] } :=
    .innerPoll _ [flushDone] _ rfl (.terminal [] [] _ _ flushDone [] _ rfl rfl rfl (.nil _))
  have h₆ : Step
      { System.new {} with
        state := (takenFlush.register 1 (.ok 7)).1
        thread := .reaping [flushDone]
        inner := ⟨[], [7]⟩
        accepted := [(1, flushInc)] } reapedFlush :=
    .reap _ [flushDone] rfl
  exact .tail (.tail (.tail (.tail (.tail (.single h₁) h₂) h₃) h₄) h₅) h₆

theorem every_ride_ends_once_flushed : reapedFlush.Answered 1 ∧
    (reapedFlush.polled ++ (reapedFlush.state.poll 8).1).countP (Completion.terminalOf · 1 flushInc) = 1 := by
  have hgone : reapedFlush.state.jobs[(1 : JobId)]? = none := rfl
  have hans : reapedFlush.Answered 1 := by
    refine ⟨Or.inr ⟨rfl, List.not_mem_nil, List.not_mem_nil, by simp [reapedFlush]⟩, ?_⟩
    rw [hgone]
    simp
  have hall : reapedFlush.state.reapOrphans.completions.length = 1 := rfl
  exact ⟨hans, (every_ride_ends_once {} reapedFlush run_reapedFlush 1 flushInc List.mem_cons_self).2.2 hans 8
    (by rw [hall]; decide)⟩

end SovereignCore.Store
