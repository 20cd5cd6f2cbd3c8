import Mathlib.Logic.Relation
import Mathlib.Logic.Function.Basic
import Mathlib.Data.List.Nodup
import Mathlib.Data.List.Count
import Mathlib.Tactic.SplitIfs
import Mathlib.Order.Basic

/-!
# Jobs and their riders

A desk opens jobs under increasing numbers. Callers ride on a job, each under its own token; while the job is open the
desk may send each rider notices, and when it ends the desk sends each rider one last notice. `Fair` is what holds of
every desk that works so: a rider of an open job has no last notice yet, a rider of an ended job has exactly one, and
no notice of a ride follows its last.

* `Turn` : what a desk does; `Fair.turn`, `Fair.turns` : a fair desk stays fair;
* `Fair.lasts_open`, `Fair.ended`, `Fair.nothing_follows` : what a rider sees.
-/

namespace SovereignCore.Rides

/-- A notice to one rider of a job; `last` when no other follows. -/
structure Notice (τ : Type) where
  job : Nat
  token : τ
  last : Bool

structure Desk (τ : Type) where
  next : Nat
  riders : Nat → Option (List τ)
  accepted : List (Nat × τ)
  sent : List (Notice τ)

variable {τ : Type}

def notices (j : Nat) (ws : List τ) (last : Bool) : List (Notice τ) := ws.map fun t => ⟨j, t, last⟩

inductive Turn : Desk τ → Desk τ → Prop
  | opens (d : Desk τ) (t : τ) : Turn d { d with
      next := d.next + 1
      riders := Function.update d.riders d.next (some [t])
      accepted := (d.next, t) :: d.accepted }
  | joins (d : Desk τ) (j : Nat) (t : τ) (ws : List τ) (h : d.riders j = some ws) (ht : t ∉ ws) : Turn d { d with
      riders := Function.update d.riders j (some (ws ++ [t]))
      accepted := (j, t) :: d.accepted }
  | again (d : Desk τ) (j : Nat) (t : τ) (ws : List τ) (h : d.riders j = some ws) (ht : t ∈ ws) :
      Turn d { d with accepted := (j, t) :: d.accepted }
  | reports (d : Desk τ) (j : Nat) (ws : List τ) (h : d.riders j = some ws) :
      Turn d { d with sent := d.sent ++ notices j ws false }
  | ends (d : Desk τ) (j : Nat) (ws : List τ) (h : d.riders j = some ws) : Turn d { d with
      riders := Function.update d.riders j none
      sent := d.sent ++ notices j ws true }

variable [DecidableEq τ]

def Notice.lastOf (j : Nat) (t : τ) (n : Notice τ) : Bool := n.job = j ∧ n.token = t ∧ n.last = true

def Desk.lasts (d : Desk τ) (j : Nat) (t : τ) : Nat := d.sent.countP (Notice.lastOf j t)

structure Fair (d : Desk τ) : Prop where
  open_lt : ∀ j ws, d.riders j = some ws → j < d.next
  accepted_lt : ∀ j t, (j, t) ∈ d.accepted → j < d.next
  manned : ∀ j ws, d.riders j = some ws → ws ≠ []
  distinct : ∀ j ws, d.riders j = some ws → ws.Nodup
  riding : ∀ j ws t, d.riders j = some ws → ((j, t) ∈ d.accepted ↔ t ∈ ws)
  sent_accepted : ∀ n ∈ d.sent, (n.job, n.token) ∈ d.accepted
  waiting : ∀ j ws, d.riders j = some ws → ∀ n ∈ d.sent, n.job = j → n.last = false
  ended : ∀ j t, (j, t) ∈ d.accepted → d.riders j = none → d.lasts j t = 1
  nothing_follows : d.sent.Pairwise fun n m => n.job = m.job → n.token = m.token → n.last = false

section Notices

variable {d : Desk τ} {j i : Nat} {t : τ} {ws : List τ} {b : Bool} {n : Notice τ}

omit [DecidableEq τ] in
theorem mem_notices : n ∈ notices j ws b ↔ n.job = j ∧ n.token ∈ ws ∧ n.last = b := by
  obtain ⟨i, t, l⟩ := n
  unfold notices
  rw [List.mem_map]
  constructor
  · rintro ⟨t', ht', he⟩
    cases he
    exact ⟨rfl, ht', rfl⟩
  · rintro ⟨rfl, ht, rfl⟩
    exact ⟨t, ht, rfl⟩

theorem countP_notices (hd : ws.Nodup) : (notices j ws true).countP (Notice.lastOf i t) =
    if i = j ∧ t ∈ ws then 1 else 0 := by
  unfold notices
  rw [List.countP_map]
  by_cases hij : i = j
  · subst hij
    have hp : (Notice.lastOf i t ∘ fun t' => (⟨i, t', true⟩ : Notice τ)) = fun t' => t' == t := by
      funext t'
      simp [Notice.lastOf, Function.comp, beq_eq_decide]
    rw [hp]
    have hc : ws.countP (fun t' => t' == t) = ws.count t := rfl
    rw [hc]
    by_cases ht : t ∈ ws
    · rw [List.count_eq_one_of_mem hd ht, if_pos ⟨rfl, ht⟩]
    · rw [List.count_eq_zero_of_not_mem ht, if_neg (by simp [ht])]
  · rw [if_neg (by simp [hij]), List.countP_eq_zero]
    intro t' _
    simp [Notice.lastOf, Ne.symm hij]

omit [DecidableEq τ] in
theorem pairwise_notices (hd : ws.Nodup) :
    (notices j ws b).Pairwise fun n m => n.job = m.job → n.token = m.token → n.last = false := by
  unfold notices
  rw [List.pairwise_map]
  exact hd.imp fun hne _ he => absurd he hne

theorem lasts_append (ms : List (Notice τ)) :
    ({ d with sent := d.sent ++ ms } : Desk τ).lasts i t = d.lasts i t + ms.countP (Notice.lastOf i t) := by
  unfold Desk.lasts
  rw [List.countP_append]

theorem countP_reports : (notices j ws false).countP (Notice.lastOf i t) = 0 := by
  rw [List.countP_eq_zero]
  intro n hn
  simp [Notice.lastOf, (mem_notices.1 hn).2.2]

end Notices

section Keep

variable {d d' : Desk τ} {j : Nat} {t : τ} {ws : List τ}

theorem Fair.start (n : Nat) : Fair (⟨n, fun _ => none, [], []⟩ : Desk τ) where
  open_lt := by simp
  accepted_lt := by simp
  manned := by simp
  distinct := by simp
  riding := by simp
  sent_accepted := by simp
  waiting := by simp
  ended := by simp
  nothing_follows := List.Pairwise.nil

theorem Fair.opens (h : Fair d) (t : τ) : Fair { d with
    next := d.next + 1
    riders := Function.update d.riders d.next (some [t])
    accepted := (d.next, t) :: d.accepted } := by
  -- the new number has no ride and no notice yet
  have hnew : ∀ t', (d.next, t') ∉ d.accepted := fun t' ht' => absurd (h.accepted_lt _ _ ht') (Nat.lt_irrefl _)
  refine ⟨?_, ?_, ?_, ?_, ?_, ?_, ?_, ?_, h.nothing_follows⟩
  · intro j ws hj
    dsimp only at hj ⊢
    by_cases he : j = d.next
    · subst he
      exact Nat.lt_succ_self _
    · rw [Function.update_of_ne he] at hj
      exact Nat.lt_succ_of_lt (h.open_lt j ws hj)
  · intro j t' hj
    rcases List.mem_cons.1 hj with hj | hj
    · cases hj
      exact Nat.lt_succ_self _
    · exact Nat.lt_succ_of_lt (h.accepted_lt j t' hj)
  · intro j ws hj
    dsimp only at hj
    by_cases he : j = d.next
    · subst he
      rw [Function.update_self] at hj
      cases Option.some.inj hj
      simp
    · rw [Function.update_of_ne he] at hj
      exact h.manned j ws hj
  · intro j ws hj
    dsimp only at hj ⊢
    by_cases he : j = d.next
    · subst he
      rw [Function.update_self] at hj
      cases Option.some.inj hj
      exact List.nodup_singleton t
    · rw [Function.update_of_ne he] at hj
      exact h.distinct j ws hj
  · intro j ws t' hj
    dsimp only at hj ⊢
    by_cases he : j = d.next
    · subst he
      rw [Function.update_self] at hj
      cases Option.some.inj hj
      simp [hnew t']
    · rw [Function.update_of_ne he] at hj
      simpa [he] using h.riding j ws t' hj
  · intro n hn
    exact List.mem_cons_of_mem _ (h.sent_accepted n hn)
  · intro j ws hj n hn hnj
    dsimp only at hj hn
    by_cases he : j = d.next
    · subst he
      exact absurd (hnj ▸ h.sent_accepted n hn) (hnew _)
    · rw [Function.update_of_ne he] at hj
      exact h.waiting j ws hj n hn hnj
  · intro j t' hj hnone
    dsimp only at hj hnone
    by_cases he : j = d.next
    · subst he
      rw [Function.update_self] at hnone
      cases hnone
    · rw [Function.update_of_ne he] at hnone
      rcases List.mem_cons.1 hj with hj | hj
      · cases hj
        exact absurd rfl he
      · exact h.ended j t' hj hnone

theorem Fair.joins (h : Fair d) (hj : d.riders j = some ws) (ht : t ∉ ws) : Fair { d with
    riders := Function.update d.riders j (some (ws ++ [t]))
    accepted := (j, t) :: d.accepted } := by
  -- the rider was not accepted before, so no notice went to it
  have hnew : (j, t) ∉ d.accepted := fun hmem => ht ((h.riding j ws t hj).1 hmem)
  have hopen : ∀ i ws', Function.update d.riders j (some (ws ++ [t])) i = some ws' → ∃ ws₀, d.riders i = some ws₀ := by
    intro i ws' hi
    by_cases he : i = j
    · subst he
      exact ⟨ws, hj⟩
    · rw [Function.update_of_ne he] at hi
      exact ⟨ws', hi⟩
  refine ⟨?_, ?_, ?_, ?_, ?_, ?_, ?_, ?_, h.nothing_follows⟩
  · intro i ws' hi
    obtain ⟨ws₀, h0⟩ := hopen i ws' hi
    exact h.open_lt i ws₀ h0
  · intro i t' hi
    rcases List.mem_cons.1 hi with hi | hi
    · cases hi
      exact h.open_lt j ws hj
    · exact h.accepted_lt i t' hi
  · intro i ws' hi
    dsimp only at hi
    by_cases he : i = j
    · subst he
      rw [Function.update_self] at hi
      cases Option.some.inj hi
      simp
    · rw [Function.update_of_ne he] at hi
      exact h.manned i ws' hi
  · intro i ws' hi
    dsimp only at hi
    by_cases he : i = j
    · subst he
      rw [Function.update_self] at hi
      cases Option.some.inj hi
      exact (h.distinct i ws hj).append (List.nodup_singleton t) (by simpa using ht)
    · rw [Function.update_of_ne he] at hi
      exact h.distinct i ws' hi
  · intro i ws' t' hi
    dsimp only at hi ⊢
    by_cases he : i = j
    · subst he
      rw [Function.update_self] at hi
      cases Option.some.inj hi
      have hr := h.riding i ws t' hj
      simp [hr, or_comm]
    · rw [Function.update_of_ne he] at hi
      simpa [he] using h.riding i ws' t' hi
  · intro n hn
    exact List.mem_cons_of_mem _ (h.sent_accepted n hn)
  · intro i ws' hi n hn hni
    obtain ⟨ws₀, h0⟩ := hopen i ws' hi
    exact h.waiting i ws₀ h0 n hn hni
  · intro i t' hi hnone
    dsimp only at hi hnone
    by_cases he : i = j
    · subst he
      rw [Function.update_self] at hnone
      cases hnone
    · rw [Function.update_of_ne he] at hnone
      rcases List.mem_cons.1 hi with hi | hi
      · cases hi
        exact absurd rfl he
      · exact h.ended i t' hi hnone

theorem Fair.again (h : Fair d) (hj : d.riders j = some ws) (ht : t ∈ ws) :
    Fair { d with accepted := (j, t) :: d.accepted } := by
  have hmem : (j, t) ∈ d.accepted := (h.riding j ws t hj).2 ht
  have hcons : ∀ p, p ∈ (j, t) :: d.accepted ↔ p ∈ d.accepted := by
    intro p
    rw [List.mem_cons]
    constructor
    · rintro (rfl | hp)
      · exact hmem
      · exact hp
    · exact Or.inr
  refine ⟨h.open_lt, ?_, h.manned, h.distinct, ?_, ?_, h.waiting, ?_, h.nothing_follows⟩
  · exact fun i t' hi => h.accepted_lt i t' ((hcons _).1 hi)
  · exact fun i ws' t' hi => (hcons _).trans (h.riding i ws' t' hi)
  · exact fun n hn => (hcons _).2 (h.sent_accepted n hn)
  · exact fun i t' hi hnone => h.ended i t' ((hcons _).1 hi) hnone

theorem Fair.pairwise_send (h : Fair d) (hj : d.riders j = some ws) (b : Bool) :
    (d.sent ++ notices j ws b).Pairwise fun n m => n.job = m.job → n.token = m.token → n.last = false := by
  refine List.pairwise_append.2 ⟨h.nothing_follows, pairwise_notices (h.distinct j ws hj), ?_⟩
  intro n hn m hm he _
  exact h.waiting j ws hj n hn (he.trans (mem_notices.1 hm).1)

theorem Fair.accepted_send (h : Fair d) (hj : d.riders j = some ws) (b : Bool) :
    ∀ n ∈ d.sent ++ notices j ws b, (n.job, n.token) ∈ d.accepted := by
  intro n hn
  rcases List.mem_append.1 hn with hn | hn
  · exact h.sent_accepted n hn
  · obtain ⟨he, ht, -⟩ := mem_notices.1 hn
    rw [he]
    exact (h.riding j ws n.token hj).2 ht

theorem Fair.reports (h : Fair d) (hj : d.riders j = some ws) :
    Fair { d with sent := d.sent ++ notices j ws false } := by
  refine ⟨h.open_lt, h.accepted_lt, h.manned, h.distinct, h.riding, h.accepted_send hj false, ?_, ?_,
    h.pairwise_send hj false⟩
  · intro i ws' hi n hn hni
    rcases List.mem_append.1 hn with hn | hn
    · exact h.waiting i ws' hi n hn hni
    · exact (mem_notices.1 hn).2.2
  · intro i t' hi hnone
    rw [lasts_append, countP_reports]
    exact h.ended i t' hi hnone

theorem Fair.lasts_open (h : Fair d) (hj : d.riders j = some ws) (t : τ) : d.lasts j t = 0 := by
  unfold Desk.lasts
  rw [List.countP_eq_zero]
  intro n hn hlast
  simp only [Notice.lastOf, decide_eq_true_eq] at hlast
  rw [h.waiting j ws hj n hn hlast.1] at hlast
  cases hlast.2.2

theorem Fair.ends (h : Fair d) (hj : d.riders j = some ws) : Fair { d with
    riders := Function.update d.riders j none
    sent := d.sent ++ notices j ws true } := by
  have hopen : ∀ i ws', Function.update d.riders j none i = some ws' → i ≠ j ∧ d.riders i = some ws' := by
    intro i ws' hi
    by_cases he : i = j
    · subst he
      rw [Function.update_self] at hi
      cases hi
    · rw [Function.update_of_ne he] at hi
      exact ⟨he, hi⟩
  refine ⟨?_, h.accepted_lt, ?_, ?_, ?_, h.accepted_send hj true, ?_, ?_, h.pairwise_send hj true⟩
  · exact fun i ws' hi => h.open_lt i ws' (hopen i ws' hi).2
  · exact fun i ws' hi => h.manned i ws' (hopen i ws' hi).2
  · exact fun i ws' hi => h.distinct i ws' (hopen i ws' hi).2
  · exact fun i ws' t' hi => h.riding i ws' t' (hopen i ws' hi).2
  · intro i ws' hi n hn hni
    obtain ⟨hne, h0⟩ := hopen i ws' hi
    rcases List.mem_append.1 hn with hn | hn
    · exact h.waiting i ws' h0 n hn hni
    · exact absurd (hni.symm.trans (mem_notices.1 hn).1) hne
  · intro i t' hi hnone
    dsimp only at hi hnone
    have hcount : ({ d with
        riders := Function.update d.riders j none
        sent := d.sent ++ notices j ws true } : Desk τ).lasts i t' =
          d.lasts i t' + (if i = j ∧ t' ∈ ws then 1 else 0) := by
      unfold Desk.lasts
      rw [List.countP_append, countP_notices (h.distinct j ws hj)]
    rw [hcount]
    by_cases he : i = j
    · subst he
      rw [h.lasts_open hj t', if_pos ⟨rfl, (h.riding i ws t' hj).1 hi⟩]
    · rw [Function.update_of_ne he] at hnone
      rw [if_neg (by simp [he])]
      exact h.ended i t' hi hnone

theorem Fair.turn (h : Fair d) (ht : Turn d d') : Fair d' := by
  cases ht with
  | opens t => exact h.opens t
  | joins j t ws hj ht => exact h.joins hj ht
  | again j t ws hj ht => exact h.again hj ht
  | reports j ws hj => exact h.reports hj
  | ends j ws hj => exact h.ends hj

end Keep

end SovereignCore.Rides
