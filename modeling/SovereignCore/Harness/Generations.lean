import Mathlib
import SovereignCore.Harness.Runs

/-!
# Generations and dispatches

A task's generation names one execution of it: it is meant to start at 1 and only to grow, and a task is to be
dispatched at most once for each. Revocation, cascades and retry move a task on by an addition of one that wraps at
the end of the 64-bit range, while `newGeneration` lets a caller choose any number, also the last one.

* `Progress` : the generation grew, or it stayed and the task did not fall back to waiting;
* `Step.turn` : an action makes progress on every task, or moves it to the next generation by addition;
* `advanced` : the tasks an event moves on by addition; `NoWrap` : none of them is at the last generation;
* `generations_grow` : a run without such a wrap;
* `generation_wraps` : a run that has one.
-/

namespace SovereignCore.Harness

open Std Result Relation

/-- `u64::MAX`. -/
def maxGeneration : UInt64 := 18446744073709551615

theorem lt_next {g : UInt64} (h : g ≠ maxGeneration) : g < g + 1 := by
  rw [UInt64.lt_iff_toNat_lt, UInt64.toNat_add]
  have hlt := UInt64.toNat_lt g
  have hne : g.toNat ≠ 18446744073709551615 := fun he => h (UInt64.toNat_inj.1 he)
  have : (1 : UInt64).toNat = 1 := rfl
  rw [this, Nat.mod_eq_of_lt (by omega)]
  omega

/-! ## Progress of one task -/

namespace Status

/-- The generation grew, or it stayed and the task did not fall back to waiting. -/
def Progress (s s' : Status) : Prop :=
  (s'.generation = s.generation ∧ (s'.state = .blocked → s.state = .blocked)) ∨ s.generation < s'.generation

variable {s s' s'' : Status}

theorem Progress.refl : Progress s s := Or.inl ⟨rfl, id⟩

theorem progress_of_state (hg : s'.generation = s.generation) (hb : s'.state ≠ .blocked) : Progress s s' :=
  Or.inl ⟨hg, fun h => absurd h hb⟩

theorem Progress.le (h : Progress s s') : s.generation ≤ s'.generation := by
  rcases h with ⟨h, -⟩ | h
  · exact UInt64.le_of_eq h.symm
  · exact UInt64.le_of_lt h

theorem Progress.trans (h : Progress s s') (h' : Progress s' s'') : Progress s s'' := by
  rcases h with ⟨hg, hb⟩ | h
  · rcases h' with ⟨hg', hb'⟩ | h'
    · exact Or.inl ⟨hg'.trans hg, fun hs => hb (hb' hs)⟩
    · exact Or.inr (hg ▸ h')
  · exact Or.inr (UInt64.lt_of_lt_of_le h h'.le)

theorem progress_reset (h : s.generation ≠ maxGeneration) : Progress s (s.reset (s.generation + 1)) :=
  Or.inr (lt_next h)

end Status

namespace Net

variable {enabled : Bool} {n n' : Net} {a : Act} {as : List Act} {t u : String} {s s' s1 : Status}

/-- The tasks an action may move on by adding one to their generation. -/
def Raises (n : Net) : Act → String → Prop
  | .revoke t, u => (∃ s, n.status t = some s ∧ s.state.isActive = true) ∧ (u = t ∨ n.Below t u)
  | .republish t, u | .renew t, u | .abort t, u | .endCommit t false, u => n.Below t u
  | .retry t, u => u = t
  | _, _ => False

/-- What an action does to the generation of a task. -/
inductive Turn (n : Net) (a : Act) (u : String) (s s' : Status) : Prop
  | progress (h : s.Progress s')
  | raised (hr : n.Raises a u) (hst : s.state.isActive = true ∨ a = .retry u) (h : s' = s.reset (s.generation + 1))

/-- A sweep moves active tasks below its root on, and does nothing else to generations. -/
theorem Sweep.turn (a : Act) (hsweep : Sweep (n.set t s1) t n') (hac : Search.Acyclic n.Edge) (ht : n.status t = some s)
    (hend : s.state.isCommitTerminal = false) (hroot : Turn n a t s s1)
    (hr : ∀ v, n.Below t v → n.Raises a v) {su : Status} (hu : n.status u = some su) :
    ∃ su', n'.status u = some su' ∧ Turn n a u su su' := by
  by_cases hb : (n.set t s1).Below t u
  · have hut : u ≠ t := fun he => not_below_self (n := n.set t s1) hac (he ▸ hb)
    obtain ⟨s0, s0', h0, h0', hf⟩ := hsweep.falls u hb
    rw [set_status, if_neg hut, hu] at h0
    obtain rfl := Option.some.inj h0
    refine ⟨s0', h0', ?_⟩
    have hbn : n.Below t u := hb.mono (fun _ _ h => h) fun v hv => ended_set ht (fun he => by simp [hend] at he) hv
    cases hf with
    | stays _ => exact .progress .refl
    | resets ha => exact .raised (hr u hbn) (Or.inl ha) rfl
    | aborts _ => exact .progress (Status.progress_of_state rfl nofun)
  · rw [hsweep.same u hb, set_status]
    by_cases hut : u = t
    · subst hut
      rw [ht] at hu
      obtain rfl := Option.some.inj hu
      exact ⟨s1, by simp, hroot⟩
    · exact ⟨su, by simp [hut, hu], .progress .refl⟩

theorem turn_set (a : Act) (ht : n.status t = some s) (hroot : Turn n a t s s1) {su : Status} (hu : n.status u = some su) :
    ∃ su', (n.set t s1).status u = some su' ∧ Turn n a u su su' := by
  rw [set_status]
  by_cases hut : u = t
  · subst hut
    rw [ht] at hu
    obtain rfl := Option.some.inj hu
    exact ⟨s1, by simp, hroot⟩
  · exact ⟨su, by simp [hut, hu], .progress .refl⟩

/-- **Every action makes progress on every task, or moves it to the next generation by addition.** -/
theorem Step.turn (hstep : Step enabled n a n') (hac : Search.Acyclic n.Edge) (hu : n.status u = some s) :
    ∃ s', n'.status u = some s' ∧ Turn n a u s s' := by
  have hsame : ∀ {st : Status}, st.state.isActive = true ∨ st.state = .blocked → st.state.isCommitTerminal = false := by
    intro st hst
    rcases hst with h | h
    · exact Status.not_ended_of_active h
    · simp [h, TaskState.isCommitTerminal]
  cases hstep with
  | @register t st E hnew hs hg hi hc hE hsub hacyclic =>
    have hut : u ≠ t := by
      rintro rfl
      simp [hnew] at hu
    refine ⟨s, ?_, .progress .refl⟩
    show (n.set t st).status u = some s
    simp [hut, hu]
  | depend => exact ⟨s, hu, .progress .refl⟩
  | @claim t st level claim hs ha hslot =>
    obtain ⟨h1, -, h2, -⟩ := st.setSlot_state level claim
    exact turn_set (.publish t) hs (.progress (Or.inl ⟨h2, fun hb => by rw [← h1]; exact hb⟩)) hu
  | @reclaim _ t st level claim hs ha hsweep =>
    obtain ⟨h1, -, h2, -⟩ := st.setSlot_state level claim
    exact hsweep.turn (.republish t) hac hs (hsame (Or.inl ha)) (.progress (Or.inl ⟨h2, fun hb => by rw [← h1]; exact hb⟩))
      (fun v hv => hv) hu
  | @renew _ t st g hs hst hg hsweep =>
    exact hsweep.turn (.renew t) hac hs (hsame hst) (.progress (Or.inr hg)) (fun v hv => hv) hu
  | @revoke _ t st hs hst hsweep =>
    exact hsweep.turn (.revoke t) hac hs (hsame (Or.inl hst)) (.raised ⟨⟨st, hs, hst⟩, Or.inl rfl⟩ (Or.inl hst) rfl)
      (fun v hv => ⟨⟨st, hs, hst⟩, Or.inr hv⟩) hu
  | @abort _ t st hs hst hsweep =>
    exact hsweep.turn (.abort t) hac hs (hsame hst) (.progress (Status.progress_of_state rfl (by simp [Status.abort])))
      (fun v hv => hv) hu
  | @cancel _ t st hs hst hsweep hgen =>
    have hex : ∃ s', n'.status u = some s' := by
      by_cases hb : (n.set t st.abort).Below t u
      · obtain ⟨_, s', _, h', _⟩ := hsweep.falls u hb
        exact ⟨s', h'⟩
      · rw [hsweep.same u hb, set_status]
        split
        · exact ⟨_, rfl⟩
        · exact ⟨s, hu⟩
    obtain ⟨s', hs'⟩ := hex
    exact ⟨s', hs', .progress (Or.inl (hgen u s s' hu hs'))⟩
  | @retry t st hs hst => exact turn_set (.retry t) hs (.raised rfl (Or.inr rfl) rfl) hu
  | @work t st hs hst =>
    refine turn_set (.work t) hs ?_ hu
    exact .progress (Status.progress_of_state rfl (by simp))
  | @finalize t st hs hst hfinal =>
    refine turn_set (.finalize t) hs ?_ hu
    exact .progress (Status.progress_of_state rfl (by simp))
  | @beginCommit t st inputs hs hst hbelow habove =>
    refine turn_set (.beginCommit t) hs ?_ hu
    exact .progress (Status.progress_of_state rfl (by simp))
  | @committed t st hs hst =>
    refine turn_set (.endCommit t true) hs ?_ hu
    exact .progress (Status.progress_of_state rfl (by simp))
  | @failed _ t st hs hst hsweep =>
    exact hsweep.turn (.endCommit t false) hac hs (by simp [hst, TaskState.isCommitTerminal])
      (.progress (Status.progress_of_state rfl (by simp [Status.abort]))) (fun v hv => hv) hu
  | @uncertain _ t st hs hst hsweep =>
    have hend : st.state.isCommitTerminal = false := by simp [hst, TaskState.isCommitTerminal]
    refine (hsweep.set hac hs hend).turn (.endCommit t false) hac hs hend ?_ (fun v hv => hv) hu
    exact .progress (Status.progress_of_state rfl (by simp))
  | @dispatch t st bindings hs hst hready =>
    refine turn_set (.dispatch t) hs ?_ hu
    exact .progress (Status.progress_of_state rfl (by simp))

/-- An action whose raised tasks are not at the last generation makes progress on every task. -/
theorem Step.progress (hstep : Step enabled n a n') (hac : Search.Acyclic n.Edge)
    (hno : ∀ u s, n.Raises a u → n.status u = some s → s.state.isActive = true ∨ a = .retry u →
      s.generation ≠ maxGeneration) (hu : n.status u = some s) : ∃ s', n'.status u = some s' ∧ s.Progress s' := by
  obtain ⟨s', hs', hturn⟩ := hstep.turn hac hu
  refine ⟨s', hs', ?_⟩
  cases hturn with
  | progress h => exact h
  | raised hr hst h => exact h ▸ Status.progress_reset (hno u s hr hu hst)

/-! ## Several upstream changes in one event -/

theorem Sweep.known {root : String} (hsweep : Sweep n root n') {su : Status} (hu : n'.status u = some su) :
    ∃ s', n.status u = some s' := by
  by_cases hb : n.Below root u
  · obtain ⟨s', _, h', _⟩ := hsweep.falls u hb
    exact ⟨s', h'⟩
  · exact ⟨su, (hsweep.same u hb).symm.trans hu⟩

theorem known_of_set (ht : n.status t = some s) {su : Status} (hu : (n.set t s1).status u = some su) :
    ∃ s', n.status u = some s' := by
  by_cases hut : u = t
  · exact ⟨s, hut ▸ ht⟩
  · rw [set_status, if_neg hut] at hu
    exact ⟨su, hu⟩

theorem Step.known (hstep : Step enabled n a n') (hu : n'.status u = some s) :
    (∃ s', n.status u = some s') ∨ (a = .register u ∧ s.generation = 1) := by
  cases hstep with
  | @register t st E hnew hs hg hi hc hE hsub hacyclic =>
    have hu' : (n.set t st).status u = some s := hu
    rw [set_status] at hu'
    by_cases hut : u = t
    · rw [if_pos hut] at hu'
      obtain rfl := Option.some.inj hu'
      exact Or.inr ⟨by rw [hut], hg⟩
    · rw [if_neg hut] at hu'
      exact Or.inl ⟨s, hu'⟩
  | depend => exact Or.inl ⟨s, hu⟩
  | reclaim hs _ hsweep =>
    obtain ⟨s₁, h₁⟩ := hsweep.known hu
    exact Or.inl (known_of_set hs h₁)
  | renew hs _ _ hsweep =>
    obtain ⟨s₁, h₁⟩ := hsweep.known hu
    exact Or.inl (known_of_set hs h₁)
  | revoke hs _ hsweep =>
    obtain ⟨s₁, h₁⟩ := hsweep.known hu
    exact Or.inl (known_of_set hs h₁)
  | abort hs _ hsweep =>
    obtain ⟨s₁, h₁⟩ := hsweep.known hu
    exact Or.inl (known_of_set hs h₁)
  | cancel hs _ hsweep _ =>
    obtain ⟨s₁, h₁⟩ := hsweep.known hu
    exact Or.inl (known_of_set hs h₁)
  | failed hs _ hsweep =>
    obtain ⟨s₁, h₁⟩ := hsweep.known hu
    exact Or.inl (known_of_set hs h₁)
  | @uncertain m t st hs hst hsweep =>
    by_cases hut : u = t
    · exact Or.inl ⟨st, hut ▸ hs⟩
    · rw [set_status, if_neg hut] at hu
      exact Or.inl (hsweep.known hu)
  | claim hs => exact Or.inl (known_of_set hs hu)
  | retry hs => exact Or.inl (known_of_set hs hu)
  | work hs => exact Or.inl (known_of_set hs hu)
  | finalize hs => exact Or.inl (known_of_set hs hu)
  | beginCommit hs => exact Or.inl (known_of_set hs hu)
  | committed hs => exact Or.inl (known_of_set hs hu)
  | dispatch hs => exact Or.inl (known_of_set hs hu)

/-- A step of an audit or a tick: it keeps the reach of every task, and leaves each task alone or at rest. -/
theorem Step.withdraw (hstep : Step enabled n a n')
    (ha : ∃ t, a = .revoke t ∨ a = .abort t) :
    n'.Edge = n.Edge ∧ (∀ t u, n'.Below t u → n.Below t u) ∧
      ∀ u s, n.status u = some s → ∃ s', n'.status u = some s' ∧ (s' = s ∨ s'.Resting) := by
  have key : ∀ {t : String} {st s1 : Status}, n.status t = some st → st.state.isCommitTerminal = false → s1.Resting →
      Sweep (n.set t s1) t n' → n'.Edge = n.Edge ∧ (∀ t u, n'.Below t u → n.Below t u) ∧
        ∀ u s, n.status u = some s → ∃ s', n'.status u = some s' ∧ (s' = s ∨ s'.Resting) := by
    intro t st s1 hs hend hrest hsweep
    refine ⟨hsweep.edge, fun v w hvw => ?_, fun v sv hv => ?_⟩
    · exact (hsweep.below.1 hvw).mono (fun _ _ h => h) fun y hy => ended_set hs (fun he => by simp [hend] at he) hy
    · by_cases hb : (n.set t s1).Below t v
      · obtain ⟨_, s', _, h', hf⟩ := hsweep.falls v hb
        exact ⟨s', h', Or.inr hf.resting⟩
      · rw [hsweep.same v hb, set_status]
        by_cases hvt : v = t
        · exact ⟨s1, by simp [hvt], Or.inr hrest⟩
        · exact ⟨sv, by simp [hvt, hv], Or.inl rfl⟩
  obtain ⟨t, rfl | rfl⟩ := ha
  · cases hstep with
    | revoke hs hst hsweep => exact key hs (Status.not_ended_of_active hst) (Or.inl rfl) hsweep
  · cases hstep with
    | abort hs hst hsweep =>
      refine key hs ?_ (Or.inr rfl) hsweep
      rcases hst with h | h
      · exact Status.not_ended_of_active h
      · simp [h, TaskState.isCommitTerminal]

/-- A relation that an action keeps on every task, unless it moves one on that is at the last generation. -/
structure Kept (R : Status → Status → Prop) : Prop where
  refl : ∀ s, R s s
  trans : ∀ {s s' s'' : Status}, R s s' → R s' s'' → R s s''
  step : ∀ {enabled : Bool} {n n' : Net} {a : Act} {u : String} {s : Status}, Step enabled n a n' →
    Search.Acyclic n.Edge → (∀ u s, n.Raises a u → n.status u = some s → s.state.isActive = true ∨ a = .retry u →
      s.generation ≠ maxGeneration) → n.status u = some s → ∃ s', n'.status u = some s' ∧ R s s'

theorem progress_kept : Kept Status.Progress := ⟨fun _ => .refl, .trans, Step.progress⟩

/-- A run of revocations and aborts keeps such a relation when, judged at its start, no task they move on is at the last
generation: what they find active later was so, unchanged, from the start. -/
theorem Steps.withdraw_kept {n₀ : Net} {R : Status → Status → Prop} (hR : Kept R) (hsteps : Steps enabled n as n') (hac : Search.Acyclic n.Edge)
    (has : ∀ a ∈ as, ∃ t, a = .revoke t ∨ a = .abort t)
    (hno : ∀ a ∈ as, ∀ u s, n₀.Raises a u → n₀.status u = some s → s.state.isActive = true →
      s.generation ≠ maxGeneration)
    (hbelow : ∀ t u, n.Below t u → n₀.Below t u)
    (hkeep : ∀ u s, n₀.status u = some s → ∃ s', n.status u = some s' ∧ R s s' ∧ (s' = s ∨ s'.Resting))
    (hknown : ∀ u s, n.status u = some s → ∃ s₀, n₀.status u = some s₀) :
    ∀ u s, n₀.status u = some s → ∃ s', n'.status u = some s' ∧ R s s' := by
  induction hsteps with
  | refl =>
    intro u s hu
    obtain ⟨s', h1, h2, -⟩ := hkeep u s hu
    exact ⟨s', h1, h2⟩
  | @cons n n₁ n₂ a as hstep hrest ih =>
    obtain ⟨hedge, hb, hst⟩ := hstep.withdraw (has a (by simp))
    have hact : ∀ u s, n.status u = some s → s.state.isActive = true → n₀.status u = some s := by
      intro u s hu ha
      obtain ⟨s₀, h₀⟩ := hknown u s hu
      obtain ⟨s', hs', -, heq⟩ := hkeep u s₀ h₀
      rw [hu] at hs'
      obtain rfl := Option.some.inj hs'
      rcases heq with rfl | hr
      · exact h₀
      · exact absurd hr (Status.not_resting_of_active ha)
    have hraise : ∀ u, n.Raises a u → n₀.Raises a u := by
      intro u hr
      obtain ⟨t, rfl | rfl⟩ := has a (by simp)
      · obtain ⟨⟨st, hst, hsa⟩, hut⟩ := hr
        refine ⟨⟨st, hact t st hst hsa, hsa⟩, ?_⟩
        rcases hut with h | h
        · exact Or.inl h
        · exact Or.inr (hbelow t u h)
      · exact hbelow t u hr
    have hkept : ∀ u s, n.status u = some s → ∃ s', n₁.status u = some s' ∧ R s s' := by
      intro u s hu
      refine hR.step hstep hac (fun v sv hr hv hsv => ?_) hu
      have hsa : sv.state.isActive = true := by
        rcases hsv with h | h
        · exact h
        · obtain ⟨t, ht | ht⟩ := has a (by simp) <;> simp [h] at ht
      exact hno a (by simp) v sv (hraise v hr) (hact v sv hv hsa) hsa
    refine ih (hedge ▸ hac) (fun b hb => has b (by simp [hb])) (fun b hb => hno b (by simp [hb]))
      (fun t u h => hbelow t u (hb t u h)) (fun u s hu => ?_) (fun u s hu => ?_)
    · obtain ⟨s₁, h₁, hp₁, heq₁⟩ := hkeep u s hu
      obtain ⟨s₂, h₂, hp₂⟩ := hkept u s₁ h₁
      obtain ⟨s₂', h₂', heq₂⟩ := hst u s₁ h₁
      rw [h₂] at h₂'
      obtain rfl := Option.some.inj h₂'
      refine ⟨s₂, h₂, hR.trans hp₁ hp₂, ?_⟩
      rcases heq₂ with rfl | hr
      · exact heq₁
      · exact Or.inr hr
    · -- a withdrawal adds no task
      rcases hstep.known hu with ⟨sn, hsn⟩ | ⟨rfl, -⟩
      · exact hknown u sn hsn
      · obtain ⟨t, ht | ht⟩ := has _ List.mem_cons_self <;> simp at ht

/-! ## Dispatch histories -/

/-- A history of dispatches that the net is past: no repeats, none at a later generation, and none at the current
generation of a waiting task. -/
structure Past (n : Net) (H : List (String × UInt64)) : Prop where
  nodup : H.Nodup
  past : ∀ u g, (u, g) ∈ H → ∃ s, n.status u = some s ∧ g ≤ s.generation ∧ (s.state = .blocked → g < s.generation)

theorem past_nil : Past n [] := ⟨List.nodup_nil, by simp⟩

theorem Past.progress {H : List (String × UInt64)} (h : Past n H)
    (hp : ∀ u s, n.status u = some s → ∃ s', n'.status u = some s' ∧ s.Progress s') : Past n' H := by
  refine ⟨h.nodup, fun u g hg => ?_⟩
  obtain ⟨s, hs, hle, hlt⟩ := h.past u g hg
  obtain ⟨s', hs', hprog⟩ := hp u s hs
  refine ⟨s', hs', UInt64.le_trans hle hprog.le, fun hb => ?_⟩
  rcases hprog with ⟨heq, hst⟩ | hgt
  · rw [heq]
    exact hlt (hst hb)
  · exact UInt64.lt_of_le_of_lt hle hgt

def generationOf (n : Net) (u : String) : UInt64 := ((n.status u).map (·.generation)).getD 0

theorem dispatch_generationOf (h : Step enabled n (.dispatch t) n') : n'.generationOf u = n.generationOf u := by
  cases h with
  | @dispatch _ s bindings hs hst hready =>
    unfold generationOf
    rw [set_status]
    by_cases hut : u = t
    · subst hut
      simp [hs]
    · simp [hut]

/-- A waiting task is past no dispatch at its current generation, so dispatching it repeats none. -/
theorem Past.dispatch {H : List (String × UInt64)} (h : Past n H) (hstep : Step enabled n (.dispatch t) n') :
    Past n' (H ++ [(t, n.generationOf t)]) := by
  cases hstep with
  | @dispatch _ s bindings hs hst hready =>
    have hgen : n.generationOf t = s.generation := by simp [generationOf, hs]
    rw [hgen]
    refine ⟨List.nodup_append.2 ⟨h.nodup, by simp, fun a ha b hb hab => ?_⟩, fun u g hg => ?_⟩
    · rw [List.mem_singleton] at hb
      subst hb hab
      obtain ⟨s', hs', -, hlt⟩ := h.past t s.generation ha
      rw [hs] at hs'
      obtain rfl := Option.some.inj hs'
      exact UInt64.lt_irrefl _ (hlt hst)
    · rw [set_status]
      rcases List.mem_append.1 hg with hg | hg
      · obtain ⟨s', hs', hle, hlt⟩ := h.past u g hg
        by_cases hut : u = t
        · subst hut
          rw [hs] at hs'
          obtain rfl := Option.some.inj hs'
          rw [if_pos rfl]
          exact ⟨_, rfl, hle, nofun⟩
        · exact ⟨s', by rw [if_neg hut]; exact hs', hle, hlt⟩
      · rw [List.mem_singleton, Prod.mk.injEq] at hg
        obtain ⟨rfl, rfl⟩ := hg
        rw [if_pos rfl]
        exact ⟨_, rfl, UInt64.le_refl _, nofun⟩

theorem Past.dispatches {H : List (String × UInt64)} {ds : List String} (h : Past n H)
    (hsteps : Steps enabled n (ds.map .dispatch) n') :
    Past n' (H ++ ds.map fun d => (d, n'.generationOf d)) ∧ ∀ u, n'.generationOf u = n.generationOf u := by
  induction ds generalizing n H with
  | nil =>
    cases hsteps
    simpa using h
  | cons d ds ih =>
    cases hsteps with
    | @cons _ n₁ _ _ _ hstep hrest =>
      obtain ⟨hpast, hgen⟩ := ih (h.dispatch hstep) hrest
      have hall : ∀ u, n'.generationOf u = n.generationOf u := fun u => (hgen u).trans (dispatch_generationOf hstep)
      refine ⟨?_, hall⟩
      rw [List.map_cons, hall d]
      simpa using hpast

theorem Steps.known (hsteps : Steps enabled n as n') (has : ∀ t, Act.register t ∉ as) (hu : n'.status u = some s) :
    ∃ s', n.status u = some s' := by
  induction hsteps with
  | refl => exact ⟨s, hu⟩
  | cons hstep hrest ih =>
    obtain ⟨s₁, h₁⟩ := ih (fun t ht => has t (List.mem_cons_of_mem _ ht)) hu
    rcases hstep.known h₁ with h | ⟨rfl, -⟩
    · exact h
    · exact absurd List.mem_cons_self (has u)

theorem Step.kept (hstep : Step enabled n (.dispatch t) n') (hu : n.status u = some s) : ∃ s', n'.status u = some s' := by
  cases hstep with
  | dispatch hs hst hready =>
    rw [set_status]
    split
    · exact ⟨_, rfl⟩
    · exact ⟨s, hu⟩

theorem Steps.kept {ds : List String} (hsteps : Steps enabled n (ds.map .dispatch) n') (hu : n.status u = some s) :
    ∃ s', n'.status u = some s' := by
  induction ds generalizing n s with
  | nil =>
    cases hsteps
    exact ⟨s, hu⟩
  | cons d ds ih =>
    cases hsteps with
    | cons hstep hrest =>
      obtain ⟨s₁, h₁⟩ := hstep.kept hu
      exact ih hrest h₁

theorem Steps.append_inv {bs : List Act} (h : Steps enabled n (as ++ bs) n') :
    ∃ n₁, Steps enabled n as n₁ ∧ Steps enabled n₁ bs n' := by
  induction as generalizing n with
  | nil => exact ⟨n, .refl, h⟩
  | cons a as ih =>
    cases h with
    | cons hstep hrest =>
      obtain ⟨n₁, h1, h2⟩ := ih hrest
      exact ⟨n₁, .cons hstep h1, h2⟩

end Net

/-! ## Events -/

namespace Core

variable {cfg : ProvisionalConfig} {dg : EventKind → String} {c c' : Core} {e : JournalEntry} {fx : Effects}
variable {now : UInt64} {kind : EventKind} {id task : String} {t : TaskEntry}

/-- The active tasks an upstream change of `task` reaches. -/
def activeBelow (c : Core) (task : String) : List String :=
  (c.affected task).filter fun d => c.tasks[d]?.any fun t => t.state.isActive

/-- The tasks an accepted event moves on by adding one to their generation. -/
def advanced (c : Core) (now : UInt64) : EventKind → List String
  | .interfacePublished task _ claim => if c.replaces .interface task claim then c.activeBelow task else []
  | .completionVerified task _ claim => if c.replaces .final task claim then c.activeBelow task else []
  | .newGeneration task _ | .producerFailed task .. => c.activeBelow task
  | .revoke task .. => task :: c.activeBelow task
  | .retry task _ => [task]
  | .auditRevoke revocations => revocations.flatMap fun r =>
      if c.tasks[r.task]?.any fun t => t.state.isActive then r.task :: c.activeBelow r.task else []
  | .tick => (c.expired now).flatMap c.activeBelow
  | .commitOutcome task _ outcome => if succeeded outcome then [] else c.activeBelow task
  | .registerTask .. | .addDependency .. | .workDone .. | .finalize .. | .heartbeat .. | .cancel ..
  | .beginCommit .. | .bindApproval .. => []

/-- The event moves no task on by addition that is at the last generation. -/
def NoWrap (c : Core) (e : JournalEntry) : Prop :=
  ∀ id ∈ c.advanced e.now e.kind, ∀ t, c.tasks[id]? = some t → t.generation ≠ maxGeneration

theorem mem_activeBelow (hg : c.Good) (hb : c.net.Below task id) (ht : c.tasks[id]? = some t)
    (ha : t.state.isActive = true) : id ∈ c.activeBelow task := by
  unfold activeBelow
  rw [List.mem_filter]
  exact ⟨(mem_affected hg.graph).2 hb, by simp [ht, ha]⟩

theorem raises_advanced {a : Net.Act} (hg : c.Good) (hacts : EventActs c now kind a) (hr : c.net.Raises a id)
    (ht : c.tasks[id]? = some t) (hst : t.state.isActive = true ∨ a = .retry id) : id ∈ c.advanced now kind := by
  have hact : (∀ u, a ≠ .retry u) → t.state.isActive = true := fun hne => hst.resolve_right (hne id)
  cases kind with
  | interfacePublished task g claim =>
    simp only [EventActs] at hacts
    by_cases hrep : c.replaces .interface task claim = true
    · rw [if_pos hrep] at hacts
      subst hacts
      simp only [advanced, hrep, if_true]
      exact mem_activeBelow hg hr ht (hact (by simp))
    · rw [if_neg hrep] at hacts
      subst hacts
      exact hr.elim
  | completionVerified task g claim =>
    simp only [EventActs] at hacts
    by_cases hrep : c.replaces .final task claim = true
    · rw [if_pos hrep] at hacts
      subst hacts
      simp only [advanced, hrep, if_true]
      exact mem_activeBelow hg hr ht (hact (by simp))
    · rw [if_neg hrep] at hacts
      subst hacts
      exact hr.elim
  | newGeneration task g =>
    simp only [EventActs] at hacts
    subst hacts
    exact mem_activeBelow hg hr ht (hact (by simp))
  | producerFailed task g reason =>
    simp only [EventActs] at hacts
    subst hacts
    exact mem_activeBelow hg hr ht (hact (by simp))
  | revoke task g reason =>
    simp only [EventActs] at hacts
    subst hacts
    rcases hr.2 with rfl | hb
    · simp [advanced]
    · exact List.mem_cons_of_mem _ (mem_activeBelow hg hb ht (hact (by simp)))
  | retry task g =>
    simp only [EventActs] at hacts
    subst hacts
    simp only [Net.Raises] at hr
    simp [advanced, hr]
  | auditRevoke revocations =>
    obtain ⟨r, hmem, rfl⟩ := hacts
    obtain ⟨⟨sr, hsr, hra⟩, hut⟩ := hr
    obtain ⟨tr, htr, rfl⟩ := net_status.1 hsr
    refine List.mem_flatMap.2 ⟨r, hmem, ?_⟩
    have hra' : tr.state.isActive = true := hra
    simp only [htr, Option.any_some, hra', if_true]
    rcases hut with rfl | hb
    · simp
    · exact List.mem_cons_of_mem _ (mem_activeBelow hg hb ht (hact (by simp)))
  | tick =>
    obtain ⟨r, hmem, rfl⟩ := hacts
    exact List.mem_flatMap.2 ⟨r, hmem, mem_activeBelow hg hr ht (hact (by simp))⟩
  | commitOutcome task g outcome =>
    simp only [EventActs] at hacts
    subst hacts
    cases hs : succeeded outcome with
    | true =>
      rw [hs] at hr
      exact hr.elim
    | false =>
      rw [hs] at hr
      simp only [advanced, hs]
      exact mem_activeBelow hg hr ht (hact (by simp))
  | heartbeat task g beat => exact hacts.elim
  | bindApproval key task g => exact hacts.elim
  | _ =>
    simp only [EventActs] at hacts
    subst hacts
    exact hr.elim

/-- **An event without a wrap keeps on every task what actions keep**, before it dispatches. -/
theorem applyKind_kept {x : Exec} {R : Status → Status → Prop} (hR : Net.Kept R) (hg : c.Good)
    (hno : ∀ id ∈ c.advanced now kind, ∀ t, c.tasks[id]? = some t → t.generation ≠ maxGeneration)
    (h : applyKind cfg c now kind = .ok x) :
    ∀ u s, c.net.status u = some s → ∃ s', x.core.net.status u = some s' ∧ R s s' := by
  obtain ⟨acts, hh, hacts, honce⟩ := applyKind_spec hg h
  have h1 : Net.Steps cfg.enabled c.net acts x.core.net := hh.steps
  generalize x.core.net = n at h1 ⊢
  have hraise : ∀ a ∈ acts, ∀ u s, c.net.Raises a u → c.net.status u = some s →
      s.state.isActive = true ∨ a = .retry u → s.generation ≠ maxGeneration := by
    intro a ha u s hr hu hst
    obtain ⟨t, ht, rfl⟩ := net_status.1 hu
    exact hno u (raises_advanced hg (hacts a ha) hr ht hst) t ht
  cases honce with
  | none =>
    intro u s hu
    cases h1
    exact ⟨s, hu, hR.refl s⟩
  | @one a =>
    cases h1 with
    | cons hstep hrest =>
      cases hrest
      exact fun u s hu => hR.step hstep hg.graph.acyclic (hraise a (by simp)) hu
  | many hmany =>
    exact h1.withdraw_kept hR hg.graph.acyclic hmany
      (fun a ha u s hr hu hst => hraise a ha u s hr hu (Or.inl hst)) (fun _ _ h => h)
      (fun u s hu => ⟨s, hu, hR.refl s, Or.inl rfl⟩) (fun u s hu => ⟨s, hu⟩)

theorem apply_kept {R : Status → Status → Prop} (hR : Net.Kept R) (hg : c.Good) (hno : NoWrap c e)
    (h : apply cfg c dg e = .ok (c', fx)) :
    ∃ n, (∀ u s, c.net.status u = some s → ∃ s', n.status u = some s' ∧ R s s') ∧
      Net.Steps cfg.enabled n (fx.dispatched.map .dispatch) c'.net := by
  obtain ⟨-, -, -, x, x', hx, hx', rfl, rfl⟩ := apply_ok h
  have hgood : Core.Good { c with lastAt := e.now } := hg.congr rfl rfl rfl
  obtain ⟨acts, hh, -, -⟩ := applyKind_spec hgood hx
  obtain ⟨y, ds, hy, hp⟩ := Exec.pump_spec cfg e.now hh.good
  obtain rfl := Except.ok.inj (hx'.symm.trans hy)
  have hfx : x'.fx.dispatched = ds := by rw [hp.fx, hh.dispatched]; simp
  refine ⟨x.core.net, applyKind_kept (c := { c with lastAt := e.now }) hR hgood hno hx, ?_⟩
  rw [hfx]
  exact hp.steps

theorem apply_new (hg : c.Good) (h : apply cfg c dg e = .ok (c', fx)) (hnew : c.tasks[id]? = none)
    (ht : c'.tasks[id]? = some t) : t.generation = 1 := by
  obtain ⟨-, acts, -, honce, hsteps⟩ := apply_spec hg h
  obtain ⟨n, h1, h2⟩ := hsteps.append_inv
  obtain ⟨s, hs⟩ := h2.known (by simp) (net_status_of ht)
  -- the dispatches leave the generation the event gave the task
  have hgen : s.generation = t.generation := by
    have := (Net.past_nil.dispatches h2).2 id
    simp only [Net.generationOf, hs, net_status_of ht, Option.map_some, Option.getD_some] at this
    exact this.symm
  have hnone : ∀ s', c.net.status id ≠ some s' := by simp [net, hnew]
  cases honce with
  | none =>
    cases h1
    exact absurd hs (hnone s)
  | one =>
    cases h1 with
    | cons hstep hrest =>
      cases hrest
      rcases hstep.known hs with ⟨s', hs'⟩ | ⟨-, hone⟩
      · exact absurd hs' (hnone s')
      · rw [← hgen, hone]
  | many hmany =>
    obtain ⟨s', hs'⟩ := h1.known (fun t ht => by simpa using hmany _ ht) hs
    exact absurd hs' (hnone s')

/-! ## Runs -/

/-- A core together with the dispatches so far: which task, at which generation. -/
structure History where
  core : Core := {}
  dispatches : List (String × UInt64) := []

def History.step (cfg : ProvisionalConfig) (dg : EventKind → String) (r : History) (e : JournalEntry) :
    Except SchedError History := do
  let (c, fx) ← apply cfg r.core dg e
  return { core := c
           dispatches := r.dispatches ++ fx.dispatched.map fun id =>
             (id, (c.tasks[id]?.map (·.generation)).getD 0) }

def History.run (cfg : ProvisionalConfig) (dg : EventKind → String) (es : List JournalEntry) (r : History) :
    Except SchedError History :=
  es.foldlM (History.step cfg dg) r

def NoWraps (cfg : ProvisionalConfig) (dg : EventKind → String) : List JournalEntry → Core → Prop
  | [], _ => True
  | e :: es, c => NoWrap c e ∧ ∀ c' fx, apply cfg c dg e = .ok (c', fx) → NoWraps cfg dg es c'

instance : Decidable (NoWrap c e) :=
  decidable_of_iff ((c.advanced e.now e.kind).all fun id => c.tasks[id]?.all fun t => t.generation != maxGeneration)
    (by simp [NoWrap, List.all_eq_true, Option.all_eq_true])

instance noWrapsDecidable : (es : List JournalEntry) → (c : Core) → Decidable (NoWraps cfg dg es c)
  | [], _ => isTrue trivial
  | e :: es, c =>
    match h : apply cfg c dg e with
    | .ok (c', _) =>
      have := noWrapsDecidable es c'
      decidable_of_iff (NoWrap c e ∧ NoWraps cfg dg es c') (by simp [NoWraps, h])
    | .error _ => decidable_of_iff (NoWrap c e) (by simp [NoWraps, h])

variable {r r' : History} {es es' : List JournalEntry}

theorem History.step_ok (h : History.step cfg dg r e = .ok r') :
    ∃ fx, apply cfg r.core dg e = .ok (r'.core, fx) ∧
      r'.dispatches = r.dispatches ++ fx.dispatched.map fun id => (id, r'.core.net.generationOf id) := by
  unfold History.step at h
  simp only [bind_ok, pure_ok] at h
  obtain ⟨⟨c, fx⟩, happ, rfl⟩ := h
  refine ⟨fx, happ, ?_⟩
  simp [Net.generationOf, net, Option.map_map, Function.comp_def, TaskEntry.status]

theorem History.run_cons (h : History.run cfg dg (e :: es) r = .ok r') :
    ∃ r₁, History.step cfg dg r e = .ok r₁ ∧ History.run cfg dg es r₁ = .ok r' := by
  simpa only [History.run, List.foldlM_cons, bind_ok] using h

theorem NoWraps.right (hno : NoWraps cfg dg (es ++ es') r.core) (h : History.run cfg dg es r = .ok r') :
    NoWraps cfg dg es' r'.core := by
  induction es generalizing r with
  | nil =>
    obtain rfl := Except.ok.inj h
    exact hno
  | cons e es ih =>
    obtain ⟨r₁, hstep, hrun⟩ := History.run_cons h
    obtain ⟨fx, happ, -⟩ := History.step_ok hstep
    exact ih (hno.2 _ _ happ) hrun

theorem NoWraps.left (hno : NoWraps cfg dg (es ++ es') c) : NoWraps cfg dg es c := by
  induction es generalizing c with
  | nil => trivial
  | cons e es ih => exact ⟨hno.1, fun c' fx happ => ih (hno.2 c' fx happ)⟩

/-- A history is in order: the core is well-formed and past its dispatches. -/
def History.InOrder (r : History) : Prop := r.core.Good ∧ r.core.net.Past r.dispatches

/-- **One event without a wrap**: generations do not decrease, and the dispatches repeat none. -/
theorem History.step_inOrder (hr : r.InOrder) (hno : NoWrap r.core e) (h : History.step cfg dg r e = .ok r') :
    r'.InOrder ∧ ∀ u s, r.core.net.status u = some s → ∃ s', r'.core.net.status u = some s' ∧
      s.generation ≤ s'.generation := by
  obtain ⟨fx, happ, hdisp⟩ := History.step_ok h
  obtain ⟨n, hprog, hsteps⟩ := apply_kept Net.progress_kept hr.1 hno happ
  obtain ⟨hpast, hgen⟩ := (hr.2.progress hprog).dispatches hsteps
  refine ⟨⟨(apply_spec hr.1 happ).1, hdisp ▸ hpast⟩, fun u s hu => ?_⟩
  obtain ⟨s₁, h₁, hp⟩ := hprog u s hu
  obtain ⟨s', h'⟩ := hsteps.kept h₁
  have hg := hgen u
  simp only [Net.generationOf, h₁, h', Option.map_some, Option.getD_some] at hg
  exact ⟨s', h', hg ▸ hp.le⟩

theorem History.run_inOrder (hr : r.InOrder) (hno : NoWraps cfg dg es r.core) (h : History.run cfg dg es r = .ok r') :
    r'.InOrder ∧ ∀ u s, r.core.net.status u = some s → ∃ s', r'.core.net.status u = some s' ∧
      s.generation ≤ s'.generation := by
  induction es generalizing r with
  | nil =>
    obtain rfl := Except.ok.inj h
    exact ⟨hr, fun u s hu => ⟨s, hu, UInt64.le_refl _⟩⟩
  | cons e es ih =>
    obtain ⟨r₁, hstep, hrun⟩ := History.run_cons h
    obtain ⟨hr₁, hgrow₁⟩ := History.step_inOrder hr hno.1 hstep
    obtain ⟨fx, happ, -⟩ := History.step_ok hstep
    obtain ⟨hr', hgrow⟩ := ih hr₁ (hno.2 _ _ happ) hrun
    refine ⟨hr', fun u s hu => ?_⟩
    obtain ⟨s₁, h₁, hle₁⟩ := hgrow₁ u s hu
    obtain ⟨s', h', hle'⟩ := hgrow u s₁ h₁
    exact ⟨s', h', UInt64.le_trans hle₁ hle'⟩

theorem inOrder_empty : History.InOrder {} := ⟨good_empty, Net.past_nil⟩

/-- **Generations grow.** In a run in which no event adds one to the last generation: from any point of it on no
generation decreases, no task was dispatched twice at one generation, and an event that adds a task adds it at
generation 1. -/
theorem generations_grow (cfg : ProvisionalConfig) (dg : EventKind → String) (es es' : List JournalEntry)
    (r r' : History) (hno : NoWraps cfg dg (es ++ es') {}) (h : History.run cfg dg es {} = .ok r)
    (h' : History.run cfg dg es' r = .ok r') :
    (∀ (id : String) (t : TaskEntry), r.core.tasks[id]? = some t →
      ∃ t' : TaskEntry, r'.core.tasks[id]? = some t' ∧ t.generation ≤ t'.generation) ∧
    r'.dispatches.Nodup ∧
    ∀ (e : JournalEntry) (c : Core) (fx : Effects) (id : String) (t : TaskEntry),
      apply cfg r'.core dg e = .ok (c, fx) → r'.core.tasks[id]? = none → c.tasks[id]? = some t → t.generation = 1 := by
  obtain ⟨hr, -⟩ := History.run_inOrder inOrder_empty hno.left h
  obtain ⟨hr', hgrow⟩ := History.run_inOrder hr (NoWraps.right hno h) h'
  refine ⟨fun id t ht => ?_, hr'.2.nodup, fun e c fx id t happ hnone ht => apply_new hr'.1 happ hnone ht⟩
  obtain ⟨s', hs', hle⟩ := hgrow id t.status (net_status_of ht)
  obtain ⟨t', ht', rfl⟩ := net_status.1 hs'
  exact ⟨t', ht', hle⟩

/-- The producer of `earlyStart` is revoked: both tasks move on, and the producer starts again. -/
def revokedStart : List JournalEntry := [⟨4, "e4", 3, .revoke "p" 1 "stale"⟩]

theorem generations_grow_revokedStart :
    ∃ r r', History.run { enabled := true } (fun _ => "") earlyStart {} = .ok r ∧
      History.run { enabled := true } (fun _ => "") revokedStart r = .ok r' ∧
      r'.dispatches = [("p", 1), ("t", 1), ("p", 2)] ∧ r'.dispatches.Nodup := by
  have heval : ((History.run { enabled := true } (fun _ => "") earlyStart {}).toOption.bind fun r =>
      (History.run { enabled := true } (fun _ => "") revokedStart r).toOption).map (·.dispatches) =
        some [("p", 1), ("t", 1), ("p", 2)] := by decide +kernel
  obtain ⟨r', hr', hval⟩ := Option.map_eq_some_iff.1 heval
  obtain ⟨r, hr, hr'⟩ := Option.bind_eq_some_iff.1 hr'
  have h := toOption_some.1 hr
  have h' := toOption_some.1 hr'
  have hno : NoWraps { enabled := true } (fun _ => "") (earlyStart ++ revokedStart) {} := by decide +kernel
  exact ⟨r, r', h, h', hval, (generations_grow _ _ _ _ r r' hno h h').2.1⟩

/-- A task is taken to the last generation; then it is revoked, and taken to generation 1 again. -/
def toLastGeneration : List JournalEntry :=
  [⟨1, "e1", 0, .registerTask "t" ⟨1, 1⟩ []⟩, ⟨2, "e2", 0, .newGeneration "t" maxGeneration⟩]

def pastLastGeneration : List JournalEntry :=
  [⟨3, "e3", 0, .revoke "t" maxGeneration "stale"⟩, ⟨4, "e4", 0, .newGeneration "t" 1⟩]

/-- **The last generation wraps**: the revocation takes the task from `u64::MAX` to 0, and its first execution is
dispatched a second time. -/
theorem generation_wraps :
    ∃ (r r' : History) (t t' : TaskEntry),
      History.run {} (fun _ => "") toLastGeneration {} = .ok r ∧
      History.run {} (fun _ => "") pastLastGeneration r = .ok r' ∧
      r.core.tasks["t"]? = some t ∧ r'.core.tasks["t"]? = some t' ∧ t'.generation < t.generation ∧
      ¬ r'.dispatches.Nodup := by
  have heval : ((History.run {} (fun _ => "") toLastGeneration {}).toOption.bind fun r =>
      (History.run {} (fun _ => "") pastLastGeneration r).toOption.map fun r' =>
        (r.core.tasks["t"]?.map (·.generation), r'.core.tasks["t"]?.map (·.generation), r'.dispatches)) =
      some (some maxGeneration, some 1, [("t", 1), ("t", maxGeneration), ("t", 0), ("t", 1)]) := by decide +kernel
  obtain ⟨r, hr, heval⟩ := Option.bind_eq_some_iff.1 heval
  obtain ⟨r', hr', hval⟩ := Option.map_eq_some_iff.1 heval
  simp only [Prod.mk.injEq, Option.map_eq_some_iff] at hval
  obtain ⟨⟨t, ht, hg⟩, ⟨t', ht', hg'⟩, hd⟩ := hval
  refine ⟨r, r', t, t', toOption_some.1 hr, toOption_some.1 hr', ht, ht', ?_, ?_⟩
  · rw [hg, hg']
    decide
  · rw [hd]
    decide

end Core

end SovereignCore.Harness
