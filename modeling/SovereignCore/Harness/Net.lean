import SovereignCore.Harness.State

/-!
# The dependency protocol

What the scheduler is for, apart from queues, permits and clocks: a net of tasks with versions and proof claims, in
which an upstream change must not leave a consumer behind. A `Net` has the dependency relation and, for each task,
its `Status`. A `Step` is one protocol action; a change of a task's claims comes together with the `Sweep` of
everything below it.

* `Below` : what an upstream change of a task reaches, not through tasks whose commit ended;
* `Sweep` : every task below the root falls back to an idle state, nothing else changes;
* `Sound` : consumers are bound to what their producers offer now, and no commit runs below another;
* `Step.sound` : every action keeps it;
* `Step.frozen` : a running commit and its inputs change by its own outcome only.
-/

namespace SovereignCore.Harness

open Std Relation

/-! ## Statuses -/

/-- What the protocol sees of a task. -/
structure Status where
  state : TaskState
  generation : UInt64
  interface : Option ProofClaim
  completion : Option ProofClaim
  bindings : ExtTreeMap String Binding
  commit : Option CommitInputs

namespace Status

def finalReady (s : Status) : Bool := s.state.isFinal && s.completion.isSome

def interfaceReady (s : Status) : Bool := s.state.isActive && s.interface.isSome

def ready (enabled : Bool) (s : Status) : Bool := s.finalReady || (enabled && s.interfaceReady)

def slot (s : Status) : BindingLevel → Option ProofClaim
  | .interface => s.interface
  | .final => s.completion

def setSlot (s : Status) (level : BindingLevel) (claim : ProofClaim) : Status :=
  match level with
  | .interface => { s with interface := some claim }
  | .final => { s with completion := some claim }

def bindingOf (s : Status) : Option Binding :=
  if s.finalReady then s.completion.map fun claim => ⟨s.generation, .final, claim⟩
  else s.interface.map fun claim => ⟨s.generation, .interface, claim⟩

/-- Back to `blocked` at generation `g`, with no claims and no bindings. -/
def reset (s : Status) (g : UInt64) : Status :=
  { s with state := .blocked, generation := g, interface := none, completion := none, bindings := ∅ }

def abort (s : Status) : Status :=
  { s with state := .aborted, interface := none, completion := none, bindings := ∅ }

def Resting (s : Status) : Prop := s.state = .blocked ∨ s.state = .aborted

def Engaged (s : Status) : Prop := s.state.isActive = true ∨ s.state = .committing

/-- A consumer at `s` is bound to what producer `p` at `ps` offers now. -/
def Bound (s : Status) (p : String) (ps : Status) : Prop :=
  ∃ b, s.bindings[p]? = some b ∧ b.generation = ps.generation ∧ ps.slot b.level = some b.claim

/-- What the protocol promises about a consumer at `s` and its producer `p` at `ps`. -/
structure Owes (enabled : Bool) (s : Status) (p : String) (ps : Status) : Prop where
  bound : s.Engaged → s.Bound p ps
  final : s.state = .committable ∨ s.state = .committing → ps.finalReady = true
  plain : enabled = false → s.state.isActive = true → ps.finalReady = true

variable {enabled : Bool} {s s' ps ps' : Status} {p : String}

theorem Resting.owes (h : s.Resting) : Owes enabled s p ps := by
  rcases h with h | h
  · constructor <;> simp [Engaged, h, TaskState.isActive]
  · constructor <;> simp [Engaged, h, TaskState.isActive]

theorem ended_owes (h : s.state.isCommitTerminal = true) : Owes enabled s p ps := by
  cases hs : s.state <;> simp [hs, TaskState.isCommitTerminal] at h
  · constructor <;> simp [Engaged, hs, TaskState.isActive]
  · constructor <;> simp [Engaged, hs, TaskState.isActive]

/-- The producer still offers all it offered. -/
structure Keeps (ps ps' : Status) : Prop where
  generation : ps'.generation = ps.generation
  slots : ∀ level claim, ps.slot level = some claim → ps'.slot level = some claim
  final : ps.finalReady = true → ps'.finalReady = true

theorem Owes.keeps (h : Owes enabled s p ps) (hk : Keeps ps ps') : Owes enabled s p ps' where
  bound he := by
    obtain ⟨b, hb, hg, hc⟩ := h.bound he
    exact ⟨b, hb, hg.trans hk.generation.symm, hk.slots _ _ hc⟩
  final hs := hk.final (h.final hs)
  plain he hs := hk.final (h.plain he hs)

theorem owes_of_not_engaged (h : ¬ s.Engaged) : Owes enabled s p ps where
  bound he := (h he).elim
  final hs := by
    rcases hs with hs | hs
    · exact (h (Or.inl (by simp [hs, TaskState.isActive]))).elim
    · exact (h (Or.inr hs)).elim
  plain _ hs := (h (Or.inl hs)).elim

/-- What a consumer is owed depends on its state and bindings only. -/
theorem Owes.congr (h : Owes enabled s p ps) (hst : s'.state = s.state) (hb : s'.bindings = s.bindings) :
    Owes enabled s' p ps where
  bound he := by
    obtain ⟨b, h1, h2⟩ := h.bound (by simpa [Engaged, hst] using he)
    exact ⟨b, by rw [hb]; exact h1, h2⟩
  final hs := h.final (by simpa [hst] using hs)
  plain he hs := h.plain he (by simpa [hst] using hs)

/-- A producer without claims has no consumer that is owed anything. -/
theorem Owes.not_engaged (h : Owes enabled s p ps) (hcl : ps.interface = none ∧ ps.completion = none) :
    ¬ s.Engaged := by
  intro he
  obtain ⟨hi, hc⟩ := hcl
  obtain ⟨b, -, -, hb⟩ := h.bound he
  cases hl : b.level with
  | interface => rw [hl, slot, hi] at hb; simp at hb
  | final => rw [hl, slot, hc] at hb; simp at hb

theorem keeps_setSlot {level : BindingLevel} {claim : ProofClaim}
    (h : s.slot level = none ∨ s.slot level = some claim) : Keeps s (s.setSlot level claim) := by
  cases level with
  | interface =>
    refine ⟨rfl, fun l c hc => ?_, fun hf => hf⟩
    cases l with
    | interface =>
      simp only [slot, setSlot] at h hc ⊢
      rcases h with h | h
      · simp [h] at hc
      · rw [← h, hc]
    | final => exact hc
  | final =>
    refine ⟨rfl, fun l c hc => ?_, fun hf => ?_⟩
    · cases l with
      | interface => exact hc
      | final =>
        simp only [slot, setSlot] at h hc ⊢
        rcases h with h | h
        · simp [h] at hc
        · rw [← h, hc]
    · simp only [finalReady, setSlot, Bool.and_eq_true] at hf ⊢
      exact ⟨hf.1, rfl⟩

theorem setSlot_state (s : Status) (level : BindingLevel) (claim : ProofClaim) :
    (s.setSlot level claim).state = s.state ∧ (s.setSlot level claim).bindings = s.bindings ∧
      (s.setSlot level claim).generation = s.generation ∧ (s.setSlot level claim).commit = s.commit := by
  cases level with
  | interface => exact ⟨rfl, rfl, rfl, rfl⟩
  | final => exact ⟨rfl, rfl, rfl, rfl⟩

/-- A ready producer offers what a consumer dispatched now is bound to. -/
theorem bound_of_ready {b : ExtTreeMap String Binding} (hr : ps.ready enabled = true)
    (hb : b[p]? = ps.bindingOf) :
    ∃ x : Binding, b[p]? = some x ∧ x.generation = ps.generation ∧ ps.slot x.level = some x.claim := by
  rw [hb]
  unfold bindingOf
  by_cases hf : ps.finalReady = true
  · have hsome : ps.completion.isSome = true := by simp only [finalReady, Bool.and_eq_true] at hf; exact hf.2
    obtain ⟨c, hc⟩ := Option.isSome_iff_exists.1 hsome
    rw [if_pos hf, hc]
    exact ⟨_, rfl, rfl, hc⟩
  · have hsome : ps.interface.isSome = true := by
      simp only [ready, interfaceReady, Bool.or_eq_true, Bool.and_eq_true] at hr
      tauto
    obtain ⟨c, hc⟩ := Option.isSome_iff_exists.1 hsome
    rw [if_neg hf, hc]
    exact ⟨_, rfl, rfl, hc⟩

theorem not_resting_of_active (h : s.state.isActive = true) : ¬ s.Resting := by
  rintro (hr | hr) <;> simp [hr, TaskState.isActive] at h

theorem not_ended_of_active (h : s.state.isActive = true) : s.state.isCommitTerminal = false := by
  cases hs : s.state <;> simp [hs, TaskState.isActive, TaskState.isCommitTerminal] at h ⊢

end Status

/-! ## Nets -/

structure Net where
  Edge : String → String → Prop
  status : String → Option Status

namespace Net

def set (n : Net) (t : String) (s : Status) : Net := { n with status := Function.update n.status t (some s) }

/-- The commit of `t` ended: no upstream change reaches it or, through it, its consumers. -/
def Ended (n : Net) (t : String) : Prop := ∃ s, n.status t = some s ∧ s.state.isCommitTerminal = true

def Committing (n : Net) (t : String) : Prop := ∃ s, n.status t = some s ∧ s.state = .committing

def Onward (n : Net) (p t : String) : Prop := n.Edge p t ∧ ¬ n.Ended t

def Below (n : Net) : String → String → Prop := TransGen n.Onward

variable {n n' n₁ : Net} {t u p root : String} {s s' : Status}

@[simp] theorem set_status : (n.set t s).status u = if u = t then some s else n.status u := by
  show Function.update n.status t (some s) u = _
  rw [Function.update_apply]

@[simp] theorem set_edge : (n.set t s).Edge = n.Edge := rfl

theorem Below.mono (h : n.Below t u) (he : ∀ p t, n.Edge p t → n'.Edge p t) (hend : ∀ t, n'.Ended t → n.Ended t) :
    n'.Below t u :=
  TransGen.mono (fun p t hpt => ⟨he p t hpt.1, fun h => hpt.2 (hend t h)⟩) t u h

theorem Below.edges (h : n.Below t u) : TransGen n.Edge t u := TransGen.mono (fun _ _ hpt => hpt.1) t u h

theorem not_below_self (h : Search.Acyclic n.Edge) : ¬ n.Below t t := fun hb => h t hb.edges

theorem not_ended_of_committing (h : n.Committing t) : ¬ n.Ended t := by
  rintro ⟨s', hs', he⟩
  obtain ⟨s, hs, hc⟩ := h
  rw [hs] at hs'
  obtain rfl := Option.some.inj hs'
  simp [hc, TaskState.isCommitTerminal] at he

theorem Below.not_ended (h : n.Below t u) : ¬ n.Ended u := by
  obtain ⟨x, -, hx⟩ := TransGen.tail'_iff.1 h
  exact hx.2

theorem ended_set (hs : n.status t = some s) (he : s.state.isCommitTerminal = true → s'.state.isCommitTerminal = true)
    (h : n.Ended u) : (n.set t s').Ended u := by
  obtain ⟨su, hsu, hend⟩ := h
  by_cases hu : u = t
  · subst hu
    rw [hs] at hsu
    obtain rfl := Option.some.inj hsu
    exact ⟨s', by simp, he hend⟩
  · exact ⟨su, by simpa [hu] using hsu, hend⟩

/-! ## Cascades -/

/-- What a cascade does to one task in its reach: a resting task stays or is given up, an active one is given up or
waits again at the next generation. A running or ended commit is out of its reach. -/
inductive Falls : Status → Status → Prop
  | stays {s : Status} (h : s.Resting) : Falls s s
  | resets {s : Status} (h : s.state.isActive = true) : Falls s (s.reset (s.generation + 1))
  | aborts {s : Status} (h : s.state.isActive = true ∨ s.state = .blocked) : Falls s s.abort

theorem Falls.resting (h : Falls s s') : s'.Resting := by
  cases h with
  | stays h => exact h
  | resets _ => exact Or.inl rfl
  | aborts _ => exact Or.inr rfl

theorem Falls.not_committing (h : Falls s s') : s.state ≠ .committing := by
  intro hc
  cases h with
  | stays h => rcases h with h | h <;> simp [hc] at h
  | resets h => simp [hc, TaskState.isActive] at h
  | aborts h => rcases h with h | h <;> simp [hc, TaskState.isActive] at h

theorem Falls.not_ended (h : Falls s s') : s.state.isCommitTerminal = false ∧ s'.state.isCommitTerminal = false := by
  constructor
  · cases h with
    | stays h => rcases h with h | h <;> simp [h, TaskState.isCommitTerminal]
    | resets h => cases hs : s.state <;> simp [hs, TaskState.isActive, TaskState.isCommitTerminal] at h ⊢
    | aborts h =>
      rcases h with h | h
      · cases hs : s.state <;> simp [hs, TaskState.isActive, TaskState.isCommitTerminal] at h ⊢
      · simp [h, TaskState.isCommitTerminal]
  · rcases h.resting with h | h <;> simp [h, TaskState.isCommitTerminal]

/-- Everything below `root` falls, nothing else changes. -/
structure Sweep (n : Net) (root : String) (n' : Net) : Prop where
  edge : n'.Edge = n.Edge
  falls : ∀ t, n.Below root t → ∃ s s', n.status t = some s ∧ n'.status t = some s' ∧ Falls s s'
  same : ∀ t, ¬ n.Below root t → n'.status t = n.status t

theorem Sweep.ended (h : Sweep n root n') : n'.Ended t ↔ n.Ended t := by
  by_cases hb : n.Below root t
  · obtain ⟨s, s', hs, hs', hf⟩ := h.falls t hb
    simp [Ended, hs, hs', hf.not_ended.1, hf.not_ended.2]
  · simp [Ended, h.same t hb]

theorem Sweep.below (h : Sweep n root n') : n'.Below t u ↔ n.Below t u := by
  have : n'.Onward = n.Onward := by
    funext x y
    simp only [Onward, h.edge, h.ended]
  unfold Below
  rw [this]

/-! ## Actions -/

/-- What an action is and the tasks it is about. -/
inductive Act where
  | register (task : String)
  | depend (producer consumer : String)
  | publish (task : String)
  | republish (task : String)
  | renew (task : String)
  | revoke (task : String)
  | abort (task : String)
  | cancel (task : String)
  | retry (task : String)
  | work (task : String)
  | finalize (task : String)
  | beginCommit (task : String)
  | endCommit (task : String) (done : Bool)
  | dispatch (task : String)

/-- One action of the protocol. -/
inductive Step (enabled : Bool) : Net → Act → Net → Prop
  | register {n : Net} {t : String} {s : Status} {E : String → String → Prop}
      (hnew : n.status t = none) (hs : s.state = .blocked) (hg : s.generation = 1) (hi : s.interface = none)
      (hc : s.completion = none)
      (hE : ∀ p u, E p u → n.Edge p u ∨ (u = t ∧ ∃ ps, n.status p = some ps)) (hsub : ∀ p u, n.Edge p u → E p u)
      (hacyclic : Search.Acyclic E) :
      Step enabled n (.register t) { n.set t s with Edge := E }
  | depend {n : Net} {p t : String} {s : Status} {E : String → String → Prop}
      (hs : n.status t = some s) (hb : s.state = .blocked) (hp : ∃ ps, n.status p = some ps)
      (hE : ∀ q u, E q u ↔ n.Edge q u ∨ (q = p ∧ u = t)) (hacyclic : Search.Acyclic E) :
      Step enabled n (.depend p t) { n with Edge := E }
  | claim {n : Net} {t : String} {s : Status} {level : BindingLevel} {claim : ProofClaim}
      (hs : n.status t = some s) (ha : s.state.isActive = true)
      (hslot : s.slot level = none ∨ s.slot level = some claim) :
      Step enabled n (.publish t) (n.set t (s.setSlot level claim))
  | reclaim {n n' : Net} {t : String} {s : Status} {level : BindingLevel} {claim : ProofClaim}
      (hs : n.status t = some s) (ha : s.state.isActive = true)
      (hsweep : Sweep (n.set t (s.setSlot level claim)) t n') :
      Step enabled n (.republish t) n'
  | renew {n n' : Net} {t : String} {s : Status} {g : UInt64}
      (hs : n.status t = some s) (hst : s.state.isActive = true ∨ s.state = .blocked) (hg : s.generation < g)
      (hsweep : Sweep (n.set t (s.reset g)) t n') :
      Step enabled n (.renew t) n'
  | revoke {n n' : Net} {t : String} {s : Status}
      (hs : n.status t = some s) (hst : s.state.isActive = true)
      (hsweep : Sweep (n.set t (s.reset (s.generation + 1))) t n') :
      Step enabled n (.revoke t) n'
  | abort {n n' : Net} {t : String} {s : Status}
      (hs : n.status t = some s) (hst : s.state.isActive = true ∨ s.state = .blocked)
      (hsweep : Sweep (n.set t s.abort) t n') :
      Step enabled n (.abort t) n'
  | cancel {n n' : Net} {t : String} {s : Status}
      (hs : n.status t = some s) (hst : s.state.isActive = true ∨ s.state = .blocked)
      (hsweep : Sweep (n.set t s.abort) t n')
      (hgen : ∀ u su su', n.status u = some su → n'.status u = some su' →
        su'.generation = su.generation ∧ (su'.state = .blocked → su.state = .blocked)) :
      Step enabled n (.cancel t) n'
  | retry {n : Net} {t : String} {s : Status}
      (hs : n.status t = some s) (hst : s.state = .aborted) :
      Step enabled n (.retry t) (n.set t (s.reset (s.generation + 1)))
  | work {n : Net} {t : String} {s : Status}
      (hs : n.status t = some s) (hst : s.state = .provisional) :
      Step enabled n (.work t) (n.set t { s with state := .awaitingFinalProof })
  | finalize {n : Net} {t : String} {s : Status}
      (hs : n.status t = some s) (hst : s.state = .awaitingFinalProof)
      (hfinal : ∀ p, n.Edge p t → ∃ ps, n.status p = some ps ∧ ps.finalReady = true) :
      Step enabled n (.finalize t) (n.set t { s with state := .committable })
  | beginCommit {n : Net} {t : String} {s : Status} {inputs : CommitInputs}
      (hs : n.status t = some s) (hst : s.state = .committable)
      (hbelow : ∀ u, n.Committing u → ¬ n.Below t u) (habove : ∀ u, n.Committing u → ¬ n.Below u t) :
      Step enabled n (.beginCommit t) (n.set t { s with state := .committing, commit := some inputs })
  | committed {n : Net} {t : String} {s : Status}
      (hs : n.status t = some s) (hst : s.state = .committing) :
      Step enabled n (.endCommit t true) (n.set t { s with state := .committed })
  | failed {n n' : Net} {t : String} {s : Status}
      (hs : n.status t = some s) (hst : s.state = .committing)
      (hsweep : Sweep (n.set t s.abort) t n') :
      Step enabled n (.endCommit t false) n'
  | uncertain {n n' : Net} {t : String} {s : Status}
      (hs : n.status t = some s) (hst : s.state = .committing) (hsweep : Sweep n t n') :
      Step enabled n (.endCommit t false) (n'.set t { s with state := .commitUncertain })
  | dispatch {n : Net} {t : String} {s : Status} {bindings : ExtTreeMap String Binding}
      (hs : n.status t = some s) (hst : s.state = .blocked)
      (hready : ∀ p, n.Edge p t → ∃ ps, n.status p = some ps ∧ ps.ready enabled = true ∧
        bindings[p]? = ps.bindingOf) :
      Step enabled n (.dispatch t) (n.set t { s with state := .provisional, bindings })

/-! ## The invariant -/

structure Sound (enabled : Bool) (n : Net) : Prop where
  known : ∀ p t, n.Edge p t → (∃ s, n.status p = some s) ∧ ∃ s, n.status t = some s
  acyclic : Search.Acyclic n.Edge
  clean : ∀ t s, n.status t = some s → s.Resting → s.interface = none ∧ s.completion = none
  owes : ∀ p t ps s, n.Edge p t → n.status p = some ps → n.status t = some s → s.Owes enabled p ps
  apart : ∀ t u, n.Committing t → n.Committing u → ¬ n.Below t u

variable {enabled : Bool} {a : Act}

theorem sound_empty : Sound enabled ⟨fun _ _ => False, fun _ => none⟩ where
  known _ _ h := h.elim
  acyclic x h := by
    obtain ⟨_, h, -⟩ := TransGen.head'_iff.1 h
    exact h
  clean _ _ h := by simp at h
  owes _ _ _ _ h := h.elim
  apart _ _ h := by obtain ⟨s, hs, -⟩ := h; simp at hs

theorem Sound.final_above (h : Sound enabled n) (hu : n.Committing u) (hb : n.Below t u) :
    ∃ s, n.status t = some s ∧ s.finalReady = true := by
  -- from the commit upwards: a producer of a final task whose own commit did not end is committable or committing
  have key : ∀ x, ReflTransGen n.Onward x u → ¬ n.Ended x →
      ∃ s, n.status x = some s ∧ (s.state = .committable ∨ s.state = .committing) := by
    intro x hx
    induction hx using ReflTransGen.head_induction_on with
    | refl =>
      intro _
      obtain ⟨s, hs, hc⟩ := hu
      exact ⟨s, hs, Or.inr hc⟩
    | head hxy _ ih =>
      intro hx
      obtain ⟨sy, hsy, hst⟩ := ih hxy.2
      obtain ⟨⟨sx, hsx⟩, -⟩ := h.known _ _ hxy.1
      have hfin := (h.owes _ _ _ _ hxy.1 hsx hsy).final hst
      refine ⟨sx, hsx, ?_⟩
      have hnt : ¬ sx.state.isCommitTerminal = true := fun he => hx ⟨sx, hsx, he⟩
      cases hs : sx.state <;> simp_all [Status.finalReady, TaskState.isFinal, TaskState.isCommitTerminal]
  obtain ⟨x, htx, hxu⟩ := TransGen.head'_iff.1 hb
  obtain ⟨sx, hsx, hst⟩ := key x hxu htx.2
  obtain ⟨⟨st, hst'⟩, -⟩ := h.known _ _ htx.1
  exact ⟨st, hst', (h.owes _ _ _ _ htx.1 hst' hsx).final hst⟩

theorem Sound.set (h : Sound enabled n) (hs : n.status t = some s)
    (hk : ∀ u su, n.Edge t u → n.status u = some su → su.Owes enabled t s → su.Owes enabled t s')
    (hclean : s'.Resting → s'.interface = none ∧ s'.completion = none)
    (howes : ∀ p ps, n.Edge p t → n.status p = some ps → s'.Owes enabled p ps)
    (hend : s.state.isCommitTerminal = true → s'.state.isCommitTerminal = true)
    (hcom : s'.state = .committing → (∀ u, n.Committing u → ¬ n.Below t u) ∧ ∀ u, n.Committing u → ¬ n.Below u t) :
    Sound enabled (n.set t s') where
  known p u hpu := by
    obtain ⟨hp, hu⟩ := h.known p u hpu
    simp only [set_status]
    constructor
    · by_cases he : p = t <;> simp [he, hp]
    · by_cases he : u = t <;> simp [he, hu]
  acyclic := h.acyclic
  clean u su hu := by
    rw [set_status] at hu
    by_cases he : u = t
    · simp only [he, if_true, Option.some.injEq] at hu
      subst hu
      exact hclean
    · simp only [he, if_false] at hu
      exact h.clean u su hu
  owes p u ps su hpu hp hu := by
    have hne : p = t → u ≠ t := by
      rintro rfl rfl
      exact h.acyclic _ (TransGen.single hpu)
    rw [set_status] at hp hu
    by_cases hpt : p = t
    · simp only [hpt, if_true, Option.some.injEq] at hp
      simp only [hne hpt, if_false] at hu
      subst hp hpt
      exact hk u su hpu hu (h.owes _ _ _ _ hpu hs hu)
    · simp only [hpt, if_false] at hp
      by_cases hut : u = t
      · simp only [hut, if_true, Option.some.injEq] at hu
        subst hu hut
        exact howes p ps hpu hp
      · simp only [hut, if_false] at hu
        exact h.owes p u ps su hpu hp hu
  apart x y hx hy hxy := by
    have hxy' : n.Below x y := hxy.mono (fun _ _ h => h) fun v hv => ended_set hs hend hv
    have hback : ∀ v, (n.set t s').Committing v → v ≠ t → n.Committing v := by
      rintro v ⟨sv, hv, hc⟩ hne
      exact ⟨sv, by simpa [hne] using hv, hc⟩
    have hat : ∀ v, (n.set t s').Committing v → v = t → s'.state = .committing := by
      rintro v ⟨sv, hv, hc⟩ rfl
      simp only [set_status, if_true, Option.some.injEq] at hv
      rwa [hv]
    by_cases hxt : x = t
    · by_cases hyt : y = t
      · exact not_below_self h.acyclic (hxt ▸ hyt ▸ hxy')
      · exact (hcom (hat x hx hxt)).1 y (hback y hy hyt) (hxt ▸ hxy')
    · by_cases hyt : y = t
      · exact (hcom (hat y hy hyt)).2 x (hback x hx hxt) (hyt ▸ hxy')
      · exact h.apart x y (hback x hx hxt) (hback y hy hyt) hxy'

theorem Sound.sweep (h : Sound enabled n) (hs : n.status t = some s)
    (hsweep : Sweep (n.set t s') t n')
    (hclean : s'.Resting → s'.interface = none ∧ s'.completion = none)
    (howes : ∀ p ps, n.Edge p t → n.status p = some ps → s'.Owes enabled p ps)
    (hend : s.state.isCommitTerminal = true → s'.state.isCommitTerminal = true)
    (hcom : s'.state ≠ .committing) :
    Sound enabled n' := by
  have hedge : n'.Edge = n.Edge := hsweep.edge
  have hself : ¬ (n.set t s').Below t t := not_below_self (n := n.set t s') h.acyclic
  have ht : n'.status t = some s' := by rw [hsweep.same t hself]; simp
  -- a task that is neither the root nor below it is as it was
  have hout : ∀ u, u ≠ t → ¬ (n.set t s').Below t u → n'.status u = n.status u := by
    intro u hu hb
    rw [hsweep.same u hb]
    simp [hu]
  have hin : ∀ u, (n.set t s').Below t u → ∃ su su', n.status u = some su ∧ n'.status u = some su' ∧ Falls su su' := by
    intro u hb
    obtain ⟨su, su', h1, h2, h3⟩ := hsweep.falls u hb
    have hut : u ≠ t := fun he => hself (he ▸ hb)
    exact ⟨su, su', by simpa [hut] using h1, h2, h3⟩
  have hfallclean : ∀ su su', Falls su su' → (su.Resting → su.interface = none ∧ su.completion = none) →
      su'.interface = none ∧ su'.completion = none := by
    intro su su' hf hc
    cases hf with
    | stays hr => exact hc hr
    | resets _ => exact ⟨rfl, rfl⟩
    | aborts _ => exact ⟨rfl, rfl⟩
  refine ⟨fun p u hpu => ?_, hedge ▸ h.acyclic, fun u su hu hr => ?_, fun p u ps su hpu hp hu => ?_,
    fun x y hx hy hxy => ?_⟩
  · have hex : ∀ v, (∃ sv, n.status v = some sv) → ∃ sv, n'.status v = some sv := by
      rintro v ⟨sv, hv⟩
      by_cases hvt : v = t
      · exact ⟨s', hvt ▸ ht⟩
      · by_cases hb : (n.set t s').Below t v
        · obtain ⟨_, sv', _, hv', _⟩ := hin v hb
          exact ⟨sv', hv'⟩
        · exact ⟨sv, by rw [hout v hvt hb, hv]⟩
    obtain ⟨h1, h2⟩ := h.known p u (hedge ▸ hpu)
    exact ⟨hex p h1, hex u h2⟩
  · by_cases hut : u = t
    · subst hut
      rw [ht] at hu
      obtain rfl := Option.some.inj hu
      exact hclean hr
    · by_cases hb : (n.set t s').Below t u
      · obtain ⟨su0, su', h1, h2, h3⟩ := hin u hb
        rw [h2] at hu
        obtain rfl := Option.some.inj hu
        exact hfallclean _ _ h3 (h.clean u su0 h1)
      · rw [hout u hut hb] at hu
        exact h.clean u su hu hr
  · -- an untouched consumer has only untouched producers: what it stands on would have been swept with it
    have hpu' : n.Edge p u := hedge ▸ hpu
    by_cases hb : (n.set t s').Below t u
    · obtain ⟨_, su', _, h2, h3⟩ := hin u hb
      rw [h2] at hu
      obtain rfl := Option.some.inj hu
      exact h3.resting.owes
    · by_cases hue : n'.Ended u
      · obtain ⟨su', hsu', hend'⟩ := hue
        rw [hu] at hsu'
        obtain rfl := Option.some.inj hsu'
        exact Status.ended_owes hend'
      · have hne : ¬ (n.set t s').Ended u := fun he => hue ((hsweep.ended).2 he)
        have hpt : p ≠ t := by
          rintro rfl
          exact hb (TransGen.single ⟨hpu', hne⟩)
        have hpb : ¬ (n.set t s').Below t p := fun hp => hb (TransGen.tail hp ⟨hpu', hne⟩)
        rw [hout p hpt hpb] at hp
        by_cases hut : u = t
        · subst hut
          rw [ht] at hu
          obtain rfl := Option.some.inj hu
          exact howes p ps hpu' hp
        · rw [hout u hut hb] at hu
          exact h.owes p u ps su hpu' hp hu
  · have hxy' : n.Below x y :=
      (hsweep.below.1 hxy).mono (fun _ _ h => h) fun v hv => ended_set hs hend hv
    have hback : ∀ v, n'.Committing v → n.Committing v := by
      rintro v ⟨sv, hv, hc⟩
      by_cases hvt : v = t
      · subst hvt
        rw [ht] at hv
        obtain rfl := Option.some.inj hv
        exact absurd hc hcom
      · by_cases hb : (n.set t s').Below t v
        · obtain ⟨_, sv', _, h2, h3⟩ := hin v hb
          rw [h2] at hv
          obtain rfl := Option.some.inj hv
          rcases h3.resting with hr | hr <;> simp [hc] at hr
        · rw [hout v hvt hb] at hv
          exact ⟨sv, hv, hc⟩
    exact h.apart x y (hback x hx) (hback y hy) hxy'

/-- Where the last step of a path goes, when the new task has no way out. -/
theorem below_register {E : String → String → Prop} (hnew : n.status t = none)
    (hknown : ∀ p u, n.Edge p u → ∃ s, n.status p = some s)
    (hE : ∀ p u, E p u → n.Edge p u ∨ (u = t ∧ ∃ ps, n.status p = some ps)) {x v : String}
    (h : Below { n.set t s with Edge := E } x v) : v = t ∨ n.Below x v := by
  have hout : ∀ w, ¬ E t w := by
    intro w hw
    rcases hE t w hw with h | ⟨-, ps, hps⟩
    · obtain ⟨s', hs'⟩ := hknown t w h
      simp [hnew] at hs'
    · simp [hnew] at hps
  have hend : ∀ w, w ≠ t → n.Ended w → Ended { n.set t s with Edge := E } w := by
    rintro w hw ⟨sw, hsw, he⟩
    refine ⟨sw, ?_, he⟩
    show (n.set t s).status w = some sw
    simpa [hw] using hsw
  have hstep : ∀ v w, Onward { n.set t s with Edge := E } v w → w = t ∨ n.Onward v w := by
    intro v w hvw
    by_cases hw : w = t
    · exact Or.inl hw
    · rcases hE v w hvw.1 with h | ⟨h, -⟩
      · exact Or.inr ⟨h, fun he => hvw.2 (hend w hw he)⟩
      · exact absurd h hw
  induction h with
  | single hxv =>
    rcases hstep _ _ hxv with h | h
    · exact Or.inl h
    · exact Or.inr (TransGen.single h)
  | tail _ hvw ih =>
    rcases ih with rfl | ih
    · exact absurd hvw.1 (hout _)
    · rcases hstep _ _ hvw with h | h
      · exact Or.inl h
      · exact Or.inr (ih.tail h)

/-- A path that may use one more edge stays in the old net, or comes out of the new edge's end. -/
theorem below_depend {E : String → String → Prop} (hE : ∀ q u, E q u ↔ n.Edge q u ∨ (q = p ∧ u = t)) {x v : String}
    (h : Below { n with Edge := E } x v) : n.Below x v ∨ ReflTransGen n.Onward t v := by
  have hstep : ∀ v w, Onward { n with Edge := E } v w → w = t ∨ n.Onward v w := by
    intro v w hvw
    rcases (hE v w).1 hvw.1 with h | ⟨-, h⟩
    · exact Or.inr ⟨h, hvw.2⟩
    · exact Or.inl h
  induction h with
  | single hxv =>
    rcases hstep _ _ hxv with rfl | h
    · exact Or.inr ReflTransGen.refl
    · exact Or.inl (TransGen.single h)
  | tail _ hvw ih =>
    rcases hstep _ _ hvw with rfl | h
    · exact Or.inr ReflTransGen.refl
    · rcases ih with ih | ih
      · exact Or.inl (ih.tail h)
      · exact Or.inr (ih.tail h)

/-- Ending the root after the sweep is the same as sweeping below an ended root. -/
theorem Sweep.set (h : Sweep n root n') (hac : Search.Acyclic n.Edge) (hs : n.status root = some s)
    (hne : s.state.isCommitTerminal = false) : Sweep (n.set root s') root (n'.set root s') := by
  have hbelow : ∀ u, (n.set root s').Below root u ↔ n.Below root u := by
    intro u
    have hend : ∀ v, v ≠ root → ((n.set root s').Ended v ↔ n.Ended v) := fun v hv => by simp [Ended, hv]
    constructor
    · intro hb
      refine hb.mono (fun _ _ h => h) fun v hv => ?_
      by_cases hvr : v = root
      · obtain ⟨sv, hsv, he⟩ := hv
        rw [hvr, hs] at hsv
        obtain rfl := Option.some.inj hsv
        simp [hne] at he
      · exact (hend v hvr).2 hv
    · intro hb
      induction hb with
      | @single v hxv =>
        have hv : v ≠ root := by
          rintro rfl
          exact hac _ (TransGen.single hxv.1)
        exact TransGen.single ⟨hxv.1, fun he => hxv.2 ((hend v hv).1 he)⟩
      | @tail v w hb hvw ih =>
        have hw : w ≠ root := by
          rintro rfl
          exact hac _ (TransGen.tail (Below.edges hb) hvw.1)
        exact ih.tail ⟨hvw.1, fun he => hvw.2 ((hend w hw).1 he)⟩
  refine ⟨h.edge, fun u hu => ?_, fun u hu => ?_⟩
  · have hb := (hbelow u).1 hu
    have hur : u ≠ root := fun he => not_below_self hac (he ▸ hb)
    obtain ⟨su, su', h1, h2, h3⟩ := h.falls u hb
    exact ⟨su, su', by simpa [hur] using h1, by simpa [hur] using h2, h3⟩
  · by_cases hur : u = root
    · simp [hur]
    · simp [hur, h.same u fun hb => hu ((hbelow u).2 hb)]

theorem Sound.give_up (h : Sound enabled n) (hs : n.status t = some s)
    (hst : s.state.isActive = true ∨ s.state = .blocked) (hsweep : Sweep (n.set t s.abort) t n') :
    Sound enabled n' := by
  refine h.sweep hs hsweep (fun _ => ⟨rfl, rfl⟩) (fun _ _ _ _ => Status.Resting.owes (Or.inr rfl)) (fun he => ?_)
    (by simp [Status.abort])
  rcases hst with ha | hb
  · simp [Status.not_ended_of_active ha] at he
  · simp [hb, TaskState.isCommitTerminal] at he

theorem Step.sound (hstep : Step enabled n a n') (h : Sound enabled n) : Sound enabled n' := by
  cases hstep with
  | @register t s E hnew hs hg hi hc hE hsub hacyclic =>
    have hrest : s.Resting := Or.inl hs
    refine ⟨fun p u hpu => ?_, hacyclic, fun u su hu hr => ?_, fun p u ps su hpu hp hu => ?_, fun x y hx hy hxy => ?_⟩
    · show (∃ sp, (n.set t s).status p = some sp) ∧ ∃ su, (n.set t s).status u = some su
      simp only [set_status]
      rcases hE p u hpu with hold | ⟨rfl, hp⟩
      · obtain ⟨h1, h2⟩ := h.known p u hold
        exact ⟨by by_cases he : p = t <;> simp [he, h1], by by_cases he : u = t <;> simp [he, h2]⟩
      · exact ⟨by by_cases he : p = u <;> simp [he, hp], by simp⟩
    · have hu' : (n.set t s).status u = some su := hu
      rw [set_status] at hu'
      by_cases he : u = t
      · simp only [he, if_true, Option.some.injEq] at hu'
        subst hu'
        exact ⟨hi, hc⟩
      · simp only [he, if_false] at hu'
        exact h.clean u su hu' hr
    · have hp' : (n.set t s).status p = some ps := hp
      have hu' : (n.set t s).status u = some su := hu
      rw [set_status] at hp' hu'
      by_cases hut : u = t
      · simp only [hut, if_true, Option.some.injEq] at hu'
        subst hu'
        exact hrest.owes
      · simp only [hut, if_false] at hu'
        rcases hE p u hpu with hold | ⟨he, -⟩
        · have hpt : p ≠ t := by
            rintro rfl
            obtain ⟨⟨_, h1⟩, -⟩ := h.known _ _ hold
            simp [hnew] at h1
          simp only [hpt, if_false] at hp'
          exact h.owes p u ps su hold hp' hu'
        · exact absurd he hut
    · have hback : ∀ v, Committing { n.set t s with Edge := E } v → v ≠ t ∧ n.Committing v := by
        rintro v ⟨sv, hv, hcv⟩
        have hv' : (n.set t s).status v = some sv := hv
        rw [set_status] at hv'
        by_cases he : v = t
        · simp only [he, if_true, Option.some.injEq] at hv'
          subst hv'
          simp [hs] at hcv
        · simp only [he, if_false] at hv'
          exact ⟨he, sv, hv', hcv⟩
      rcases below_register hnew (fun p u hpu => (h.known p u hpu).1) hE hxy with he | hb
      · exact (hback y hy).1 he
      · exact h.apart x y (hback x hx).2 (hback y hy).2 hb
  | @depend p t s E hs hb hp hE hacyclic =>
    refine ⟨fun q u hqu => ?_, hacyclic, h.clean, fun q u qs su hqu hq hu => ?_, fun x y hx hy hxy => ?_⟩
    · rcases (hE q u).1 hqu with hold | ⟨rfl, rfl⟩
      · exact h.known q u hold
      · exact ⟨hp, s, hs⟩
    · rcases (hE q u).1 hqu with hold | ⟨rfl, rfl⟩
      · exact h.owes q u qs su hold hq hu
      · have hu' : n.status u = some su := hu
        rw [hs] at hu'
        obtain rfl := Option.some.inj hu'
        exact Status.Resting.owes (Or.inl hb)
    · rcases below_depend hE hxy with hold | hty
      · exact h.apart x y hx hy hold
      · -- the waiting consumer would be above a running commit
        rcases ReflTransGen.cases_head hty with rfl | ⟨w, htw, hwy⟩
        · obtain ⟨s', hs', hc'⟩ := hy
          rw [show s' = s from Option.some.inj (hs'.symm.trans hs), hb] at hc'
          simp at hc'
        · obtain ⟨s', hs', hf⟩ := h.final_above hy (TransGen.head' htw hwy)
          rw [hs] at hs'
          obtain rfl := Option.some.inj hs'
          simp [Status.finalReady, hb, TaskState.isFinal] at hf
  | @claim t s level claim hs ha hslot =>
    obtain ⟨hst, hbd, -, -⟩ := s.setSlot_state level claim
    refine h.set hs (fun u su _ _ ho => ho.keeps (Status.keeps_setSlot hslot)) (fun hr => ?_)
      (fun p ps hpt hp => (h.owes p t ps s hpt hp hs).congr hst hbd) (fun he => by rw [hst]; exact he) (fun hc => ?_)
    · exact absurd hr (Status.not_resting_of_active (by rw [hst]; exact ha))
    · rw [hst] at hc
      simp [hc, TaskState.isActive] at ha
  | @reclaim _ t s level claim hs ha hsweep =>
    obtain ⟨hst, hbd, -, -⟩ := s.setSlot_state level claim
    refine h.sweep hs hsweep (fun hr => ?_)
      (fun p ps hpt hp => (h.owes p t ps s hpt hp hs).congr hst hbd) (fun he => by rw [hst]; exact he) (fun hc => ?_)
    · exact absurd hr (Status.not_resting_of_active (by rw [hst]; exact ha))
    · rw [hst] at hc
      simp [hc, TaskState.isActive] at ha
  | @renew _ t s g hs hst hg hsweep =>
    refine h.sweep hs hsweep (fun _ => ⟨rfl, rfl⟩) (fun _ _ _ _ => Status.Resting.owes (Or.inl rfl)) (fun he => ?_)
      (by simp [Status.reset])
    rcases hst with ha | hb
    · simp [Status.not_ended_of_active ha] at he
    · simp [hb, TaskState.isCommitTerminal] at he
  | @revoke _ t s hs hst hsweep =>
    refine h.sweep hs hsweep (fun _ => ⟨rfl, rfl⟩) (fun _ _ _ _ => Status.Resting.owes (Or.inl rfl)) (fun he => ?_)
      (by simp [Status.reset])
    simp [Status.not_ended_of_active hst] at he
  | abort hs hst hsweep => exact h.give_up hs hst hsweep
  | cancel hs hst hsweep _ => exact h.give_up hs hst hsweep
  | @retry t s hs hst =>
    have hcl := h.clean t s hs (Or.inr hst)
    exact h.set hs (fun u su _ _ ho => Status.owes_of_not_engaged (ho.not_engaged hcl)) (fun _ => ⟨rfl, rfl⟩)
      (fun _ _ _ _ => Status.Resting.owes (Or.inl rfl)) (fun he => by simp [hst, TaskState.isCommitTerminal] at he)
      (fun hc => by simp [Status.reset] at hc)
  | @work t s hs hst =>
    refine h.set hs (fun u su _ _ ho => ho.keeps ⟨rfl, fun _ _ hc => hc, fun hf => ?_⟩) (fun hr => ?_)
      (fun p ps hpt hp => ?_) (fun he => by simp [hst, TaskState.isCommitTerminal] at he) (fun hc => by simp at hc)
    · simp [Status.finalReady, hst, TaskState.isFinal] at hf
    · simp [Status.Resting] at hr
    · have ho := h.owes p t ps s hpt hp hs
      have ha : s.state.isActive = true := by simp [hst, TaskState.isActive]
      exact ⟨fun _ => ho.bound (Or.inl ha), fun hf => by simp at hf, fun he _ => ho.plain he ha⟩
  | @finalize t s hs hst hfinal =>
    refine h.set hs (fun u su _ _ ho => ho.keeps ⟨rfl, fun _ _ hc => hc, fun hf => ?_⟩) (fun hr => ?_)
      (fun p ps hpt hp => ?_) (fun he => by simp [hst, TaskState.isCommitTerminal] at he) (fun hc => by simp at hc)
    · simp [Status.finalReady, hst, TaskState.isFinal] at hf
    · simp [Status.Resting] at hr
    · have ho := h.owes p t ps s hpt hp hs
      have ha : s.state.isActive = true := by simp [hst, TaskState.isActive]
      obtain ⟨ps', hps', hf⟩ := hfinal p hpt
      rw [hp] at hps'
      obtain rfl := Option.some.inj hps'
      exact ⟨fun _ => ho.bound (Or.inl ha), fun _ => hf, fun _ _ => hf⟩
  | @beginCommit t s inputs hs hst hbelow habove =>
    refine h.set hs (fun u su _ _ ho => ho.keeps ⟨rfl, fun _ _ hc => hc, fun hf => ?_⟩) (fun hr => ?_)
      (fun p ps hpt hp => ?_) (fun he => by simp [hst, TaskState.isCommitTerminal] at he) (fun _ => ⟨hbelow, habove⟩)
    · simp only [Status.finalReady, Bool.and_eq_true] at hf ⊢
      exact ⟨rfl, hf.2⟩
    · simp [Status.Resting] at hr
    · have ho := h.owes p t ps s hpt hp hs
      have ha : s.state.isActive = true := by simp [hst, TaskState.isActive]
      exact ⟨fun _ => ho.bound (Or.inl ha), fun _ => ho.final (Or.inl hst), fun he _ => ho.plain he ha⟩
  | @committed t s hs hst =>
    refine h.set hs (fun u su _ _ ho => ho.keeps ⟨rfl, fun _ _ hc => hc, fun hf => ?_⟩) (fun hr => ?_)
      (fun _ _ _ _ => Status.ended_owes rfl) (fun _ => rfl) (fun hc => by simp at hc)
    · simp only [Status.finalReady, Bool.and_eq_true] at hf ⊢
      exact ⟨rfl, hf.2⟩
    · simp [Status.Resting] at hr
  | @failed _ t s hs hst hsweep =>
    exact h.sweep hs hsweep (fun _ => ⟨rfl, rfl⟩) (fun _ _ _ _ => Status.Resting.owes (Or.inr rfl))
      (fun he => by simp [hst, TaskState.isCommitTerminal] at he) (by simp [Status.abort])
  | @uncertain _ t s hs hst hsweep =>
    refine h.sweep hs (hsweep.set h.acyclic hs (by simp [hst, TaskState.isCommitTerminal])) (fun hr => ?_)
      (fun _ _ _ _ => Status.ended_owes rfl) (fun _ => rfl) (by simp)
    simp [Status.Resting] at hr
  | @dispatch t s bindings hs hst hready =>
    have hcl := h.clean t s hs (Or.inl hst)
    refine h.set hs (fun u su _ _ ho => Status.owes_of_not_engaged (ho.not_engaged hcl)) (fun hr => ?_)
      (fun p ps hpt hp => ?_) (fun he => by simp [hst, TaskState.isCommitTerminal] at he) (fun hc => by simp at hc)
    · simp [Status.Resting] at hr
    · obtain ⟨ps', hps', hr, hb⟩ := hready p hpt
      rw [hp] at hps'
      obtain rfl := Option.some.inj hps'
      refine ⟨fun _ => Status.bound_of_ready hr hb, fun hf => by simp at hf, fun he _ => ?_⟩
      simpa [Status.ready, he] using hr

/-! ## A running commit -/

/-- Between the two nets nothing a commit of `t` rests on has changed: the task, its producers, their final state,
generation and completion. -/
structure Frozen (n n' : Net) (t : String) : Prop where
  task : n'.status t = n.status t
  edges : ∀ p, n'.Edge p t ↔ n.Edge p t
  inputs : ∀ p, n.Edge p t → ∃ ps ps', n.status p = some ps ∧ n'.status p = some ps' ∧
    ps'.state = ps.state ∧ ps'.generation = ps.generation ∧ ps'.completion = ps.completion

theorem Frozen.refl (h : Sound enabled n) : Frozen n n t where
  task := rfl
  edges _ := Iff.rfl
  inputs p hp := by
    obtain ⟨⟨ps, hps⟩, -⟩ := h.known p t hp
    exact ⟨ps, ps, hps, hps, rfl, rfl, rfl⟩

theorem Frozen.trans {n'' : Net} (h : Frozen n n' t) (h' : Frozen n' n'' t) : Frozen n n'' t where
  task := h'.task.trans h.task
  edges p := (h'.edges p).trans (h.edges p)
  inputs p hp := by
    obtain ⟨ps, ps', h1, h2, hst, hg, hc⟩ := h.inputs p hp
    obtain ⟨qs, qs', h3, h4, hst', hg', hc'⟩ := h'.inputs p ((h.edges p).2 hp)
    rw [h2] at h3
    obtain rfl := Option.some.inj h3
    exact ⟨ps, qs', h1, h4, hst'.trans hst, hg'.trans hg, hc'.trans hc⟩

/-- A change of one other task, if it is a producer, must leave alone what the commit rests on. -/
theorem Sound.frozen_set (h : Sound enabled n) (hr : root ≠ t)
    (hp : n.Edge root t → ∃ ps, n.status root = some ps ∧ s'.state = ps.state ∧ s'.generation = ps.generation ∧
      s'.completion = ps.completion) : Frozen n (n.set root s') t where
  task := by simp [hr.symm]
  edges _ := Iff.rfl
  inputs p hpt := by
    by_cases he : p = root
    · subst he
      obtain ⟨ps, hps, hrest⟩ := hp hpt
      exact ⟨ps, s', hps, by simp, hrest⟩
    · obtain ⟨⟨ps, hps⟩, -⟩ := h.known p t hpt
      exact ⟨ps, ps, hps, by simpa [he] using hps, rfl, rfl, rfl⟩

/-- A sweep that stops short of a running commit reaches none of its producers either. -/
theorem Sound.frozen_sweep (h : Sound enabled n) (ht : n.Committing t) (hr : root ≠ t)
    (hsweep : Sweep (n.set root s') root n') : Frozen n n' t ∧ ¬ n.Edge root t := by
  obtain ⟨st, hst, hc⟩ := ht
  have hst' : (n.set root s').status t = some st := by simpa [hr.symm] using hst
  have hend : ¬ (n.set root s').Ended t := not_ended_of_committing ⟨st, hst', hc⟩
  have hb : ¬ (n.set root s').Below root t := by
    intro hb
    obtain ⟨s0, s1, h1, -, hf⟩ := hsweep.falls t hb
    rw [hst'] at h1
    obtain rfl := Option.some.inj h1
    exact hf.not_committing hc
  have hroot : ¬ n.Edge root t := fun he => hb (TransGen.single ⟨he, hend⟩)
  refine ⟨⟨?_, fun p => by rw [hsweep.edge]; rfl, fun p hp => ?_⟩, hroot⟩
  · rw [hsweep.same t hb, hst', hst]
  · have hpr : p ≠ root := by
      rintro rfl
      exact hroot hp
    have hpb : ¬ (n.set root s').Below root p := fun hbp => hb (TransGen.tail hbp ⟨hp, hend⟩)
    obtain ⟨⟨ps, hps⟩, -⟩ := h.known p t hp
    refine ⟨ps, ps, hps, ?_, rfl, rfl, rfl⟩
    rw [hsweep.same p hpb]
    simpa [hpr] using hps

theorem Step.frozen (hstep : Step enabled n a n') (h : Sound enabled n) (ht : n.Committing t)
    (ha : ∀ done, a ≠ .endCommit t done) : Frozen n n' t := by
  obtain ⟨st, hst, hc⟩ := ht
  have hcom : n.Committing t := ⟨st, hst, hc⟩
  have hend : ¬ n.Ended t := not_ended_of_committing hcom
  -- the producers of a running commit are final
  have hfin : ∀ p ps, n.Edge p t → n.status p = some ps → ps.finalReady = true :=
    fun p ps hp hps => (h.owes p t ps st hp hps hst).final (Or.inr hc)
  have hroot : ∀ {u : String} {su : Status}, n.status u = some su → su.state ≠ .committing → u ≠ t := by
    rintro u su hu hne rfl
    rw [hst] at hu
    obtain rfl := Option.some.inj hu
    exact hne hc
  cases hstep with
  | @register u su E hnew hs hg hi hcl hE hsub hacyclic =>
    have hut : u ≠ t := by
      rintro rfl
      simp [hnew] at hst
    refine ⟨?_, fun p => ⟨fun hp => ?_, hsub p t⟩, fun p hp => ?_⟩
    · show (n.set u su).status t = n.status t
      simp [hut.symm]
    · rcases hE p t hp with h | ⟨he, -⟩
      · exact h
      · exact absurd he.symm hut
    · obtain ⟨⟨ps, hps⟩, -⟩ := h.known p t hp
      have hpu : p ≠ u := by
        rintro rfl
        simp [hnew] at hps
      refine ⟨ps, ps, hps, ?_, rfl, rfl, rfl⟩
      show (n.set u su).status p = some ps
      simpa [hpu] using hps
  | @depend q u su E hs hb hp hE hacyclic =>
    have hut : u ≠ t := hroot hs (by simp [hb])
    refine ⟨rfl, fun p => ?_, fun p hp => ?_⟩
    · show E p t ↔ n.Edge p t
      rw [hE]
      exact or_iff_left fun he => hut he.2.symm
    · obtain ⟨⟨ps, hps⟩, -⟩ := h.known p t hp
      exact ⟨ps, ps, hps, hps, rfl, rfl, rfl⟩
  | @claim u su level claim hs hact hslot =>
    obtain ⟨h1, -, h2, -⟩ := su.setSlot_state level claim
    refine h.frozen_set (hroot hs ?_) fun hu => ⟨su, hs, h1, h2, ?_⟩
    · intro he
      simp [he, TaskState.isActive] at hact
    · have hf := hfin u su hu hs
      cases level with
      | interface => rfl
      | final =>
        simp only [Status.finalReady, Bool.and_eq_true] at hf
        rcases hslot with hn | hsome
        · simp only [Status.slot] at hn
          simp [hn] at hf
        · exact hsome.symm
  | @reclaim _ u su level claim hs hact hsweep =>
    refine (h.frozen_sweep hcom (hroot hs ?_) hsweep).1
    intro he
    simp [he, TaskState.isActive] at hact
  | @renew _ u su g hs hact hg hsweep =>
    refine (h.frozen_sweep hcom (hroot hs ?_) hsweep).1
    intro he
    simp [he, TaskState.isActive] at hact
  | @revoke _ u su hs hact hsweep =>
    refine (h.frozen_sweep hcom (hroot hs ?_) hsweep).1
    intro he
    simp [he, TaskState.isActive] at hact
  | @abort _ u su hs hact hsweep =>
    refine (h.frozen_sweep hcom (hroot hs ?_) hsweep).1
    intro he
    simp [he, TaskState.isActive] at hact
  | @cancel _ u su hs hact hsweep _ =>
    refine (h.frozen_sweep hcom (hroot hs ?_) hsweep).1
    intro he
    simp [he, TaskState.isActive] at hact
  | @retry u su hs hst' =>
    refine h.frozen_set (hroot hs (by simp [hst'])) fun hu => ?_
    have hf := hfin u su hu hs
    simp [Status.finalReady, hst', TaskState.isFinal] at hf
  | @work u su hs hst' =>
    refine h.frozen_set (hroot hs (by simp [hst'])) fun hu => ?_
    have hf := hfin u su hu hs
    simp [Status.finalReady, hst', TaskState.isFinal] at hf
  | @finalize u su hs hst' hfinal =>
    refine h.frozen_set (hroot hs (by simp [hst'])) fun hu => ?_
    have hf := hfin u su hu hs
    simp [Status.finalReady, hst', TaskState.isFinal] at hf
  | @beginCommit u su inputs hs hst' hbelow habove =>
    refine h.frozen_set (hroot hs (by simp [hst'])) fun hu => ?_
    exact absurd (TransGen.single ⟨hu, hend⟩) (hbelow t hcom)
  | @committed u su hs hst' =>
    have hut : u ≠ t := by
      rintro rfl
      exact ha _ rfl
    refine h.frozen_set hut fun hu => ?_
    exact absurd (TransGen.single ⟨hu, hend⟩) (h.apart u t ⟨su, hs, hst'⟩ hcom)
  | @failed _ u su hs hst' hsweep =>
    have hut : u ≠ t := by
      rintro rfl
      exact ha _ rfl
    exact (h.frozen_sweep hcom hut hsweep).1
  | @uncertain _ u su hs hst' hsweep =>
    have hut : u ≠ t := by
      rintro rfl
      exact ha _ rfl
    exact (h.frozen_sweep hcom hut
      (hsweep.set h.acyclic hs (by simp [hst', TaskState.isCommitTerminal]))).1
  | @dispatch u su bindings hs hst' hready =>
    refine h.frozen_set (hroot hs (by simp [hst'])) fun hu => ?_
    have hf := hfin u su hu hs
    simp [Status.finalReady, hst', TaskState.isFinal] at hf

end Net

end SovereignCore.Harness
