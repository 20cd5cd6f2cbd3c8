import Mathlib.Data.List.Basic

/-!
# Computations that may refuse

Rules to take an accepted `Except` computation apart. A refusal carries no state, so what an accepted computation did
is told by the answers of its parts.

* `bind_ok`, `check_ok`, `guard_ok`, `mapError_ok` : the answer of a composite from the answers of its parts;
* `forM_ok` : a loop of checks accepts when each check does;
* `foldlM_inv` : what every step of a loop keeps, an accepted loop keeps;
* `Both` : two computations that refuse together, or accept with related values, and the rules to show it.
-/

namespace SovereignCore.Result

variable {ε ε' α β σ : Type} {x : Except ε α} {f : α → Except ε β} {a : α} {b : β}

@[simp] theorem bind_ok : (x >>= f) = .ok b ↔ ∃ a, x = .ok a ∧ f a = .ok b := by
  cases x with
  | error e => simp [bind, Except.bind]
  | ok a => simp [bind, Except.bind]

theorem check_ok {x : Except ε Unit} {f : Unit → Except ε β} :
    (x >>= f) = .ok b ↔ x = .ok () ∧ f () = .ok b := by
  rw [bind_ok]
  exact ⟨fun ⟨(), h⟩ => h, fun h => ⟨(), h⟩⟩

theorem ok_bind (a : α) (f : α → Except ε β) : (Except.ok a >>= f) = f a := rfl

theorem error_bind (e : ε) (f : α → Except ε β) : (Except.error e >>= f) = .error e := rfl

@[simp] theorem pure_ok {a' : α} : (pure a : Except ε α) = .ok a' ↔ a = a' := by
  simp [pure, Except.pure]

@[simp] theorem mapError_ok {g : ε → ε'} : x.mapError g = .ok a ↔ x = .ok a := by
  cases x with
  | error e => simp [Except.mapError]
  | ok a => simp [Except.mapError]

/-- A check that refuses when `p` holds. -/
@[simp] theorem guard_ok {p : Prop} [Decidable p] {e : ε} :
    (if p then .error e else x) = .ok a ↔ ¬ p ∧ x = .ok a := by
  by_cases h : p
  · simp [h]
  · simp [h]

/-- A check that accepts when `p` holds. -/
@[simp] theorem allow_ok {p : Prop} [Decidable p] {e : ε} :
    (if p then x else .error e) = .ok a ↔ p ∧ x = .ok a := by
  by_cases h : p
  · simp [h]
  · simp [h]

theorem toOption_some : x.toOption = some a ↔ x = .ok a := by
  cases x with
  | error e => simp [Except.toOption]
  | ok a' => simp [Except.toOption]

theorem forM_ok {l : List α} {g : α → Except ε Unit} : l.forM g = .ok () ↔ ∀ a ∈ l, g a = .ok () := by
  induction l with
  | nil => simp
  | cons a l ih =>
    rw [show (a :: l).forM g = (g a >>= fun _ => l.forM g) from rfl, bind_ok]
    constructor
    · rintro ⟨u, ha, hl⟩
      intro a' ha'
      rcases List.mem_cons.1 ha' with rfl | ha'
      · exact ha
      · exact ih.1 hl a' ha'
    · intro h
      exact ⟨(), h a (by simp), ih.2 fun a' ha' => h a' (by simp [ha'])⟩

theorem foldlM_inv {step : σ → α → Except ε σ} {P : σ → Prop} {l : List α} {s s' : σ}
    (hstep : ∀ a ∈ l, ∀ s s', P s → step s a = .ok s' → P s') (h0 : P s) (h : l.foldlM step s = .ok s') : P s' := by
  induction l generalizing s with
  | nil =>
    rw [List.foldlM_nil, pure_ok] at h
    exact h ▸ h0
  | cons a l ih =>
    rw [List.foldlM_cons, bind_ok] at h
    obtain ⟨s1, h1, h2⟩ := h
    exact ih (fun a' ha' => hstep a' (by simp [ha'])) (hstep a (by simp) s s1 h0 h1) h2

/-! ## Two computations side by side -/

/-- Both refuse, or both accept with related values. -/
inductive Both (R : α → β → Prop) : Except ε α → Except ε' β → Prop
  | refused (e : ε) (e' : ε') : Both R (.error e) (.error e')
  | accepted {a : α} {b : β} (h : R a b) : Both R (.ok a) (.ok b)

namespace Both

variable {γ δ : Type} {R : α → β → Prop} {Q : γ → δ → Prop} {x : Except ε α} {y : Except ε' β}

theorem bind {f : α → Except ε γ} {g : β → Except ε' δ} (h : Both R x y) (hfg : ∀ a b, R a b → Both Q (f a) (g b)) :
    Both Q (x >>= f) (y >>= g) := by
  cases h with
  | refused e e' => exact refused e e'
  | accepted hR => exact hfg _ _ hR

theorem mapError {ε₁ ε₂ : Type} {f : ε → ε₁} {g : ε' → ε₂} (h : Both R x y) : Both R (x.mapError f) (y.mapError g) := by
  cases h with
  | refused e e' => exact refused (f e) (g e')
  | accepted hR => exact accepted hR

theorem guard {p q : Prop} [Decidable p] [Decidable q] {e : ε} {e' : ε'} (hpq : p ↔ q) (h : ¬ p → Both R x y) :
    Both R (if p then .error e else x) (if q then .error e' else y) := by
  by_cases hp : p
  · rw [if_pos hp, if_pos (hpq.1 hp)]
    exact refused e e'
  · rw [if_neg hp, if_neg (mt hpq.2 hp)]
    exact h hp

theorem ite {p q : Prop} [Decidable p] [Decidable q] {x' : Except ε α} {y' : Except ε' β} (hpq : p ↔ q)
    (h : p → Both R x y) (h' : ¬ p → Both R x' y') : Both R (if p then x else x') (if q then y else y') := by
  by_cases hp : p
  · rw [if_pos hp, if_pos (hpq.1 hp)]
    exact h hp
  · rw [if_neg hp, if_neg (mt hpq.2 hp)]
    exact h' hp

theorem symm {x : Except ε α} {y : Except ε' β} (h : Both R x y) : Both (fun b a => R a b) y x := by
  cases h with
  | refused e e' => exact refused e' e
  | accepted hR => exact accepted hR

theorem imp {R' : α → β → Prop} (h : Both R x y) (himp : ∀ a b, R a b → R' a b) : Both R' x y := by
  cases h with
  | refused e e' => exact refused e e'
  | accepted hR => exact accepted (himp _ _ hR)

end Both

end SovereignCore.Result
