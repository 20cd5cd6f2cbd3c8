import Mathlib.Data.List.Basic

/-!
# Calls that return, refuse or panic

A method with `&mut self` ends in one of three ways: it returns a value, it returns an error, or it panics. In the
first two cases the state it leaves behind is the caller's state from then on, also when the result is an error.

* `Outcome ε σ α` : the three endings; `Prog σ ε α` : a call on a state `σ`, with its monad;
* `Outcome.Ends N Q E o` : `o` is a value and state in `Q`, an error and state in `E`, or a panic and `N` holds, so
  `N := False` says that the call cannot panic; `ends_bind` and the rules beside it take a call apart;
* `ignore`, `succeeds`, `expect`, `result`, `mapErr` : what the caller makes of an error; `zoom` : a call on a part of the state;
* `Within R` : every ending is in `R` of the start;
* `ends_forM` : the loop rule, with an invariant over the items still to come;
* `Outcome.state?`, `Outcome.answer?` : the state the caller goes on with, and whether it got a value.
-/

namespace SovereignCore

/-- How a call on a state `σ` ends. -/
inductive Outcome (ε σ α : Type) where
  | ok (a : α) (s : σ)
  | err (e : ε) (s : σ)
  | panic

/-- A call on a state `σ` that may refuse with an error `ε` or panic. -/
def Prog (σ ε α : Type) : Type := σ → Outcome ε σ α

namespace Outcome
variable {ε σ α : Type}

/-- `Q` holds of a value, `E` of an error, and a panic happens only if `N`. -/
def Ends (N : Prop) (Q : α → σ → Prop) (E : ε → σ → Prop) : Outcome ε σ α → Prop
  | ok a s => Q a s
  | err e s => E e s
  | panic => N

/-- The state after the call, for the caller that goes on whether it returned a value or an error. -/
def state? : Outcome ε σ α → Option σ
  | ok _ s => some s
  | err _ s => some s
  | panic => none

def answer? : Outcome ε σ α → Option (Bool × σ)
  | ok _ s => some (true, s)
  | err _ s => some (false, s)
  | panic => none

/-- A call that cannot panic answers, in the state its ending promises. -/
theorem Ends.answer {Q E : σ → Prop} {o : Outcome ε σ α} (h : o.Ends False (fun _ s => Q s) (fun _ s => E s)) :
    ∃ r s, o.answer? = some (r, s) ∧ if r then Q s else E s := by
  cases o with
  | ok a s => exact ⟨true, s, rfl, h⟩
  | err e s => exact ⟨false, s, rfl, h⟩
  | panic => exact h.elim

theorem Ends.mono {N : Prop} {Q Q' : α → σ → Prop} {E E' : ε → σ → Prop} {o : Outcome ε σ α} (h : o.Ends N Q E)
    (hQ : ∀ a s, Q a s → Q' a s) (hE : ∀ e s, E e s → E' e s) : o.Ends N Q' E' := by
  cases o with
  | ok a s => exact hQ a s h
  | err e s => exact hE e s h
  | panic => exact h

theorem Ends.blame {N N' : Prop} {Q Q' : α → σ → Prop} {E E' : ε → σ → Prop} {o : Outcome ε σ α} (h : o.Ends N Q E)
    (hN : N → N') (hQ : ∀ a s, Q a s → Q' a s) (hE : ∀ e s, E e s → E' e s) : o.Ends N' Q' E' := by
  cases o with
  | ok a s => exact hQ a s h
  | err e s => exact hE e s h
  | panic => exact hN h

theorem Ends.weaken {N : Prop} {Q : α → σ → Prop} {E : ε → σ → Prop} {o : Outcome ε σ α} (h : o.Ends False Q E) :
    o.Ends N Q E := by
  cases o with
  | ok a s => exact h
  | err e s => exact h
  | panic => exact h.elim

theorem Ends.and {N : Prop} {Q Q' : α → σ → Prop} {E E' : ε → σ → Prop} {o : Outcome ε σ α} (h : o.Ends N Q E)
    (h' : o.Ends N Q' E') : o.Ends N (fun a s => Q a s ∧ Q' a s) (fun e s => E e s ∧ E' e s) := by
  cases o with
  | ok a s => exact ⟨h, h'⟩
  | err e s => exact ⟨h, h'⟩
  | panic => exact h

/-- What holds of every ending, whether the call may panic or not. -/
theorem Ends.also {N : Prop} {Q Q' : α → σ → Prop} {E E' : ε → σ → Prop} {o : Outcome ε σ α} (h : o.Ends N Q E)
    (h' : o.Ends True Q' E') : o.Ends N (fun a s => Q a s ∧ Q' a s) (fun e s => E e s ∧ E' e s) := by
  cases o with
  | ok a s => exact ⟨h, h'⟩
  | err e s => exact ⟨h, h'⟩
  | panic => exact h

/-- Nothing is claimed of a call that may panic when every ending is fine. -/
theorem Ends.any {Q : α → σ → Prop} {E : ε → σ → Prop} {o : Outcome ε σ α} (hQ : ∀ a s, Q a s) (hE : ∀ e s, E e s) :
    o.Ends True Q E := by
  cases o with
  | ok a s => exact hQ a s
  | err e s => exact hE e s
  | panic => exact trivial

/-- A condition on both endings holds of the state the caller goes on with, if there is one. -/
theorem Ends.state {N : Prop} {P : σ → Prop} {o : Outcome ε σ α} (h : o.Ends N (fun _ s => P s) (fun _ s => P s)) :
    (∀ s, o.state? = some s → P s) ∧ (o.state? = none → N) := by
  cases o with
  | ok a s => exact ⟨fun _ hs => Option.some.inj hs ▸ h, fun hn => (nomatch hn)⟩
  | err e s => exact ⟨fun _ hs => Option.some.inj hs ▸ h, fun hn => (nomatch hn)⟩
  | panic => exact ⟨fun _ hs => (nomatch hs), fun _ => h⟩

end Outcome

namespace Prog
variable {ε σ α β : Type}

instance : Monad (Prog σ ε) where
  pure a := fun s => .ok a s
  bind x f := fun s => match x s with
    | .ok a s' => f a s'
    | .err e s' => .err e s'
    | .panic => .panic

def get : Prog σ ε σ := fun s => .ok s s

def set (s : σ) : Prog σ ε Unit := fun _ => .ok () s

def modify (f : σ → σ) : Prog σ ε Unit := fun s => .ok () (f s)

/-- `return Err(e)`. -/
def fail (e : ε) : Prog σ ε α := fun s => .err e s

def panic : Prog σ ε α := fun _ => .panic

/-- `o.ok_or(e)?` -/
def orFail (o : Option α) (e : ε) : Prog σ ε α :=
  match o with
  | some a => pure a
  | none => fail e

/-- `o.unwrap()` -/
def unwrap (o : Option α) : Prog σ ε α :=
  match o with
  | some a => pure a
  | none => panic

/-- The result of a call as a value: `match x { Ok(a) => .., Err(e) => .. }`. -/
def result (x : Prog σ ε α) : Prog σ ε (Except ε α) := fun s =>
  match x s with
  | .ok a s' => .ok (.ok a) s'
  | .err e s' => .ok (.error e) s'
  | .panic => .panic

/-- `x.map_err(f)` -/
def mapErr {ε' : Type} (f : ε → ε') (x : Prog σ ε α) : Prog σ ε' α := fun s =>
  match x s with
  | .ok a s' => .ok a s'
  | .err e s' => .err (f e) s'
  | .panic => .panic

/-- `let _ = x;` -/
def ignore {ε' : Type} (x : Prog σ ε α) : Prog σ ε' Unit := fun s =>
  match x s with
  | .ok _ s' => .ok () s'
  | .err _ s' => .ok () s'
  | .panic => .panic

/-- `x.is_ok()` -/
def succeeds {ε' : Type} (x : Prog σ ε α) : Prog σ ε' Bool := fun s =>
  match x s with
  | .ok _ s' => .ok true s'
  | .err _ s' => .ok false s'
  | .panic => .panic

/-- `x.expect(..)` -/
def expect {ε' : Type} (x : Prog σ ε α) : Prog σ ε' α := fun s =>
  match x s with
  | .ok a s' => .ok a s'
  | .err _ _ => .panic
  | .panic => .panic

/-- A call on a part `τ` of the state. -/
def zoom {τ : Type} (part : σ → τ) (put : τ → σ → σ) (x : Prog τ ε α) : Prog σ ε α := fun s =>
  match x (part s) with
  | .ok a t => .ok a (put t s)
  | .err e t => .err e (put t s)
  | .panic => .panic

/-! ## Rules -/

variable {N : Prop} {Q : α → σ → Prop} {E : ε → σ → Prop} {s : σ}

@[simp] theorem ends_pure (a : α) : Outcome.Ends N Q E ((pure a : Prog σ ε α) s) ↔ Q a s := Iff.rfl

@[simp] theorem ends_bind (x : Prog σ ε β) (f : β → Prog σ ε α) :
    Outcome.Ends N Q E ((x >>= f) s) ↔ (x s).Ends N (fun b s' => (f b s').Ends N Q E) E := by
  change Outcome.Ends N Q E (match x s with
    | .ok a s' => f a s'
    | .err e s' => .err e s'
    | .panic => .panic) ↔ _
  cases x s <;> rfl

@[simp] theorem ends_get {Q : σ → σ → Prop} : Outcome.Ends N Q E ((get : Prog σ ε σ) s) ↔ Q s s := Iff.rfl

@[simp] theorem ends_set {Q : Unit → σ → Prop} (s' : σ) :
    Outcome.Ends N Q E ((set s' : Prog σ ε Unit) s) ↔ Q () s' := Iff.rfl

@[simp] theorem ends_modify {Q : Unit → σ → Prop} (f : σ → σ) :
    Outcome.Ends N Q E ((modify f : Prog σ ε Unit) s) ↔ Q () (f s) := Iff.rfl

@[simp] theorem ends_fail (e : ε) : Outcome.Ends N Q E ((fail e : Prog σ ε α) s) ↔ E e s := Iff.rfl

@[simp] theorem ends_panic : Outcome.Ends N Q E ((panic : Prog σ ε α) s) ↔ N := Iff.rfl

@[simp] theorem ends_orFail_some (a : α) (e : ε) : Outcome.Ends N Q E (orFail (some a) e s) ↔ Q a s := Iff.rfl

@[simp] theorem ends_orFail_none (e : ε) :
    Outcome.Ends N Q E ((orFail none e : Prog σ ε α) s) ↔ E e s := Iff.rfl

@[simp] theorem ends_unwrap_some (a : α) : Outcome.Ends N Q E ((unwrap (some a) : Prog σ ε α) s) ↔ Q a s := Iff.rfl

theorem ends_mapErr {ε' : Type} {E : ε' → σ → Prop} (f : ε → ε') (x : Prog σ ε α) :
    Outcome.Ends N Q E (mapErr f x s) ↔ (x s).Ends N Q (fun e => E (f e)) := by
  unfold mapErr
  cases x s <;> rfl

theorem ends_ignore {ε' : Type} {Q : Unit → σ → Prop} {E : ε' → σ → Prop} (x : Prog σ ε α) :
    Outcome.Ends N Q E (ignore x s) ↔ (x s).Ends N (fun _ => Q ()) (fun _ => Q ()) := by
  unfold ignore
  cases x s <;> rfl

theorem ends_succeeds {ε' : Type} {Q : Bool → σ → Prop} {E : ε' → σ → Prop} (x : Prog σ ε α) :
    Outcome.Ends N Q E (succeeds x s) ↔ (x s).Ends N (fun _ => Q true) (fun _ => Q false) := by
  unfold succeeds
  cases x s <;> rfl

theorem ends_expect {ε' : Type} {E : ε' → σ → Prop} (x : Prog σ ε α) :
    Outcome.Ends N Q E (expect x s) ↔ (x s).Ends N Q (fun _ _ => N) := by
  unfold expect
  cases x s <;> rfl

theorem ends_result {Q : Except ε α → σ → Prop} (x : Prog σ ε α) :
    Outcome.Ends N Q E (result x s) ↔ (x s).Ends N (fun a => Q (.ok a)) (fun e => Q (.error e)) := by
  unfold result
  cases x s <;> rfl

theorem ends_zoom {τ : Type} (part : σ → τ) (put : τ → σ → σ) (x : Prog τ ε α) :
    Outcome.Ends N Q E (zoom part put x s) ↔
      (x (part s)).Ends N (fun a t => Q a (put t s)) (fun e t => E e (put t s)) := by
  unfold zoom
  cases x (part s) <;> rfl

/-- The loop rule: `I` relates the items still to come to the state. -/
theorem ends_forM {f : β → Prog σ ε Unit} (I : List β → σ → Prop)
    (hstep : ∀ x xs s, I (x :: xs) s → (f x s).Ends N (fun _ s' => I xs s') E) :
    ∀ (xs : List β) (s : σ), I xs s → Outcome.Ends N (fun _ s' => I [] s') E (xs.forM f s)
  | [], _, h => h
  | x :: xs, s, h => by
    rw [List.forM_eq_forM, List.forM_cons, ends_bind]
    exact (hstep x xs s h).mono (fun _ s' h' => ends_forM I hstep xs s' h') (fun _ _ h' => h')

/-! ## Calls that stay within a relation -/

/-- However the call returns, the state after it is related to the state before it. -/
def Within (R : σ → σ → Prop) (x : Prog σ ε α) : Prop :=
  ∀ s, Outcome.Ends True (fun _ s' => R s s') (fun _ s' => R s s') (x s)

/-- A relation that calls in a row stay within when each of them does. -/
class Steady (R : σ → σ → Prop) : Prop where
  refl : ∀ s, R s s
  trans : ∀ {s s' s''}, R s s' → R s' s'' → R s s''

variable {R : σ → σ → Prop}

theorem within_modify {f : σ → σ} (h : ∀ s, R s (f s)) : Within R (modify f : Prog σ ε Unit) := h

theorem within_get {f : σ → Prog σ ε α}
    (hf : ∀ s, Outcome.Ends True (fun _ s' => R s s') (fun _ s' => R s s') (f s s)) : Within R (get >>= f) := by
  intro s
  rw [ends_bind, ends_get]
  exact hf s

variable [Steady R]

theorem within_pure (a : α) : Within R (pure a : Prog σ ε α) := fun s => Steady.refl s

theorem within_bind {x : Prog σ ε β} {f : β → Prog σ ε α} (hx : Within R x) (hf : ∀ b, Within R (f b)) :
    Within R (x >>= f) := by
  intro s
  rw [ends_bind]
  exact (hx s).mono (fun b s' h => (hf b s').mono (fun _ _ h' => Steady.trans h h') fun _ _ h' => Steady.trans h h')
    fun _ _ h => h

theorem within_forM {f : β → Prog σ ε Unit} (hf : ∀ b, Within R (f b)) : ∀ xs : List β, Within R (xs.forM f)
  | [] => within_pure ()
  | x :: xs => by
    rw [List.forM_eq_forM, List.forM_cons]
    exact within_bind (hf x) fun _ => within_forM hf xs

end Prog

end SovereignCore
