import SovereignCore.Lib.Bytes

/-!
# Readers of a wire format

A reader takes a value from the front of its input. `ReadsTo p a w` says that `p` reads the value `a` from `w` and leaves
whatever follows, so that what a format writes piece after piece is read piece after piece.

* `ReadsTo.pure`, `ReadsTo.bind`, `ReadsTo.times`, `ReadsTo.take` : the rules;
* `ReadsTo.inj`, `ReadsTo.cancel` : what one reader reads tells values apart;
* `beBytes`, `beValue` : big-endian numbers.
-/

namespace SovereignCore.Wire

/-- Takes a value from the front of the input, or refuses. -/
abbrev Reader (τ ε α : Type) := StateT (List τ) (Except ε) α

variable {τ ε α β : Type} {a : α} {b : β} {v w : List τ}

/-- `p` reads `a` from `w` and leaves what follows. -/
def ReadsTo (p : Reader τ ε α) (a : α) (w : List τ) : Prop := ∀ rest, p (w ++ rest) = .ok (a, rest)

/-- `n` items from the front, or the refusal `e`. -/
def take (e : ε) (n : Nat) : Reader τ ε (List τ) := fun s => if s.length < n then .error e else .ok (s.take n, s.drop n)

/-- `n` values, one after the other. -/
def times (p : Reader τ ε α) : Nat → Reader τ ε (List α)
  | 0 => pure []
  | n + 1 => do
    let a ← p
    let l ← times p n
    pure (a :: l)

/-- The value of an answer, or the refusal `e`. -/
def orRefuse (e : ε) : Option α → Reader τ ε α
  | none => throw e
  | some a => pure a

/-- Refuses with `e` when `p` holds. -/
def refuseIf (p : Prop) [Decidable p] (e : ε) : Reader τ ε Unit := if p then throw e else pure ()

namespace ReadsTo

variable {p : Reader τ ε α} {f : α → Reader τ ε β}

theorem pure (a : α) : ReadsTo (pure a : Reader τ ε α) a [] := fun _ => rfl

theorem bind (hp : ReadsTo p a w) (hf : ReadsTo (f a) b v) : ReadsTo (p >>= f) b (w ++ v) := by
  intro rest
  show Except.bind (p (w ++ v ++ rest)) (fun r => f r.1 r.2) = _
  rw [List.append_assoc, hp]
  exact hf rest

theorem bind_nil (hp : ReadsTo p a []) (hf : ReadsTo (f a) b w) : ReadsTo (p >>= f) b w := hp.bind hf

theorem last (hp : ReadsTo p a w) (hf : ReadsTo (f a) b []) : ReadsTo (p >>= f) b w := by
  have h := hp.bind hf
  rwa [List.append_nil] at h

theorem take {e : ε} {n : Nat} (h : w.length = n) : ReadsTo (Wire.take e n) w w := by
  intro rest
  unfold Wire.take
  rw [if_neg (by rw [List.length_append]; omega), List.take_left' h, List.drop_left' h]

theorem times {write : α → List τ} {l : List α} (h : ∀ a ∈ l, ReadsTo p a (write a)) :
    ReadsTo (Wire.times p l.length) l (l.flatMap write) := by
  induction l with
  | nil => exact pure []
  | cons a l ih =>
    rw [List.flatMap_cons]
    apply (h a List.mem_cons_self).bind
    rw [← List.append_nil (l.flatMap write)]
    exact (ih fun x hx => h x (List.mem_cons_of_mem _ hx)).bind (pure _)

theorem orRefuse {e : ε} {o : Option α} (h : o = some a) : ReadsTo (Wire.orRefuse e o : Reader τ ε α) a [] := by
  rw [h]
  exact pure a

theorem refuseIf {q : Prop} [Decidable q] {e : ε} (h : ¬ q) : ReadsTo (Wire.refuseIf q e : Reader τ ε Unit) () [] := by
  unfold Wire.refuseIf
  rw [if_neg h]
  exact pure ()

theorem all (h : ReadsTo p a w) : p w = .ok (a, []) := by
  have h := h []
  rwa [List.append_nil] at h

theorem inj {a' : α} (h : ReadsTo p a w) (h' : ReadsTo p a' w) : a = a' :=
  congrArg Prod.fst (Except.ok.inj (h.all.symm.trans h'.all))

/-- Two inputs that are the same begin with the same value, and go on with the same input. -/
theorem cancel {a' : α} {w' u u' : List τ} (h : ReadsTo p a w) (h' : ReadsTo p a' w') (he : w ++ u = w' ++ u') :
    a = a' ∧ u = u' := by
  have hread : p (w ++ u) = p (w' ++ u') := congrArg p he
  rw [h u, h' u'] at hread
  exact Prod.mk.inj (Except.ok.inj hread)

end ReadsTo

/-! ## Numbers -/

/-- `n` bytes, the most significant first. -/
def beBytes (n v : Nat) : List UInt8 := (leBytes n v).reverse

def beValue (bs : List UInt8) : Nat := leValue bs.reverse

@[simp] theorem length_beBytes (n v : Nat) : (beBytes n v).length = n := by
  rw [beBytes, List.length_reverse, length_leBytes]

theorem beValue_beBytes {n v : Nat} (h : v < 256 ^ n) : beValue (beBytes n v) = v := by
  rw [beValue, beBytes, List.reverse_reverse, leValue_leBytes n v h]

end SovereignCore.Wire
