import Mathlib.Data.List.Basic

/-!
# Programs that talk to a shared store

A program ends with a value, or asks the store something and goes on with the answer. Many of them run at once: between
two requests of one, any number of requests of the others are served.

* `Talk Q A α` : a program with requests `Q` and answers `A q`, with its monad; `request`;
* `Protocol`, `Meets` : in which order a program may make its requests, and what holds when it ends;
* `Server`, `Pool`, `Pool.step`, `Pool.run` : the programs at work, one request, start or end at a time;
* `Pool.Along` : every move of a run meets a condition on the store before it;
* `Discipline` : each program keeps to the protocol of its job, and what one owns no other takes away;
  `Discipline.run` : then this is so in every state of every run that meets the condition.
-/

namespace SovereignCore

/-- A program ends with a value, or asks `q` and goes on with the answer. -/
inductive Talk (Q : Type) (A : Q → Type) (α : Type) where
  | done (a : α)
  | ask (q : Q) (next : A q → Talk Q A α)

namespace Talk

variable {Q : Type} {A : Q → Type} {α β Ph : Type}

def bind : Talk Q A α → (α → Talk Q A β) → Talk Q A β
  | done a, f => f a
  | ask q next, f => ask q fun a => (next a).bind f

instance : Monad (Talk Q A) where
  pure := done
  bind := bind

def request (q : Q) : Talk Q A (A q) := ask q done

end Talk

/-- Which requests a program may make in which phase, and the phase that the answer leads to. -/
structure Protocol (Q : Type) (A : Q → Type) (Ph : Type) where
  allows : Ph → Q → Prop
  next : Ph → (q : Q) → A q → Ph

namespace Talk

variable {Q : Type} {A : Q → Type} {α β Ph : Type} {P : Protocol Q A Ph} {post post' : Ph → α → Prop} {ph : Ph}

/-- From this phase on the program keeps to the protocol, whatever it is answered, and ends in `post`. -/
def Meets (P : Protocol Q A Ph) (post : Ph → α → Prop) : Ph → Talk Q A α → Prop
  | ph, done a => post ph a
  | ph, ask q next => P.allows ph q ∧ ∀ a, Meets P post (P.next ph q a) (next a)

theorem Meets.mono (hpost : ∀ ph a, post ph a → post' ph a) : ∀ {x : Talk Q A α} {ph : Ph}, Meets P post ph x →
    Meets P post' ph x
  | done a, ph, h => hpost ph a h
  | ask _ _, _, h => ⟨h.1, fun a => Meets.mono hpost (h.2 a)⟩

theorem meets_bind {post : Ph → β → Prop} {f : α → Talk Q A β} : ∀ {x : Talk Q A α} {ph : Ph},
    Meets P (fun ph a => Meets P post ph (f a)) ph x → Meets P post ph (x >>= f)
  | done _, _, h => h
  | ask _ _, _, h => ⟨h.1, fun a => meets_bind (h.2 a)⟩

theorem meets_ask {q : Q} {post : Ph → β → Prop} {f : A q → Talk Q A β} (hq : P.allows ph q)
    (h : ∀ a, Meets P post (P.next ph q a) (f a)) : Meets P post ph (request q >>= f) := ⟨hq, h⟩

end Talk

/-- How requests are answered: a program, by its number, asks, and the answer and the store after it depend on `φ`;
`none` while it has to wait. `enter` and `leave` are the store when a program starts and when it is killed. -/
structure Server (Q : Type) (A : Q → Type) (α σ ι φ : Type) where
  program : ι → Talk Q A α
  enter : Nat → σ → σ
  serve : Nat → (q : Q) → φ → σ → Option (A q × σ)
  leave : Nat → σ → σ

/-- The store, and the programs by number: the job of each and what is left of it, `none` when it was killed. -/
structure Pool (Q : Type) (A : Q → Type) (α σ ι : Type) where
  shared : σ
  calls : List (Option (ι × Talk Q A α))

inductive Move (ι φ : Type) where
  | start (job : ι)
  | serve (i : Nat) (luck : φ)
  | kill (i : Nat)

/-- What happens to a program that has started. -/
inductive Deed (Q φ : Type) where
  | serve (q : Q) (luck : φ)
  | kill

namespace Pool

variable {Q : Type} {A : Q → Type} {α σ ι φ Ph : Type}

/-- `none` when the move cannot be made: the program has ended, or has to wait. -/
def step (S : Server Q A α σ ι φ) (s : Pool Q A α σ ι) : Move ι φ → Option (Pool Q A α σ ι)
  | .start job => some ⟨S.enter s.calls.length s.shared, s.calls ++ [some (job, S.program job)]⟩
  | .serve i luck =>
    match s.calls[i]? with
    | some (some (job, .ask q next)) =>
      (S.serve i q luck s.shared).map fun r => ⟨r.2, s.calls.set i (some (job, next r.1))⟩
    | _ => none
  | .kill i => some ⟨S.leave i s.shared, s.calls.set i none⟩

def run (S : Server Q A α σ ι φ) : List (Move ι φ) → Pool Q A α σ ι → Option (Pool Q A α σ ι)
  | [], s => some s
  | m :: ms, s => (s.step S m).bind (run S ms)

def live (s : Pool Q A α σ ι) (i : Nat) : Option (ι × Talk Q A α) := s.calls[i]?.join

/-- The condition on what happens to the program of this number, for one move. -/
def Grants (C : Nat → Deed Q φ → σ → Prop) (s : Pool Q A α σ ι) : Move ι φ → Prop
  | .start _ => True
  | .serve i luck =>
    match s.live i with
    | some (_, .ask q _) => C i (.serve q luck) s.shared
    | _ => True
  | .kill i => C i .kill s.shared

def Along (S : Server Q A α σ ι φ) (C : Nat → Deed Q φ → σ → Prop) : List (Move ι φ) → Pool Q A α σ ι → Prop
  | [], _ => True
  | m :: ms, s => s.Grants C m ∧ match s.step S m with
    | some s' => Along S C ms s'
    | none => True

section Along

variable {S : Server Q A α σ ι φ} {C D : Nat → Deed Q φ → σ → Prop}

theorem Grants.mono {s : Pool Q A α σ ι} {m : Move ι φ} (hm : ∀ i, m ≠ .kill i)
    (hCD : ∀ i q luck x, C i (.serve q luck) x → D i (.serve q luck) x) (h : s.Grants C m) : s.Grants D m := by
  cases m with
  | start job => trivial
  | serve i luck =>
    show match s.live i with
      | some (_, .ask q _) => D i (.serve q luck) s.shared
      | _ => True
    split
    · rename_i heq
      have hC : match s.live i with
        | some (_, .ask q _) => C i (.serve q luck) s.shared
        | _ => True := h
      rw [heq] at hC
      exact hCD _ _ _ _ hC
    · trivial
  | kill i => exact absurd rfl (hm i)

/-- In a run in which nobody is killed, what the requests meet decides. -/
theorem Along.mono : ∀ {ms : List (Move ι φ)} {s : Pool Q A α σ ι}, (∀ i, Move.kill i ∉ ms) →
    (∀ i q luck x, C i (.serve q luck) x → D i (.serve q luck) x) → s.Along S C ms → s.Along S D ms
  | [], _, _, _, _ => trivial
  | m :: ms, s, hkill, hCD, h => by
    have hm : ∀ i, m ≠ .kill i := fun i heq => hkill i (heq ▸ List.mem_cons_self)
    refine ⟨h.1.mono hm hCD, ?_⟩
    have hrest := h.2
    split
    · rename_i s' hstep
      rw [hstep] at hrest
      exact Along.mono (fun i hi => hkill i (List.mem_cons_of_mem _ hi)) hCD hrest
    · trivial

theorem along_true : ∀ {ms : List (Move ι φ)} {s : Pool Q A α σ ι}, s.Along S (fun _ _ _ => True) ms
  | [], _ => trivial
  | m :: ms, s => by
    refine ⟨?_, ?_⟩
    · cases m with
      | start job => trivial
      | serve i luck =>
        show match s.live i with
          | some (_, .ask _ _) => True
          | _ => True
        split
        · trivial
        · trivial
      | kill i => trivial
    · split
      · exact along_true
      · trivial

end Along

theorem serve_cases {S : Server Q A α σ ι φ} {s s' : Pool Q A α σ ι} {i : Nat} {luck : φ}
    (h : s.step S (.serve i luck) = some s') : ∃ job q next a shared, s.live i = some (job, .ask q next) ∧
      S.serve i q luck s.shared = some (a, shared) ∧ s' = ⟨shared, s.calls.set i (some (job, next a))⟩ := by
  have hstep : (match s.calls[i]? with
      | some (some (job, .ask q next)) =>
        (S.serve i q luck s.shared).map fun r => ⟨r.2, s.calls.set i (some (job, next r.1))⟩
      | _ => none) = some s' := h
  split at hstep
  · rename_i job q next hi
    obtain ⟨⟨a, shared⟩, hserve, rfl⟩ := Option.map_eq_some_iff.1 hstep
    exact ⟨job, q, next, a, shared, by rw [live, hi, Option.join_some], hserve, rfl⟩
  · cases hstep

theorem live_set {s : Pool Q A α σ ι} {i : Nat} {x : Option (ι × Talk Q A α)} (hi : i < s.calls.length) (j : Nat) :
    (s.calls.set i x)[j]?.join = if i = j then x else s.live j := by
  unfold live
  rw [List.getElem?_set]
  split_ifs
  · rfl
  · rfl

theorem lt_of_live {s : Pool Q A α σ ι} {i : Nat} {x : ι × Talk Q A α} (h : s.live i = some x) : i < s.calls.length := by
  by_contra hge
  rw [live, List.getElem?_eq_none (Nat.le_of_not_lt hge)] at h
  cases h

theorem live_snoc {s : Pool Q A α σ ι} {shared : σ} {x : ι × Talk Q A α} (j : Nat) :
    (Pool.mk shared (s.calls ++ [some x])).live j = if s.calls.length = j then some x else s.live j := by
  unfold live
  rcases Nat.lt_trichotomy j s.calls.length with hj | hj | hj
  · rw [List.getElem?_append_left hj, if_neg (Nat.ne_of_gt hj)]
  · subst hj
    rw [List.getElem?_append_right (Nat.le_refl _), Nat.sub_self, if_pos rfl]
    rfl
  · have hlen : (s.calls ++ [some x]).length ≤ j := by
      rw [List.length_append]
      exact hj
    rw [List.getElem?_eq_none hlen, List.getElem?_eq_none (Nat.le_of_lt hj), if_neg (Nat.ne_of_lt hj)]

end Pool

/-- Each program keeps to the protocol of its job from the phase `first` on. `Own i o s` is what the program of this
number, in its phase, may count on: a request of its own carries it along, and no request of another breaks it, as long
as what happens meets the condition `C`. -/
structure Discipline {Q : Type} {A : Q → Type} {α σ ι φ Ph : Type} (S : Server Q A α σ ι φ)
    (C : Nat → Deed Q φ → σ → Prop) (P : ι → Protocol Q A Ph) (post : ι → Ph → α → Prop) (first : ι → Ph)
    (Own : Nat → Option (ι × Ph) → σ → Prop) : Prop where
  meets : ∀ job, (S.program job).Meets (P job) (post job) (first job)
  enters : ∀ {i job s}, Own i none s → Own i (some (job, first job)) (S.enter i s)
  greets : ∀ {i j o s}, j ≠ i → Own j o s → Own j o (S.enter i s)
  serves : ∀ {i job ph s q luck a s'}, C i (.serve q luck) s → Own i (some (job, ph)) s → (P job).allows ph q →
    S.serve i q luck s = some (a, s') → Own i (some (job, (P job).next ph q a)) s'
  spares : ∀ {i job ph s q luck a s' j o}, C i (.serve q luck) s → Own i (some (job, ph)) s → (P job).allows ph q →
    S.serve i q luck s = some (a, s') → j ≠ i → Own j o s → Own j o s'
  leaves : ∀ {i o s}, C i .kill s → Own i o s → Own i none (S.leave i s)
  survives : ∀ {i j o s}, C i .kill s → j ≠ i → Own j o s → Own j o (S.leave i s)

namespace Discipline

variable {Q : Type} {A : Q → Type} {α σ ι φ Ph : Type} {S : Server Q A α σ ι φ} {C : Nat → Deed Q φ → σ → Prop}
  {P : ι → Protocol Q A Ph} {post : ι → Ph → α → Prop} {first : ι → Ph} {Own : Nat → Option (ι × Ph) → σ → Prop} {s s' : Pool Q A α σ ι}

/-- Every live program is in a phase of its protocol and owns what belongs to it; the other numbers own nothing. -/
def Orderly (P : ι → Protocol Q A Ph) (post : ι → Ph → α → Prop) (Own : Nat → Option (ι × Ph) → σ → Prop)
    (s : Pool Q A α σ ι) : Prop :=
  ∀ i, match s.live i with
    | some (job, x) => ∃ ph, x.Meets (P job) (post job) ph ∧ Own i (some (job, ph)) s.shared
    | none => Own i none s.shared

theorem Orderly.own (h : Orderly P post Own s) (i : Nat) : ∃ o, Own i o s.shared := by
  have hi := h i
  split at hi
  · obtain ⟨ph, -, hown⟩ := hi
    exact ⟨_, hown⟩
  · exact ⟨_, hi⟩

/-- What a served request was: one that the protocol allows, of a program that owns what it should. -/
theorem served (h : Orderly P post Own s) {i : Nat} {luck : φ} (hs : s.step S (.serve i luck) = some s') :
    ∃ job q next a ph, s.live i = some (job, .ask q next) ∧ S.serve i q luck s.shared = some (a, s'.shared) ∧
      s'.calls = s.calls.set i (some (job, next a)) ∧ Own i (some (job, ph)) s.shared ∧ (P job).allows ph q ∧
      (next a).Meets (P job) (post job) ((P job).next ph q a) := by
  obtain ⟨job, q, next, a, shared, hlive, hserve, rfl⟩ := Pool.serve_cases hs
  have hi := h i
  rw [hlive] at hi
  obtain ⟨ph, ⟨hallows, hmeets⟩, hown⟩ := hi
  exact ⟨job, q, next, a, ph, hlive, hserve, rfl, hown, hallows, hmeets a⟩

/-- What holds of every number in one state holds in the next, when the moved one is seen to and the others are spared. -/
theorem Orderly.moved (h : Orderly P post Own s) {i : Nat} (hlive : ∀ j, j ≠ i → s'.live j = s.live j)
    (hspare : ∀ j o, j ≠ i → Own j o s.shared → Own j o s'.shared)
    (hi : match s'.live i with
      | some (job, x) => ∃ ph, x.Meets (P job) (post job) ph ∧ Own i (some (job, ph)) s'.shared
      | none => Own i none s'.shared) : Orderly P post Own s' := by
  intro j
  by_cases hj : j = i
  · subst hj
    exact hi
  · have hold := h j
    rw [hlive j hj]
    split at hold
    · obtain ⟨ph, hmeets, hown⟩ := hold
      exact ⟨ph, hmeets, hspare j _ hj hown⟩
    · exact hspare j _ hj hold

theorem step (d : Discipline S C P post first Own) (h : Orderly P post Own s) {m : Move ι φ} (hc : s.Grants C m)
    (hs : s.step S m = some s') : Orderly P post Own s' := by
  cases m with
  | start job =>
    obtain rfl := Option.some.inj hs
    apply h.moved (i := s.calls.length)
    · intro j hj
      rw [Pool.live_snoc, if_neg hj.symm]
    · exact fun _ _ hj hown => d.greets hj hown
    · have hnone : s.live s.calls.length = none := by
        rw [Pool.live, List.getElem?_eq_none (Nat.le_refl _)]
        rfl
      have hidle := h s.calls.length
      rw [hnone] at hidle
      rw [Pool.live_snoc, if_pos rfl]
      exact ⟨first job, d.meets job, d.enters hidle⟩
  | serve i luck =>
    obtain ⟨job, q, next, a, ph, hlive, hserve, hcalls, hown, hallows, hmeets⟩ := served h hs
    have hcond : C i (.serve q luck) s.shared := by
      have hgrant : match s.live i with
        | some (_, .ask q _) => C i (.serve q luck) s.shared
        | _ => True := hc
      rw [hlive] at hgrant
      exact hgrant
    have hset : ∀ j, s'.live j = if i = j then some (job, next a) else s.live j := by
      intro j
      show s'.calls[j]?.join = _
      rw [hcalls]
      exact Pool.live_set (Pool.lt_of_live hlive) j
    apply h.moved (i := i)
    · intro j hj
      rw [hset, if_neg hj.symm]
    · exact fun j o hj => d.spares hcond hown hallows hserve hj
    · rw [hset, if_pos rfl]
      exact ⟨_, hmeets, d.serves hcond hown hallows hserve⟩
  | kill i =>
    obtain rfl := Option.some.inj hs
    apply h.moved (i := i)
    · intro j hj
      show (s.calls.set i none)[j]?.join = s.calls[j]?.join
      rw [List.getElem?_set_ne hj.symm]
    · exact fun j o hj => d.survives hc hj
    · have hgone : (Pool.mk (S.leave i s.shared) (s.calls.set i none) : Pool Q A α σ ι).live i = none := by
        show (s.calls.set i none)[i]?.join = none
        rw [List.getElem?_set_self']
        cases s.calls[i]? with
        | none => rfl
        | some x => rfl
      obtain ⟨o, ho⟩ := h.own i
      rw [hgone]
      exact d.leaves hc ho

theorem run (d : Discipline S C P post first Own) : ∀ {ms : List (Move ι φ)} {s : Pool Q A α σ ι},
    Orderly P post Own s → s.Along S C ms → s.run S ms = some s' → Orderly P post Own s'
  | [], s, h, _, hs => Option.some.inj hs ▸ h
  | m :: ms, s, h, hc, hs => by
    obtain ⟨mid, hm, hrest⟩ := Option.bind_eq_some_iff.1 hs
    have hcond := hc.2
    rw [hm] at hcond
    exact d.run (d.step h hc.1 hm) hcond hrest

theorem orderly_start {shared : σ} (h : ∀ i, Own i none shared) :
    Orderly P post Own (⟨shared, []⟩ : Pool Q A α σ ι) := by
  intro i
  have hnone : (⟨shared, []⟩ : Pool Q A α σ ι).live i = none := rfl
  rw [hnone]
  exact h i

end Discipline

end SovereignCore
