import Mathlib.Data.Finset.Card
import SovereignCore.Board.Phases

/-!
# Which runs are shared on the board

* `Settled` : while a key has no stamp none of its runs has passed, and never did more than one;
* `Attends`, `Shares` : a request had called `run` before a run gave its lock back;
* `Punctual` : no request begins to wait in the second of a failure that it came too late for;
* `Own` : what a request may count on in its phase; `Beside` : what a step of one request leaves to the others;
* `serve_own` : one step keeps both; `board_discipline` : so does every run without crashes.
-/

namespace SovereignCore.Board

open Talk Evidence

def Files.passes (s : Files) (key : String) : Nat := s.ended.count (key, 0)

def Settled (key : String) (s : Files) : Prop :=
  s.passes key ≤ 1 ∧ (s.records .stamps key = none → s.passes key = 0)

/-- When `j` gave its lock back, `i` had called `run`. -/
def Attends (i j : Nat) (s : Files) : Prop := ∀ l, (j, l) ∈ s.returned → i ∈ l

/-- The record is of a run that was in flight after `i` had called `run`. -/
def Shares (i : Nat) (r : Record) (s : Files) : Prop := ∃ j, (j, r) ∈ s.written ∧ Attends i j s

def Work : Phase → Files → Prop
  | .inside k _, s => Settled k s
  | .sharing k _, s => Settled k s
  | .holding k, s => Settled k s
  | .clear k, s => s.records .stamps k = none ∧ s.passes k = 0
  | .executing k, s => s.records .stamps k = none ∧ s.passes k = 0
  | .ran k c, s => s.records .stamps k = none ∧ s.passes k = if c = 0 then 1 else 0
  | _, _ => True

def Knows (i : Nat) : Phase → Files → Prop
  | .waiting k t, s => ∀ r, s.records .fails k = some r → t ≤ r.finishedAt → Shares i r s
  | .inside k t, s => ∀ r, s.records .fails k = some r → t ≤ r.finishedAt → Shares i r s
  | .sharing _ r, s => r.exitCode ≠ 0 → Shares i r s
  | .left (some r), s => r.exitCode ≠ 0 → Shares i r s
  | _, _ => True

/-- When a request that does not hold the lock of its key reads the clock, the failure on record is of a run that was in
flight after the request had come, or the second in which it finished is over. -/
def Punctual (i : Nat) (s : Files) : Prop :=
  ∀ k r, s.keys i = some k → s.locks (.key k) ≠ some i → s.records .fails k = some r →
    Shares i r s ∨ r.finishedAt < s.clock

def Timely (i : Nat) : Deed Ask Luck → Files → Prop
  | .serve .now _, s => Punctual i s
  | _, _ => True

/-- Nobody crashes, and, where it is asked for, every clock is read in time. -/
def Calm (strict : Prop) (i : Nat) : Deed Ask Luck → Files → Prop
  | .serve q luck, s => strict → Timely i (.serve q luck) s
  | .kill, _ => False

/-- What holds of the files whoever looks. -/
structure Kept (s : Files) : Prop where
  nodup : s.running.Nodup
  passing : ∀ k r, s.records .stamps k = some r → r.exitCode = 0
  free : ∀ k, s.locks (.key k) = none → Settled k s

/-- What the request of this number may count on, in its phase or before it has come. -/
structure Own (strict : Prop) (i : Nat) (ph : Option Phase) (s : Files) : Prop where
  kept : Kept s
  lock : ∀ k, s.locks (.key k) = some i ↔ ph.bind Phase.held = some k
  child : ∀ k, (i, k) ∈ s.running ↔ ph.bind Phase.child = some k
  arrived : ph.isSome → i ∈ s.arrived
  early : ph.all (!·.gone) → ∀ l, (i, l) ∉ s.returned
  asks : ∀ k, ph.bind Phase.asking = some k → s.keys i = some k
  work : ∀ p ∈ ph, Work p s
  knows : strict → ∀ p ∈ ph, Knows i p s

/-- What a step of `i` leaves to the others. -/
structure Beside (i : Nat) (s s' : Files) : Prop where
  kept : Kept s'
  lock : ∀ k j, j ≠ i → (s'.locks (.key k) = some j ↔ s.locks (.key k) = some j)
  child : ∀ k j, j ≠ i → ((j, k) ∈ s'.running ↔ (j, k) ∈ s.running)
  work : ∀ k, s.locks (.key k) ≠ some i → s.locks (.key k) ≠ none →
    s'.records .stamps k = s.records .stamps k ∧ s'.passes k = s.passes k
  arrived : ∀ j ∈ s.arrived, j ∈ s'.arrived
  returned : ∀ j l, (j, l) ∈ s'.returned → (j, l) ∈ s.returned ∨ j = i ∧ l = s.arrived
  written : ∀ x ∈ s.written, x ∈ s'.written
  fails : ∀ k r, s'.records .fails k = some r →
    s.records .fails k = some r ∨ (i, r) ∈ s'.written ∧ ∀ l, (i, l) ∉ s'.returned
  keys : ∀ j, j ≠ i → s'.keys j = s.keys j

section Steps

variable {strict : Prop} {i j : Nat} {ph : Option Phase} {p : Phase} {s s' : Files} {r : Record} {k : String}

theorem Shares.after (h : Shares j r s) (hb : Beside i s s') (hj : j ∈ s.arrived) : Shares j r s' := by
  obtain ⟨m, hm, hatt⟩ := h
  refine ⟨m, hb.written _ hm, ?_⟩
  intro l hl
  obtain hl | ⟨-, rfl⟩ := hb.returned m l hl
  · exact hatt l hl
  · exact hj

/-- A failure that was written just now is shared by everybody who is there. -/
theorem Beside.shares (hb : Beside i s s') (hj : j ∈ s.arrived)
    (h : s.records .fails k = some r → Shares j r s) (hr : s'.records .fails k = some r) : Shares j r s' := by
  obtain hold | ⟨hw, hnot⟩ := hb.fails k r hr
  · exact (h hold).after hb hj
  · exact ⟨i, hw, fun l hl => absurd hl (hnot l)⟩

theorem Knows.after (h : Knows j p s) (hb : Beside i s s') (hj : j ∈ s.arrived) : Knows j p s' := by
  cases p with
  | waiting k t => exact fun r hr ht => hb.shares hj (fun hold => h r hold ht) hr
  | inside k t => exact fun r hr ht => hb.shares hj (fun hold => h r hold ht) hr
  | sharing k r => exact fun hr => (h hr).after hb hj
  | left r =>
    cases r with
    | none => trivial
    | some r => exact fun hr => (h hr).after hb hj
  | _ => trivial

theorem Settled.congr (h : Settled k s) (hrec : s'.records .stamps k = s.records .stamps k)
    (hpass : s'.passes k = s.passes k) : Settled k s' := by
  unfold Settled
  rw [hrec, hpass]
  exact h

/-- What is known of the held key depends on its stamp and on its runs. -/
theorem Work.congr (h : Work p s) (hk : ∀ k, p.held = some k →
    s'.records .stamps k = s.records .stamps k ∧ s'.passes k = s.passes k) : Work p s' := by
  cases p with
  | inside k t => exact Settled.congr h (hk k rfl).1 (hk k rfl).2
  | sharing k r => exact Settled.congr h (hk k rfl).1 (hk k rfl).2
  | holding k => exact Settled.congr h (hk k rfl).1 (hk k rfl).2
  | clear k => exact ⟨(hk k rfl).1.trans h.1, (hk k rfl).2.trans h.2⟩
  | executing k => exact ⟨(hk k rfl).1.trans h.1, (hk k rfl).2.trans h.2⟩
  | ran k c => exact ⟨(hk k rfl).1.trans h.1, (hk k rfl).2.trans h.2⟩
  | _ => trivial

theorem Own.spared (h : Own strict j ph s) (hb : Beside i s s') (hj : j ≠ i) : Own strict j ph s' where
  kept := hb.kept
  lock := fun k => (hb.lock k j hj).trans (h.lock k)
  child := fun k => (hb.child k j hj).trans (h.child k)
  arrived := fun hph => hb.arrived j (h.arrived hph)
  early := by
    intro hph l hl
    obtain hold | ⟨rfl, -⟩ := hb.returned j l hl
    · exact h.early hph l hold
    · exact hj rfl
  asks := fun k hk => (hb.keys j hj).trans (h.asks k hk)
  work := by
    intro p hp
    apply (h.work p hp).congr
    intro k hk
    have hlock : s.locks (.key k) = some j := by
      rw [h.lock, Option.mem_def.1 hp]
      exact hk
    apply hb.work k
    · rw [hlock]
      exact fun heq => hj (Option.some.inj heq)
    · rw [hlock]
      exact Option.some_ne_none j
  knows := fun hs p hp => (h.knows hs p hp).after hb (h.arrived (by rw [Option.mem_def.1 hp]; rfl))

/-- Nothing changes that the others or the phase depend on. -/
structure Quiet (i : Nat) (s s' : Files) : Prop where
  records : s'.records = s.records
  locks : ∀ k, s'.locks (.key k) = s.locks (.key k)
  running : s'.running = s.running
  ended : s'.ended = s.ended
  arrived : s'.arrived = s.arrived
  returned : s'.returned = s.returned
  written : s'.written = s.written
  keys : ∀ j, j ≠ i → s'.keys j = s.keys j

theorem Quiet.refl : Quiet i s s := ⟨rfl, fun _ => rfl, rfl, rfl, rfl, rfl, rfl, fun _ _ => rfl⟩

theorem Quiet.take {path : LockPath} (h : ∀ k, path ≠ .key k) : Quiet i s (s.take path i) where
  records := rfl
  locks := fun k => Function.update_of_ne (h k).symm _ _
  running := rfl
  ended := rfl
  arrived := rfl
  returned := rfl
  written := rfl
  keys := fun _ _ => rfl

theorem Quiet.drop {path : LockPath} (h : ∀ k, path ≠ .key k) : Quiet i s (s.drop path i) where
  records := rfl
  locks := fun k => Function.update_of_ne (h k).symm _ _
  running := rfl
  ended := rfl
  arrived := rfl
  returned := by
    cases path with
    | key k => exact absurd rfl (h k)
    | cpu slot => rfl
    | resource name => rfl
  written := rfl
  keys := fun _ _ => rfl

theorem Quiet.passes (q : Quiet i s s') (k : String) : s'.passes k = s.passes k := by
  unfold Files.passes
  rw [q.ended]

theorem Quiet.kept (q : Quiet i s s') (h : Kept s) : Kept s' where
  nodup := q.running ▸ h.nodup
  passing := by
    rw [q.records]
    exact h.passing
  free := by
    intro k hk
    rw [q.locks] at hk
    exact (h.free k hk).congr (by rw [q.records]) (q.passes k)

theorem Quiet.beside (q : Quiet i s s') (h : Kept s) : Beside i s s' where
  kept := q.kept h
  lock := fun k _ _ => by rw [q.locks]
  child := fun k _ _ => by rw [q.running]
  work := fun k _ _ => ⟨by rw [q.records], q.passes k⟩
  arrived := fun j hj => q.arrived ▸ hj
  returned := fun j l hl => Or.inl (q.returned ▸ hl)
  written := fun x hx => q.written ▸ hx
  fails := fun k r hr => Or.inl (q.records ▸ hr)
  keys := q.keys

/-- The request goes on to a phase that holds the same, with what it has learnt. -/
theorem Own.turn {p' : Phase} (h : Own strict i (some p) s) (q : Quiet i s s') (hheld : p'.held = p.held)
    (hchild : p'.child = p.child) (hgone : p'.gone = p.gone) (hasks : ∀ k, p'.asking = some k → s'.keys i = some k)
    (hwork : Work p' s) (hknows : strict → Knows i p' s) : Own strict i (some p') s' where
  kept := q.kept h.kept
  lock := by
    intro k
    rw [q.locks, h.lock]
    show p.held = some k ↔ p'.held = some k
    rw [hheld]
  child := by
    intro k
    rw [q.running, h.child]
    show p.child = some k ↔ p'.child = some k
    rw [hchild]
  arrived := fun _ => q.arrived ▸ h.arrived rfl
  early := by
    intro hp l
    rw [q.returned]
    apply h.early
    have hp' : (!p'.gone) = true := hp
    rw [hgone] at hp'
    exact hp'
  asks := hasks
  work := by
    intro x hx
    obtain rfl := Option.mem_some_iff.1 hx
    exact hwork.congr fun k _ => ⟨by rw [q.records], q.passes k⟩
  knows := by
    intro hs x hx
    obtain rfl := Option.mem_some_iff.1 hx
    exact (hknows hs).after (q.beside h.kept) (h.arrived rfl)

theorem Own.stay (h : Own strict i (some p) s) (q : Quiet i s s') (hasks : p.asking = none) :
    Own strict i (some p) s' := by
  apply h.turn q rfl rfl rfl
  · intro k hk
    rw [hasks] at hk
    cases hk
  · exact h.work p rfl
  · exact fun hs => h.knows hs p rfl

/-- A request that changes more comes to a phase of its own making. -/
theorem Own.goes {p' : Phase} (h : Own strict i (some p) s) (hb : Beside i s s')
    (hlock : ∀ k, s'.locks (.key k) = some i ↔ p'.held = some k) (hchild : ∀ k, (i, k) ∈ s'.running ↔ p'.child = some k)
    (hearly : p'.gone = false → ∀ l, (i, l) ∉ s'.returned) (hasks : ∀ k, p'.asking = some k → s'.keys i = some k)
    (hwork : Work p' s') (hknows : strict → Knows i p' s') : Own strict i (some p') s' where
  kept := hb.kept
  lock := hlock
  child := hchild
  arrived := fun _ => hb.arrived i (h.arrived rfl)
  early := fun hp => hearly (by
    have hp' : (!p'.gone) = true := hp
    rw [← Bool.not_eq_true', hp'])
  asks := hasks
  work := by
    intro x hx
    obtain rfl := Option.mem_some_iff.1 hx
    exact hwork
  knows := by
    intro hs x hx
    obtain rfl := Option.mem_some_iff.1 hx
    exact hknows hs

theorem beside_take (h : Kept s) (hk : s.locks (.key k) = none) : Beside i s (s.take (.key k) i) where
  kept := by
    refine ⟨h.nodup, h.passing, ?_⟩
    intro k' hk'
    apply h.free
    by_cases heq : LockPath.key k' = .key k
    · rw [heq]
      exact hk
    · exact (Function.update_of_ne heq _ _).symm.trans hk'
  lock := by
    intro k' j hj
    show Function.update s.locks (.key k) (some i) (.key k') = some j ↔ _
    rw [Function.update_apply]
    split
    · rename_i heq
      rw [heq, hk]
      constructor
      · exact fun hij => absurd (Option.some.inj hij).symm hj
      · nofun
    · rfl
  child := fun _ _ _ => Iff.rfl
  work := fun _ _ _ => ⟨rfl, rfl⟩
  arrived := fun _ hj => hj
  returned := fun _ _ hl => Or.inl hl
  written := fun _ hx => hx
  fails := fun _ _ hr => Or.inl hr
  keys := fun _ _ => rfl

theorem beside_drop (h : Kept s) (hk : s.locks (.key k) = some i) (hset : Settled k s) :
    Beside i s (s.drop (.key k) i) where
  kept := by
    refine ⟨h.nodup, h.passing, ?_⟩
    intro k' hk'
    by_cases heq : k' = k
    · rw [heq]
      exact hset
    · apply h.free
      have hne : LockPath.key k' ≠ .key k := fun hpath => heq (LockPath.key.inj hpath)
      exact (Function.update_of_ne hne _ _).symm.trans hk'
  lock := by
    intro k' j hj
    show Function.update s.locks (.key k) none (.key k') = some j ↔ _
    rw [Function.update_apply]
    split
    · rename_i heq
      rw [heq, hk]
      constructor
      · nofun
      · exact fun hij => absurd (Option.some.inj hij).symm hj
    · rfl
  child := fun _ _ _ => Iff.rfl
  work := fun _ _ _ => ⟨rfl, rfl⟩
  arrived := fun _ hj => hj
  returned := by
    intro j l hl
    obtain heq | hl := List.mem_cons.1 hl
    · exact Or.inr (Prod.mk.inj heq)
    · exact Or.inl hl
  written := fun _ hx => hx
  fails := fun _ _ hr => Or.inl hr
  keys := fun _ _ => rfl

theorem write_records (kind kind' : Kind) (k : String) : (s.write kind r i).records kind' k =
    if kind' = kind ∧ k = r.key then some r else s.records kind' k := by
  show Function.update s.records kind (Function.update (s.records kind) r.key (some r)) kind' k = _
  rw [Function.update_apply]
  by_cases hkind : kind' = kind
  · rw [if_pos hkind, Function.update_apply, hkind]
    by_cases hk : k = r.key
    · rw [if_pos hk, if_pos ⟨rfl, hk⟩]
    · rw [if_neg hk, if_neg fun h => hk h.2]
  · rw [if_neg hkind, if_neg fun h => hkind h.1]

theorem beside_write {kind : Kind} (h : Kept s) (hk : s.locks (.key r.key) = some i)
    (hkind : kind = if r.exitCode = 0 then .stamps else .fails) (hnot : ∀ l, (i, l) ∉ s.returned) :
    Beside i s (s.write kind r i) where
  kept := by
    refine ⟨h.nodup, ?_, ?_⟩
    · intro k r' hr'
      rw [write_records] at hr'
      split at hr'
      · rename_i hsame
        obtain rfl := Option.some.inj hr'
        by_contra hcode
        rw [if_neg hcode, ← hsame.1] at hkind
        cases hkind
      · exact h.passing k r' hr'
    · intro k hfree
      have hne : k ≠ r.key := by
        rintro rfl
        exact Option.some_ne_none i (hk.symm.trans hfree)
      apply (h.free k hfree).congr
      · rw [write_records, if_neg fun hsame => hne hsame.2]
      · rfl
  lock := fun _ _ _ => Iff.rfl
  child := fun _ _ _ => Iff.rfl
  work := by
    intro k hother _
    refine ⟨?_, rfl⟩
    rw [write_records, if_neg]
    rintro ⟨-, rfl⟩
    exact hother hk
  arrived := fun _ hj => hj
  returned := fun _ _ hl => Or.inl hl
  written := fun _ hx => List.mem_cons_of_mem _ hx
  fails := by
    intro k r' hr'
    rw [write_records] at hr'
    split at hr'
    · obtain rfl := Option.some.inj hr'
      exact Or.inr ⟨List.mem_cons_self, hnot⟩
    · exact Or.inl hr'
  keys := fun _ _ => rfl

theorem beside_start (h : Kept s) (hnew : (i, k) ∉ s.running) : Beside i s (s.start k i) where
  kept := ⟨List.nodup_cons.2 ⟨hnew, h.nodup⟩, h.passing, h.free⟩
  lock := fun _ _ _ => Iff.rfl
  child := by
    intro k' j hj
    show (j, k') ∈ (i, k) :: s.running ↔ _
    rw [List.mem_cons]
    constructor
    · rintro (heq | hmem)
      · exact absurd (Prod.mk.inj heq).1 hj
      · exact hmem
    · exact Or.inr
  work := fun _ _ _ => ⟨rfl, rfl⟩
  arrived := fun _ hj => hj
  returned := fun _ _ hl => Or.inl hl
  written := fun _ hx => hx
  fails := fun _ _ hr => Or.inl hr
  keys := fun _ _ => rfl

theorem passes_finish {luck : Luck} (k' : String) : (s.finish k i luck).passes k' =
    s.passes k' + if k = k' ∧ luck.exitCode = 0 then 1 else 0 := by
  show ((k, luck.exitCode) :: s.ended).count (k', 0) = _
  rw [List.count_cons]
  congr 1
  by_cases h : k = k' ∧ luck.exitCode = 0
  · rw [if_pos h, if_pos]
    rw [h.1, h.2]
    exact beq_self_eq_true _
  · rw [if_neg h, if_neg]
    intro heq
    exact h (Prod.mk.inj (eq_of_beq heq))

theorem passes_finish_other {luck : Luck} {k' : String} (hne : k' ≠ k) : (s.finish k i luck).passes k' = s.passes k' := by
  rw [passes_finish, if_neg fun h => hne h.1.symm, Nat.add_zero]

theorem beside_finish {luck : Luck} (h : Kept s) (hk : s.locks (.key k) = some i) : Beside i s (s.finish k i luck) where
  kept := by
    refine ⟨h.nodup.erase _, h.passing, ?_⟩
    intro k' hfree
    refine (h.free k' hfree).congr rfl (passes_finish_other ?_)
    rintro rfl
    exact Option.some_ne_none i (hk.symm.trans hfree)
  lock := fun _ _ _ => Iff.rfl
  child := by
    intro k' j hj
    show (j, k') ∈ s.running.erase (i, k) ↔ _
    exact List.mem_erase_of_ne fun heq => hj (Prod.mk.inj heq).1
  work := by
    intro k' hother _
    refine ⟨rfl, passes_finish_other ?_⟩
    rintro rfl
    exact hother hk
  arrived := fun _ hj => hj
  returned := fun _ _ hl => Or.inl hl
  written := fun _ hx => hx
  fails := fun _ _ hr => Or.inl hr
  keys := fun _ _ => rfl

theorem Own.quiet (h : Own strict i (some p) s) (q : Quiet i s s') (hasks : p.asking = none) :
    Own strict i (some p) s' ∧ Beside i s s' := ⟨h.stay q hasks, q.beside h.kept⟩

theorem Own.read (h : Own strict i (some p) s) {kind : Kind} (hq : allows p (.readRecord kind k)) :
    Own strict i (some (nextPhase p (.readRecord kind k) (s.records kind k))) s := by
  obtain rfl | ⟨t, rfl⟩ | ⟨rfl, rfl⟩ := hq
  · exact h.turn Quiet.refl rfl rfl rfl h.asks trivial fun _ => trivial
  · have hset : Settled k s := h.work (.inside k t) rfl
    cases kind with
    | stamps =>
      cases hr : s.records .stamps k with
      | none => exact h
      | some r =>
        exact h.turn Quiet.refl rfl rfl rfl nofun hset fun _ hcode => absurd (h.kept.passing k r hr) hcode
    | fails =>
      cases hr : s.records .fails k with
      | none => exact h.turn Quiet.refl rfl rfl rfl nofun hset fun _ => trivial
      | some r =>
        by_cases ht : t ≤ r.finishedAt
        · have hnext : nextPhase (.inside k t) (.readRecord .fails k) (some r) = .sharing k r := if_pos ht
          rw [hnext]
          exact h.turn Quiet.refl rfl rfl rfl nofun hset fun hs _ => h.knows hs _ rfl r hr ht
        · have hnext : nextPhase (.inside k t) (.readRecord .fails k) (some r) = .holding k := if_neg ht
          rw [hnext]
          exact h.turn Quiet.refl rfl rfl rfl nofun hset fun _ => trivial
  · cases hr : s.records .stamps k with
    | none => exact h.turn Quiet.refl rfl rfl rfl nofun ⟨hr, (h.work _ rfl).2 hr⟩ fun _ => trivial
    | some r => exact h

theorem Own.take {p' : Phase} (h : Own strict i (some p) s) (hk : s.locks (.key k) = none) (hheld : p.held = none)
    (hchild : p.child = none) (hgone : p.gone = false) (hheld' : p'.held = some k) (hchild' : p'.child = none)
    (hasks : p'.asking = none) (hwork : Settled k s → Work p' (s.take (.key k) i))
    (hknows : strict → Knows i p s → Knows i p' s) :
    Own strict i (some p') (s.take (.key k) i) ∧ Beside i s (s.take (.key k) i) := by
  have hb : Beside i s (s.take (.key k) i) := beside_take h.kept hk
  refine ⟨h.goes hb ?_ ?_ ?_ ?_ (hwork (h.kept.free k hk)) ?_, hb⟩
  · intro k'
    show Function.update s.locks (.key k) (some i) (.key k') = some i ↔ _
    rw [Function.update_apply, hheld']
    split
    · rename_i heq
      rw [LockPath.key.inj heq]
      exact ⟨fun _ => rfl, fun _ => rfl⟩
    · rename_i hne
      have hnot : ¬ s.locks (.key k') = some i := by
        rw [h.lock]
        show ¬ p.held = some k'
        rw [hheld]
        nofun
      exact ⟨fun hi => absurd hi hnot, fun heq => absurd (congrArg LockPath.key (Option.some.inj heq).symm) hne⟩
  · intro k'
    rw [hchild']
    refine Iff.trans (h.child k') ?_
    show p.child = some k' ↔ _
    rw [hchild]
  · intro _
    apply h.early
    show (!p.gone) = true
    rw [hgone]
    rfl
  · intro k' hk'
    rw [hasks] at hk'
    cases hk'
  · exact fun hs => (hknows hs (h.knows hs p rfl)).after hb (h.arrived rfl)

theorem Own.drop {found : Option Record} (h : Own strict i (some p) s) (hheld : p.held = some k) (hchild : p.child = none)
    (hset : Settled k s) (hknows : strict → Knows i (.left found) s) :
    Own strict i (some (.left found)) (s.drop (.key k) i) ∧ Beside i s (s.drop (.key k) i) := by
  have hb : Beside i s (s.drop (.key k) i) := beside_drop h.kept ((h.lock k).2 hheld) hset
  refine ⟨h.goes hb ?_ ?_ nofun nofun trivial ?_, hb⟩
  · intro k'
    show Function.update s.locks (.key k) none (.key k') = some i ↔ none = some k'
    rw [Function.update_apply]
    split
    · exact ⟨nofun, nofun⟩
    · rename_i hne
      constructor
      · intro hi
        have hk' : some k = some k' := hheld.symm.trans ((h.lock k').1 hi)
        exact absurd (congrArg LockPath.key (Option.some.inj hk').symm) hne
      · nofun
  · intro k'
    refine Iff.trans (h.child k') ?_
    show p.child = some k' ↔ none = some k'
    rw [hchild]
  · exact fun hs => (hknows hs).after hb (h.arrived rfl)

theorem Own.write {kind : Kind} (h : Own strict i (some (.ran r.key r.exitCode)) s)
    (hkind : kind = if r.exitCode = 0 then .stamps else .fails) :
    Own strict i (some (.holding r.key)) (s.write kind r i) ∧ Beside i s (s.write kind r i) := by
  have hb : Beside i s (s.write kind r i) := beside_write h.kept ((h.lock _).2 rfl) hkind (h.early rfl)
  refine ⟨h.goes hb h.lock h.child (fun _ => h.early rfl) nofun ?_ (fun _ => trivial), hb⟩
  obtain ⟨hnone, hpass⟩ := h.work _ rfl
  show s.passes r.key ≤ 1 ∧ ((s.write kind r i).records .stamps r.key = none → s.passes r.key = 0)
  rw [write_records, hpass]
  by_cases hcode : r.exitCode = 0
  · rw [if_pos hcode] at hkind
    rw [if_pos hcode, if_pos ⟨hkind.symm, rfl⟩]
    exact ⟨Nat.le_refl 1, nofun⟩
  · rw [if_neg hcode]
    exact ⟨Nat.zero_le 1, fun _ => rfl⟩

theorem Own.spawn (h : Own strict i (some (.clear k)) s) :
    Own strict i (some (.executing k)) (s.start k i) ∧ Beside i s (s.start k i) := by
  have hidle : ∀ k', (i, k') ∉ s.running := by
    intro k' hmem
    have hchild : none = some k' := (h.child k').1 hmem
    cases hchild
  have hb : Beside i s (s.start k i) := beside_start h.kept (hidle k)
  refine ⟨h.goes hb h.lock ?_ (fun _ => h.early rfl) nofun (h.work _ rfl) (fun _ => trivial), hb⟩
  intro k'
  show (i, k') ∈ (i, k) :: s.running ↔ some k = some k'
  rw [List.mem_cons]
  constructor
  · rintro (heq | hmem)
    · exact congrArg some (Prod.mk.inj heq).2.symm
    · exact absurd hmem (hidle k')
  · intro heq
    exact Or.inl (by rw [Option.some.inj heq])

theorem Own.finish {luck : Luck} (h : Own strict i (some (.executing k)) s) :
    Own strict i (some (.ran k luck.exitCode)) (s.finish k i luck) ∧ Beside i s (s.finish k i luck) := by
  have hb : Beside i s (s.finish k i luck) := beside_finish h.kept ((h.lock k).2 rfl)
  refine ⟨h.goes hb h.lock ?_ (fun _ => h.early rfl) nofun ?_ (fun _ => trivial), hb⟩
  · intro k'
    show (i, k') ∈ s.running.erase (i, k) ↔ none = some k'
    refine ⟨fun hmem => ?_, nofun⟩
    obtain ⟨hne, hmem⟩ := (h.kept.nodup.mem_erase_iff).1 hmem
    have hk : some k = some k' := (h.child k').1 hmem
    exact absurd (by rw [Option.some.inj hk]) hne
  · obtain ⟨hnone, hpass⟩ := h.work _ rfl
    refine ⟨hnone, ?_⟩
    rw [passes_finish, hpass, Nat.zero_add]
    congr 1
    exact propext ⟨fun hk => hk.2, fun hcode => ⟨rfl, hcode⟩⟩

theorem Own.now (h : Own strict i (some (.refused k)) s) (hc : strict → Punctual i s) :
    Own strict i (some (.waiting k s.clock)) s := by
  refine h.turn Quiet.refl rfl rfl rfl nofun trivial ?_
  intro hs r hr ht
  have hlock : s.locks (.key k) ≠ some i := by
    intro hi
    have hheld : none = some k := (h.lock k).1 hi
    cases hheld
  obtain hshares | hlate := hc hs k r (h.asks k rfl) hlock hr
  · exact hshares
  · exact absurd ht (Nat.not_le_of_lt hlate)

variable {blake : List UInt8 → Digest} {luck : Luck} {path : LockPath}

theorem tryAcquire_cases {taken : Bool} (hs : act blake i (.tryAcquire path) luck s = some (taken, s')) :
    s.locks path = none ∧ taken = true ∧ s' = s.take path i ∨ taken = false ∧ s' = s := by
  dsimp only [act] at hs
  cases hfree : s.locks path with
  | none =>
    rw [hfree] at hs
    obtain ⟨rfl, rfl⟩ := Prod.mk.inj (Option.some.inj hs)
    exact Or.inl ⟨rfl, rfl, rfl⟩
  | some j =>
    rw [hfree] at hs
    obtain ⟨rfl, rfl⟩ := Prod.mk.inj (Option.some.inj hs)
    exact Or.inr ⟨rfl, rfl⟩

theorem acquire_cases {a : Unit} (hs : act blake i (.acquire path) luck s = some (a, s')) :
    s.locks path = none ∧ s' = s.take path i := by
  dsimp only [act] at hs
  cases hfree : s.locks path with
  | none =>
    rw [hfree] at hs
    exact ⟨rfl, (Prod.mk.inj (Option.some.inj hs)).2.symm⟩
  | some j =>
    rw [hfree] at hs
    cases hs

theorem cpuSlot_cases {slots slot : Nat} (hs : act blake i (.cpuSlot slots) luck s = some (slot, s')) :
    s' = s.take (.cpu slot) i := by
  have hact : (if luck.slot < slots ∧ s.locks (.cpu luck.slot) = none then
      some (luck.slot, s.take (.cpu luck.slot) i) else none) = some (slot, s') := hs
  split at hact
  · obtain ⟨rfl, rfl⟩ := Prod.mk.inj (Option.some.inj hact)
    rfl
  · cases hact

/-- One request, seen from the one that makes it and from the others. -/
theorem act_own {q : Ask} {a : Answer q} (hc : Calm strict i (.serve q luck) s) (h : Own strict i (some p) s) (hq : allows p q)
    (hs : act blake i q luck s = some (a, s')) : Own strict i (some (nextPhase p q a)) s' ∧ Beside i s s' := by
  cases q with
  | jobKey job =>
    obtain ⟨rfl, rfl⟩ := Prod.mk.inj (Option.some.inj hs)
    obtain rfl := hq
    have hquiet : Quiet i s { s with keys := Function.update s.keys i (some luck.key) } :=
      ⟨rfl, fun _ => rfl, rfl, rfl, rfl, rfl, rfl, fun j hj => Function.update_of_ne hj _ _⟩
    refine ⟨h.turn hquiet rfl rfl rfl ?_ trivial fun _ => trivial, hquiet.beside h.kept⟩
    intro k hk
    obtain rfl := Option.some.inj hk
    exact Function.update_self _ _ _
  | readRecord kind k =>
    obtain ⟨rfl, rfl⟩ := Prod.mk.inj (Option.some.inj hs)
    exact ⟨h.read hq, Quiet.refl.beside h.kept⟩
  | writeRecord kind r =>
    obtain ⟨rfl, rfl⟩ := Prod.mk.inj (Option.some.inj hs)
    obtain ⟨rfl, hkind⟩ := hq
    exact h.write hkind
  | tryAcquire path =>
    obtain ⟨hfree, rfl, rfl⟩ | ⟨rfl, rfl⟩ := tryAcquire_cases hs
    · cases path with
      | key k =>
        obtain rfl := hq
        exact h.take hfree rfl rfl rfl rfl rfl rfl id fun _ _ => trivial
      | cpu slot =>
        obtain ⟨k, rfl⟩ := hq
        exact h.quiet (Quiet.take nofun) rfl
      | resource name =>
        obtain ⟨k, rfl⟩ := hq
        exact h.quiet (Quiet.take nofun) rfl
    · cases path with
      | key k =>
        obtain rfl := hq
        exact ⟨h.turn Quiet.refl rfl rfl rfl h.asks trivial fun _ => trivial, Quiet.refl.beside h.kept⟩
      | cpu slot =>
        obtain ⟨k, rfl⟩ := hq
        exact h.quiet Quiet.refl rfl
      | resource name =>
        obtain ⟨k, rfl⟩ := hq
        exact h.quiet Quiet.refl rfl
  | acquire path =>
    obtain ⟨hfree, rfl⟩ := acquire_cases hs
    cases path with
    | key k =>
      obtain ⟨t, rfl⟩ := hq
      exact h.take hfree rfl rfl rfl rfl rfl rfl id fun _ hknows => hknows
    | cpu slot =>
      obtain ⟨k, rfl⟩ := hq
      exact h.quiet (Quiet.take nofun) rfl
    | resource name =>
      obtain ⟨k, rfl⟩ := hq
      exact h.quiet (Quiet.take nofun) rfl
  | release path =>
    obtain ⟨rfl, rfl⟩ := Prod.mk.inj (Option.some.inj hs)
    cases path with
    | key k =>
      obtain rfl | rfl | ⟨r, rfl⟩ := hq
      · exact h.drop rfl rfl (h.work _ rfl) fun _ => trivial
      · obtain ⟨hnone, hpass⟩ := h.work _ rfl
        exact h.drop rfl rfl ⟨hpass ▸ Nat.zero_le 1, fun _ => hpass⟩ fun _ => trivial
      · exact h.drop rfl rfl (h.work _ rfl) fun hs => h.knows hs (.sharing k r) rfl
    | cpu slot =>
      obtain ⟨k, rfl⟩ | ⟨k, rfl⟩ := hq
      · exact h.quiet (Quiet.drop nofun) rfl
      · exact h.quiet (Quiet.drop nofun) rfl
    | resource name =>
      obtain ⟨k, rfl⟩ | ⟨k, rfl⟩ := hq
      · exact h.quiet (Quiet.drop nofun) rfl
      · exact h.quiet (Quiet.drop nofun) rfl
  | now =>
    obtain ⟨rfl, rfl⟩ := Prod.mk.inj (Option.some.inj hs)
    obtain ⟨k, rfl⟩ | ⟨k, c, rfl⟩ := hq
    · exact ⟨h.now hc, Quiet.refl.beside h.kept⟩
    · exact h.quiet Quiet.refl rfl
  | cpuSlot slots =>
    obtain ⟨k, rfl⟩ := hq
    obtain rfl := cpuSlot_cases hs
    exact h.quiet (Quiet.take nofun) rfl
  | waitForMemory minFreeBytes memWait =>
    obtain ⟨rfl, rfl⟩ := Prod.mk.inj (Option.some.inj hs)
    obtain ⟨k, rfl⟩ := hq
    exact h.quiet Quiet.refl rfl
  | spawn k cmd base =>
    obtain ⟨rfl, rfl⟩ := Prod.mk.inj (Option.some.inj hs)
    obtain rfl := hq
    exact h.spawn
  | wait k =>
    obtain ⟨rfl, rfl⟩ := Prod.mk.inj (Option.some.inj hs)
    obtain rfl := hq
    exact h.finish
  | readLog k =>
    obtain ⟨rfl, rfl⟩ := Prod.mk.inj (Option.some.inj hs)
    obtain ⟨k, c, rfl⟩ := hq
    exact h.quiet Quiet.refl rfl
  | append agent target intent payload =>
    obtain ⟨rfl, rfl⟩ := Prod.mk.inj (Option.some.inj hs)
    obtain ⟨k, c, rfl⟩ := hq
    exact h.quiet ⟨rfl, fun _ => rfl, rfl, rfl, rfl, rfl, rfl, fun _ _ => rfl⟩ rfl

theorem quiet_wait (n : Nat) : Quiet i s (s.wait n) := ⟨rfl, fun _ => rfl, rfl, rfl, rfl, rfl, rfl, fun _ _ => rfl⟩

theorem Own.later (h : Own strict i (some p) s) (n : Nat) : Own strict i (some p) (s.wait n) :=
  h.turn (quiet_wait n) rfl rfl rfl h.asks (h.work p rfl) fun hs => h.knows hs p rfl

theorem Beside.later (h : Beside i s s') (n : Nat) : Beside i s (s'.wait n) :=
  ⟨⟨h.kept.nodup, h.kept.passing, h.kept.free⟩, h.lock, h.child, h.work, h.arrived, h.returned, h.written, h.fails, h.keys⟩

theorem serve_own {q : Ask} {a : Answer q} (hc : Calm strict i (.serve q luck) s) (h : Own strict i (some p) s)
    (hq : allows p q) (hs : serve blake i q luck s = some (a, s')) :
    Own strict i (some (nextPhase p q a)) s' ∧ Beside i s s' := by
  obtain ⟨⟨a', mid⟩, hact, heq⟩ := Option.map_eq_some_iff.1 hs
  obtain ⟨rfl, rfl⟩ := Prod.mk.inj heq
  obtain ⟨hown, hb⟩ := act_own hc h hq hact
  exact ⟨hown.later _, hb.later _⟩

theorem beside_enter (h : Kept s) : Beside i s { s with arrived := i :: s.arrived } where
  kept := ⟨h.nodup, h.passing, h.free⟩
  lock := fun _ _ _ => Iff.rfl
  child := fun _ _ _ => Iff.rfl
  work := fun _ _ _ => ⟨rfl, rfl⟩
  arrived := fun _ hj => List.mem_cons_of_mem _ hj
  returned := fun _ _ hl => Or.inl hl
  written := fun _ hx => hx
  fails := fun _ _ hr => Or.inl hr
  keys := fun _ _ => rfl

theorem Own.enters (h : Own strict i none s) : Own strict i (some .fresh) { s with arrived := i :: s.arrived } where
  kept := ⟨h.kept.nodup, h.kept.passing, h.kept.free⟩
  lock := h.lock
  child := h.child
  arrived := fun _ => List.mem_cons_self
  early := fun _ => h.early rfl
  asks := nofun
  work := by
    intro p hp
    obtain rfl := Option.mem_some_iff.1 hp
    trivial
  knows := by
    intro _ p hp
    obtain rfl := Option.mem_some_iff.1 hp
    trivial

end Steps

/-- Every request keeps to the protocol, and counts on what belongs to it. -/
theorem board_discipline (strict : Prop) (blake : List UInt8 → Digest) : Discipline (board blake) (Calm strict)
    (fun _ => protocol) (fun _ => Ends) (fun _ => .fresh) (fun i o => Own strict i (o.map Prod.snd)) where
  meets := fun call => run_meets call.1 call.2
  enters := Own.enters
  greets := fun hj h => h.spared (beside_enter h.kept) hj
  serves := fun hc h hq hs => (serve_own hc h hq hs).1
  spares := fun hc h hq hs hj hother => hother.spared (serve_own hc h hq hs).2 hj
  leaves := fun hc _ => hc.elim
  survives := fun hc _ _ => hc.elim

theorem own_empty (strict : Prop) (clock i : Nat) : Own strict i none (Files.empty clock) where
  kept := ⟨List.nodup_nil, nofun, fun _ _ => ⟨Nat.zero_le 1, fun _ => rfl⟩⟩
  lock := fun _ => ⟨nofun, nofun⟩
  child := fun _ => ⟨nofun, nofun⟩
  arrived := nofun
  early := fun _ _ => nofun
  asks := nofun
  work := nofun
  knows := fun _ => nofun

section Runs

variable {strict : Prop} {blake : List UInt8 → Digest} {clock : Nat} {ms : List Step} {s : State}

/-- In every state that is reached without a crash each request counts on what belongs to its phase. -/
theorem orderly_run (hcalm : (State.start clock).Along (board blake) (Calm strict) ms)
    (hrun : (State.start clock).run (board blake) ms = some s) :
    Discipline.Orderly (fun _ => protocol) (fun _ => Ends) (fun i o => Own strict i (o.map Prod.snd)) s :=
  (board_discipline strict blake).run (Discipline.orderly_start (own_empty strict clock)) hcalm hrun

theorem own_of_orderly (h : Discipline.Orderly (fun _ => protocol) (fun _ => Ends)
    (fun i o => Own strict i (o.map Prod.snd)) s) (i : Nat) : ∃ ph, Own strict i ph s.shared := by
  obtain ⟨o, ho⟩ := h.own i
  exact ⟨_, ho⟩

/-- The lock of a key belongs to one request, and only that one has a child for the key. -/
theorem running_le_one (h : ∀ i, ∃ ph, Own strict i ph s.shared) (k : String) :
    (s.shared.running.filter fun c => c.2 = k).length ≤ 1 := by
  have hnodup : (s.shared.running.filter fun c => c.2 = k).Nodup := by
    obtain ⟨ph, hown⟩ := h 0
    exact hown.kept.nodup.filter _
  have hlock : ∀ c ∈ s.shared.running.filter fun c => c.2 = k, s.shared.locks (.key k) = some c.1 := by
    intro c hc
    obtain ⟨hmem, hk⟩ := List.mem_filter.1 hc
    obtain rfl := of_decide_eq_true hk
    obtain ⟨ph, hown⟩ := h c.1
    apply (hown.lock c.2).2
    obtain ⟨p, rfl, hp⟩ := Option.bind_eq_some_iff.1 ((hown.child c.2).1 hmem)
    cases p with
    | executing k' => exact hp
    | _ => cases hp
  rw [← List.toFinset_card_of_nodup hnodup, Finset.card_le_one]
  intro a ha b hb
  rw [List.mem_toFinset] at ha hb
  have hkeys : a.2 = b.2 := (of_decide_eq_true (List.mem_filter.1 ha).2).trans
    (of_decide_eq_true (List.mem_filter.1 hb).2).symm
  exact Prod.ext (Option.some.inj ((hlock a ha).symm.trans (hlock b hb))) hkeys

theorem passes_le_one (h : ∀ i, ∃ ph, Own strict i ph s.shared) (k : String) : s.shared.passes k ≤ 1 := by
  cases hk : s.shared.locks (.key k) with
  | none =>
    obtain ⟨ph, hown⟩ := h 0
    exact (hown.kept.free k hk).1
  | some i =>
    obtain ⟨ph, hown⟩ := h i
    obtain ⟨p, rfl, hp⟩ := Option.bind_eq_some_iff.1 ((hown.lock k).1 hk)
    have hwork := hown.work p rfl
    cases p with
    | inside k' t =>
      obtain rfl := Option.some.inj hp
      exact hwork.1
    | sharing k' r =>
      obtain rfl := Option.some.inj hp
      exact hwork.1
    | holding k' =>
      obtain rfl := Option.some.inj hp
      exact hwork.1
    | clear k' =>
      obtain rfl := Option.some.inj hp
      exact hwork.2 ▸ Nat.zero_le 1
    | executing k' =>
      obtain rfl := Option.some.inj hp
      exact hwork.2 ▸ Nat.zero_le 1
    | ran k' c =>
      obtain rfl := Option.some.inj hp
      rw [hwork.2]
      split
      · exact Nat.le_refl 1
      · exact Nat.zero_le 1
    | _ => cases hp

/-- In every run without a crash the children of a key never overlap and at most one of them passes. Where every clock
is read in time, a failure is shared only with requests that had come before its run gave the lock back. -/
theorem run_deduplicates (hkill : ∀ i, Move.kill i ∉ ms) (hrun : (State.start clock).run (board blake) ms = some s) :
    (∀ k, (s.shared.running.filter fun c => c.2 = k).length ≤ 1) ∧ (∀ k, s.shared.passes k ≤ 1) ∧
      ((State.start clock).Along (board blake) Timely ms → ∀ i call r,
        s.live i = some (call, .done (.ok (.joined r))) → r.exitCode ≠ 0 → Shares i r s.shared) := by
  have hcalm : (State.start clock).Along (board blake) (Calm False) ms :=
    Pool.along_true.mono hkill fun _ _ _ _ _ hfalse => hfalse.elim
  have hown := own_of_orderly (orderly_run hcalm hrun)
  refine ⟨running_le_one hown, passes_le_one hown, ?_⟩
  intro htimely i call r hlive hcode
  have hstrict : (State.start clock).Along (board blake) (Calm True) ms :=
    htimely.mono hkill fun _ _ _ _ ht _ => ht
  have hi := orderly_run hstrict hrun i
  rw [hlive] at hi
  obtain ⟨ph, hends, hown⟩ := hi
  obtain rfl : ph = .left (some r) := hends
  exact hown.knows trivial _ rfl hcode

end Runs

/-- A job of one command that needs no resources. -/
def oneJob : Board × Job := (⟨1, 0, 0⟩, ⟨"unit", "tester", "/w", ["src"], ["check"], false, [], "test"⟩)

def turns (i n : Nat) : List Step := List.replicate n (.serve i { key := "k" })

/-- A first request executes, a second one waits, the child fails, and the record is written. -/
def failedRun : List Step :=
  [.start oneJob, .start oneJob] ++ turns 0 7 ++ turns 1 4 ++ [.serve 0 { exitCode := 3 }] ++ turns 0 6

def joinedRun : List Step := failedRun ++ turns 1 4

/-- While the second one still holds the lock, a third calls `run`, all in the same second. -/
def lateRun : List Step := failedRun ++ turns 1 1 ++ [.start oneJob] ++ turns 2 4 ++ turns 1 3 ++ turns 2 4

theorem run_deduplicates_joinedRun : ∃ s call r, (State.start 10).run (board fun _ => noParent) joinedRun = some s ∧
    s.live 1 = some (call, .done (.ok (.joined r))) ∧ r.exitCode = 3 ∧ Shares 1 r s.shared := by
  have hrun : ∃ s call r, (State.start 10).run (board fun _ => noParent) joinedRun = some s ∧
      s.live 1 = some (call, .done (.ok (.joined r))) ∧ r.exitCode = 3 := ⟨_, _, _, rfl, rfl, rfl⟩
  obtain ⟨s, call, r, hs, hlive, hcode⟩ := hrun
  have hkill : ∀ i, Move.kill i ∉ joinedRun := by
    intro i hi
    simp [joinedRun, failedRun, turns] at hi
  have htimely : (State.start 10).Along (board fun _ => noParent) Timely joinedRun := by
    -- two clocks are read, both before a failure is on record
    repeat' constructor
    · intro k r _ _ hr
      cases hr
    · intro k r _ _ hr
      cases hr
  refine ⟨s, call, r, hs, hlive, hcode, ?_⟩
  exact (run_deduplicates hkill hs).2.2 htimely 1 call r hlive (by rw [hcode]; decide)

/-- The third request had not come when the failed run gave its lock back, and is given the failure. -/
theorem late_request_joins : ∃ s call r, (State.start 10).run (board fun _ => noParent) lateRun = some s ∧
    s.live 2 = some (call, .done (.ok (.joined r))) ∧ r.exitCode ≠ 0 ∧ ¬ Shares 2 r s.shared := by
  refine ⟨_, _, _, rfl, rfl, by decide, ?_⟩
  rintro ⟨j, hj, hatt⟩
  obtain rfl : j = 0 := (Prod.mk.inj (List.mem_singleton.1 hj)).1
  have hthere : 2 ∈ [1, 0] := hatt [1, 0] (List.mem_cons_of_mem _ (List.mem_cons_of_mem _ List.mem_cons_self))
  exact absurd hthere (by decide)

end SovereignCore.Board
