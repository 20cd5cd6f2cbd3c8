import SovereignCore.Lib.Json

/-!
# The journal of a compose home

The host records of the Cortex journal, and what a call under the home lock can do to them: append, and nothing else.
What the store answers is not decided here. `NoteAnswer` is what one append met and `Disk` what one locked call met; a
call that fails after its append, or a process that stops there, leaves the record behind.

* `append` : one host note; `withHome` : one locked call, and the record mark after it;
* `Increasing` : record ids grow along the journal.
-/

namespace SovereignCore.Effects

open SovereignCore.Json

/-- A host record of the journal, as `record_view` gives it. -/
structure RecordView where
  id : UInt64
  links : List UInt64
  verified : Bool
  note : Option String
  text : Option String

inductive NoteKind
  | constraint
  | authorization
  | effect
  deriving DecidableEq, Repr

def NoteKind.name : NoteKind → String
  | constraint => "constraint"
  | authorization => "authorization"
  | effect => "effect"

/-- What one append met: nothing was written; the record was written and read again; the record was written and the
call failed after that. -/
inductive NoteAnswer
  | refused (why : String)
  | written (id : UInt64)
  | unread (id : UInt64) (why : String)

/-- What one locked call met. -/
structure Disk where
  opens : Option String := none
  recalls : Option String := none
  note : Nat → NoteAnswer
  mark : Option String := none

/-- More host records than one recall reads are refused, not truncated. -/
def hostRecallMax : Nat := 4096

/-- A host note as the journal gives it back: four link slots, the text it was written with, its digest verified. -/
def hostNote (id : UInt64) (kind : NoteKind) (links : List UInt64) (text : String) : RecordView where
  id := id
  links := (links ++ [0, 0, 0, 0]).take 4
  verified := true
  note := some kind.name
  text := some text

def append (J : List RecordView) (kind : NoteKind) (links : List UInt64) (text : String) :
    NoteAnswer → List RecordView × Except String UInt64
  | .refused why => (J, .error why)
  | .written id => (J ++ [hostNote id kind links text], .ok id)
  | .unread id why => (J ++ [hostNote id kind links text], .error why)

/-- A call under the home lock. The closure may have appended even when it failed; the mark follows either way. -/
def withHome {α : Type} (d : Disk) (J : List RecordView)
    (f : List RecordView → List RecordView × Except String α) : List RecordView × Except String α :=
  match d.opens with
  | some why => (J, .error why)
  | none =>
    match d.mark with
    | some why => ((f J).1, .error s!"record mark update failed after the operation (E_MARK_WRITE): {why}")
    | none => f J

def Increasing (J : List RecordView) : Prop := J.Pairwise fun r r' => r.id < r'.id

theorem append_cases (J : List RecordView) (kind : NoteKind) (links : List UInt64) (text : String) (a : NoteAnswer) :
    ((append J kind links text a).1 = J ∧ ∃ why, (append J kind links text a).2 = .error why) ∨
      ∃ id, (append J kind links text a).1 = J ++ [hostNote id kind links text] ∧
        ∀ i, (append J kind links text a).2 = .ok i → i = id := by
  cases a with
  | refused why => exact Or.inl ⟨rfl, why, rfl⟩
  | written id => exact Or.inr ⟨id, rfl, fun i h => (Except.ok.inj h).symm⟩
  | unread id why => exact Or.inr ⟨id, rfl, fun i h => by cases h⟩

theorem withHome_cases {α : Type} (d : Disk) (J : List RecordView)
    (f : List RecordView → List RecordView × Except String α) :
    (withHome d J f).1 = J ∧ (∃ why, (withHome d J f).2 = .error why) ∨ (withHome d J f).1 = (f J).1 ∧
      ∀ a, (withHome d J f).2 = .ok a → (f J).2 = .ok a := by
  unfold withHome
  cases d.opens with
  | some why => exact Or.inl ⟨rfl, why, rfl⟩
  | none =>
    cases d.mark with
    | some why => exact Or.inr ⟨rfl, fun a h => by cases h⟩
    | none => exact Or.inr ⟨rfl, fun a h => h⟩

theorem Increasing.id_lt {J : List RecordView} {r : RecordView} (h : Increasing (J ++ [r])) :
    ∀ r' ∈ J, r'.id < r.id := by
  intro r' hr'
  exact (List.pairwise_append.1 h).2.2 r' hr' r (by simp)

theorem Increasing.left {J K : List RecordView} (h : Increasing (J ++ K)) : Increasing J :=
  (List.pairwise_append.1 h).1

end SovereignCore.Effects
