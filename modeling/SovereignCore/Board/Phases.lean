import SovereignCore.Board.Run

/-!
# The way of one request through the board

`Phase` is where a request stands, with what it has learnt; `protocol` says which requests it makes in which phase.

* `meets_releaseResources`, `meets_acquireNames`, `meets_perform`, `meets_runLocked`, `meets_joinOrLock` : the parts;
* `run_meets` : `run` keeps to the protocol, and joins only what it read while it held the lock.
-/

namespace SovereignCore.Board

open Talk Evidence

inductive Phase where
  | fresh
  | keyed (key : String)
  | refused (key : String)
  | waiting (key : String) (since : Nat)
  | inside (key : String) (since : Nat)
  | sharing (key : String) (record : Record)
  | holding (key : String)
  | clear (key : String)
  | executing (key : String)
  | ran (key : String) (exitCode : Int)
  | left (record : Option Record)

namespace Phase

def held : Phase → Option String
  | inside k _ => some k
  | sharing k _ => some k
  | holding k => some k
  | clear k => some k
  | executing k => some k
  | ran k _ => some k
  | _ => none

def child : Phase → Option String
  | executing k => some k
  | _ => none

def asking : Phase → Option String
  | keyed k => some k
  | refused k => some k
  | _ => none

def gone : Phase → Bool
  | left _ => true
  | _ => false

end Phase

def allows (ph : Phase) : Ask → Prop
  | .jobKey _ => ph = .fresh
  | .readRecord kind k => ph = .keyed k ∨ (∃ t, ph = .inside k t) ∨ ph = .holding k ∧ kind = .stamps
  | .writeRecord kind r => ph = .ran r.key r.exitCode ∧ kind = if r.exitCode = 0 then .stamps else .fails
  | .tryAcquire (.key k) => ph = .keyed k
  | .tryAcquire _ => ∃ k, ph = .clear k
  | .acquire (.key k) => ∃ t, ph = .waiting k t
  | .acquire _ => ∃ k, ph = .clear k
  | .release (.key k) => ph = .holding k ∨ ph = .clear k ∨ ∃ r, ph = .sharing k r
  | .release _ => (∃ k, ph = .holding k) ∨ ∃ k, ph = .clear k
  | .now => (∃ k, ph = .refused k) ∨ ∃ k c, ph = .ran k c
  | .cpuSlot _ => ∃ k, ph = .clear k
  | .waitForMemory _ _ => ∃ k, ph = .clear k
  | .spawn k _ _ => ph = .clear k
  | .wait k => ph = .executing k
  | .readLog _ => ∃ k c, ph = .ran k c
  | .append _ _ _ _ => ∃ k c, ph = .ran k c

def nextPhase : Phase → (q : Ask) → Answer q → Phase
  | .fresh, .jobKey _, key => .keyed key
  | .keyed k, .tryAcquire _, taken => if taken then .holding k else .refused k
  | .refused k, .now, t => .waiting k t
  | .waiting k t, .acquire _, _ => .inside k t
  | .inside k _, .readRecord .stamps _, some r => .sharing k r
  | .inside k t, .readRecord .fails _, some r => if t ≤ r.finishedAt then .sharing k r else .holding k
  | .inside k _, .readRecord .fails _, none => .holding k
  | .holding k, .readRecord _ _, none => .clear k
  | .sharing _ r, .release _, _ => .left (some r)
  | .holding _, .release (.key _), _ => .left none
  | .clear _, .release (.key _), _ => .left none
  | .clear k, .spawn _ _ _, _ => .executing k
  | .executing k, .wait _, exit => .ran k exit.1
  | .ran k _, .writeRecord _ _, _ => .holding k
  | ph, _, _ => ph

def protocol : Protocol Ask Answer Phase := ⟨allows, nextPhase⟩

/-- A shared record is the one that was read while the lock was held. -/
def Ends (ph : Phase) : Except RunError Outcome → Prop
  | .ok (.joined r) => ph = .left (some r)
  | _ => True

section Program

variable {key : String} {α : Type} {post : Phase → α → Prop} {ph : Phase}

theorem meets_releaseResources : ∀ {names : List String}, (∃ k, ph = .holding k) ∨ (∃ k, ph = .clear k) →
    (releaseResources names).Meets protocol (fun ph' _ => ph' = ph) ph
  | [], _ => rfl
  | name :: names, h => by
    apply meets_ask
    · exact h
    · intro a
      have hstay : protocol.next ph (.release (.resource name)) a = ph := by
        obtain ⟨k, rfl⟩ | ⟨k, rfl⟩ := h
        · rfl
        · rfl
      rw [hstay]
      exact meets_releaseResources h

theorem meets_acquireResource (name : String) :
    (acquireResource name).Meets protocol (fun ph' _ => ph' = .clear key) (.clear key) := by
  apply meets_ask
  · exact ⟨key, rfl⟩
  · intro taken
    cases taken with
    | true => rfl
    | false => exact ⟨⟨key, rfl⟩, fun _ => rfl⟩

theorem meets_acquireNames : ∀ {names held : List String},
    (acquireNames held names).Meets protocol (fun ph' _ => ph' = .clear key) (.clear key)
  | [], _ => rfl
  | name :: names, held => by
    unfold acquireNames
    split
    · apply meets_bind
      apply (meets_acquireResource name).mono
      rintro ph' - rfl
      exact meets_acquireNames
    · apply meets_bind
      apply (meets_releaseResources (Or.inr ⟨key, rfl⟩)).mono
      rintro ph' - rfl
      rfl

theorem meets_perform (job : Job) : (perform job key).Meets protocol (fun ph' _ => ph' = .holding key) (.clear key) := by
  refine meets_ask rfl fun _ => ?_
  refine meets_ask rfl fun exit => ?_
  refine meets_ask ⟨key, exit.1, rfl⟩ fun payload => ?_
  refine meets_ask ⟨key, exit.1, rfl⟩ fun event => ?_
  refine meets_ask (Or.inr ⟨key, exit.1, rfl⟩) fun finishedAt => ?_
  refine meets_ask ⟨rfl, rfl⟩ fun _ => ?_
  rfl

theorem meets_runLocked (b : Board) (job : Job) : (runLocked b job key).Meets protocol Ends (.holding key) := by
  refine meets_ask (Or.inr (Or.inr ⟨rfl, rfl⟩)) fun stamp => ?_
  cases stamp with
  | some record => exact ⟨Or.inl rfl, fun _ => trivial⟩
  | none =>
    refine meets_ask ⟨key, rfl⟩ fun slot => ?_
    refine meets_ask ⟨key, rfl⟩ fun _ => ?_
    apply meets_bind
    apply meets_acquireNames.mono
    rintro ph' names rfl
    cases names with
    | error e => exact ⟨Or.inr ⟨key, rfl⟩, fun _ => ⟨Or.inr (Or.inl rfl), fun _ => trivial⟩⟩
    | ok names =>
      apply meets_bind
      apply (meets_perform job).mono
      rintro ph' record rfl
      apply meets_bind
      apply (meets_releaseResources (Or.inl ⟨key, rfl⟩)).mono
      rintro ph' - rfl
      exact ⟨Or.inl ⟨key, rfl⟩, fun _ => ⟨Or.inl rfl, fun _ => trivial⟩⟩

theorem meets_joinOrLock : (joinOrLock key).Meets protocol (fun ph' r => match r with
    | some r => ph' = .sharing key r
    | none => ph' = .holding key) (.keyed key) := by
  refine meets_ask rfl fun taken => ?_
  cases taken with
  | true => rfl
  | false =>
    refine meets_ask (Or.inl ⟨key, rfl⟩) fun waitedFrom => ?_
    refine meets_ask ⟨waitedFrom, rfl⟩ fun _ => ?_
    refine meets_ask (Or.inr (Or.inl ⟨waitedFrom, rfl⟩)) fun stamp => ?_
    cases stamp with
    | some record => rfl
    | none =>
      refine meets_ask (Or.inr (Or.inl ⟨waitedFrom, rfl⟩)) fun failure => ?_
      cases failure with
      | none => rfl
      | some record =>
        by_cases hfrom : waitedFrom ≤ record.finishedAt
        · have hnext : protocol.next (.inside key waitedFrom) (.readRecord .fails key) (some record) =
              .sharing key record := if_pos hfrom
          show Meets _ _ (protocol.next (.inside key waitedFrom) (.readRecord .fails key) (some record)) _
          rw [hnext]
          simp only [if_pos hfrom]
          rfl
        · have hnext : protocol.next (.inside key waitedFrom) (.readRecord .fails key) (some record) = .holding key :=
            if_neg hfrom
          show Meets _ _ (protocol.next (.inside key waitedFrom) (.readRecord .fails key) (some record)) _
          rw [hnext]
          simp only [if_neg hfrom]
          rfl

theorem run_meets (b : Board) (job : Job) : (run b job).Meets protocol Ends .fresh := by
  unfold run
  split
  · trivial
  · refine meets_ask rfl fun key => ?_
    refine meets_ask (Or.inl rfl) fun stamp => ?_
    cases stamp with
    | some record => trivial
    | none =>
      apply meets_bind
      apply meets_joinOrLock.mono
      intro ph' r hr
      cases r with
      | none =>
        obtain rfl := hr
        exact meets_runLocked b job
      | some record =>
        obtain rfl := hr
        exact ⟨Or.inr (Or.inr ⟨record, rfl⟩), fun _ => rfl⟩

end Program

end SovereignCore.Board
