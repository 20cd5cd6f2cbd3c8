import Mathlib.Data.List.Infix

/-!
# Turns of a dispatcher with two classes

A dispatcher serves two classes of jobs, and the favoured one may go first a bounded number of times while a job of the
other class waits. Its log has one turn per job, with the class that was served and whether the other class had to wait.

* `Fair bound log` : at most `bound` bypasses in a row, and no two turns of the other class while the favoured one waits;
* `Credited bound credits log` : a dispatcher that counts its credits; one rule for each way to serve;
* `Credited.fair` : such a dispatcher is fair.
-/

namespace SovereignCore

/-- One turn: who was served, and whether a job of the class that was not served had to wait. -/
structure Turn where
  favoured : Bool
  contended : Bool
  deriving DecidableEq, Repr

namespace Turn

def Bypass (t : Turn) : Prop := t.favoured = true ∧ t.contended = true

instance (t : Turn) : Decidable t.Bypass := inferInstanceAs (Decidable (_ ∧ _))

def bypasses (log : List Turn) : Nat := (log.reverse.takeWhile fun t => t.Bypass).length

structure Fair (bound : Nat) (log : List Turn) : Prop where
  bypass : ∀ run, run <:+: log → (∀ t ∈ run, t.Bypass) → run.length ≤ bound
  alternate : ∀ a b, [a, b] <:+: log → a.favoured = false → b.favoured = false → b.contended = false

/-- What holds of a dispatcher with `credits` bypasses left. -/
structure Credited (bound credits : Nat) (log : List Turn) : Prop where
  fair : Fair bound log
  left : bypasses log + credits ≤ bound
  fresh : ∀ t, log.getLast? = some t → t.favoured = false → 0 < credits

section Log

variable {log : List Turn} {t : Turn}

theorem bypasses_snoc_of (h : t.Bypass) : bypasses (log ++ [t]) = bypasses log + 1 := by
  simp [bypasses, h]

theorem bypasses_snoc_of_not (h : ¬ t.Bypass) : bypasses (log ++ [t]) = 0 := by
  simp [bypasses, h]

theorem length_le_bypasses {run : List Turn} (h : run <:+ log) (hall : ∀ t ∈ run, t.Bypass) :
    run.length ≤ bypasses log := by
  obtain ⟨pre, rfl⟩ := h
  have hrev : ∀ t ∈ run.reverse, decide t.Bypass = true := fun t ht => by simpa using hall t (List.mem_reverse.1 ht)
  rw [bypasses, List.reverse_append, List.takeWhile_append_of_pos hrev, List.length_append, List.length_reverse]
  exact Nat.le_add_right _ _

theorem Fair.nil (bound : Nat) : Fair bound [] where
  bypass run h _ := by
    rw [List.infix_nil.1 h]
    exact Nat.zero_le _
  alternate a b h := by simp at h

theorem Fair.snoc {bound : Nat} (h : Fair bound log) (hb : bypasses (log ++ [t]) ≤ bound)
    (ha : ∀ a, log.getLast? = some a → a.favoured = false → t.favoured = false → t.contended = false) :
    Fair bound (log ++ [t]) where
  bypass run hrun hall := by
    rcases List.infix_concat_iff.1 hrun with hsuf | hin
    · exact (length_le_bypasses hsuf hall).trans hb
    · exact h.bypass run hin hall
  alternate a b hab := by
    rcases List.infix_concat_iff.1 hab with hsuf | hin
    · obtain ⟨pre, hpre⟩ := hsuf
      have hsplit : pre ++ [a] = log ∧ b = t := by
        have : (pre ++ [a]) ++ [b] = log ++ [t] := by simpa using hpre
        simpa using List.append_inj' this rfl
      obtain ⟨rfl, rfl⟩ := hsplit
      exact ha a (by simp)
    · exact h.alternate a b hin

end Log

namespace Credited

variable {bound credits : Nat} {log : List Turn}

theorem nil : Credited bound bound [] := ⟨.nil bound, by simp [bypasses], fun _ h => by simp at h⟩

/-- The favoured class is served while nobody else waits; a credit may be lost. -/
theorem idle (h : Credited bound credits log) {credits' : Nat} (hc : credits' ≤ bound) :
    Credited bound credits' (log ++ [⟨true, false⟩]) where
  fair := h.fair.snoc (by simp [bypasses_snoc_of_not, Bypass]) (by simp)
  left := by
    rw [bypasses_snoc_of_not (by simp [Bypass])]
    omega
  fresh := by simp

theorem pass (h : Credited bound (credits + 1) log) : Credited bound credits (log ++ [⟨true, true⟩]) := by
  have hcount : bypasses (log ++ [⟨true, true⟩]) = bypasses log + 1 := bypasses_snoc_of ⟨rfl, rfl⟩
  have hleft := h.left
  exact ⟨h.fair.snoc (by omega) (by simp), by omega, by simp⟩

/-- The other class is served while the favoured one does not wait. -/
theorem yield (h : Credited bound credits log) (hb : 0 < bound) : Credited bound bound (log ++ [⟨false, false⟩]) where
  fair := h.fair.snoc (by simp [bypasses_snoc_of_not, Bypass]) (by simp)
  left := by rw [bypasses_snoc_of_not (by simp [Bypass]), Nat.zero_add]
  fresh := fun _ _ _ => hb

/-- The other class has its turn once the credits are used up. The turn before was not of this class. -/
theorem turn (h : Credited bound 0 log) (hb : 0 < bound) : Credited bound bound (log ++ [⟨false, true⟩]) where
  fair := h.fair.snoc (by simp [bypasses_snoc_of_not, Bypass])
    fun a ha hf => absurd (h.fresh a ha hf) (Nat.lt_irrefl 0)
  left := by rw [bypasses_snoc_of_not (by simp [Bypass]), Nat.zero_add]
  fresh := fun _ _ _ => hb

end Credited

end Turn

end SovereignCore
