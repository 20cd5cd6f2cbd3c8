import Mathlib.Data.List.Basic

/-!
# Traces

A trace is a list of events, oldest first, that only grows at its end.

* `Always P h` : every event of `h` is as `P` allows after the events before it;
* `Pending p q h` : some event of kind `p` was not followed by one of kind `q`;
* `always_concat`, `pending_concat` : the two when an event is added; both can be decided.
-/

namespace SovereignCore

variable {ε : Type} {P P' : List ε → ε → Prop} {p q : ε → Prop} {h l : List ε} {e : ε}

/-- `P before e` holds of every event `e` and the events before it. -/
def Always (P : List ε → ε → Prop) (h : List ε) : Prop := ∀ before e after, h = before ++ e :: after → P before e

/-- Some event of kind `p` has no event of kind `q` after it. -/
def Pending (p q : ε → Prop) (h : List ε) : Prop :=
  ∃ before e after, h = before ++ e :: after ∧ p e ∧ ∀ e' ∈ after, ¬ q e'

theorem append_singleton_split {before after : List ε} {a : ε} (hs : h ++ [e] = before ++ a :: after) :
    (∃ after', after = after' ++ [e] ∧ h = before ++ a :: after') ∨ (after = [] ∧ a = e ∧ before = h) := by
  rcases List.eq_nil_or_concat after with rfl | ⟨after', b, rfl⟩
  · obtain ⟨rfl, heq⟩ := List.append_inj' hs rfl
    exact .inr ⟨rfl, (List.singleton_inj.1 heq).symm, rfl⟩
  · rw [List.concat_eq_append, ← List.cons_append, ← List.append_assoc] at hs
    obtain ⟨rfl, heq⟩ := List.append_inj' hs rfl
    obtain rfl := List.singleton_inj.1 heq
    exact .inl ⟨after', List.concat_eq_append, rfl⟩

theorem always_nil : Always P [] := fun before _ _ hs => by cases before <;> cases hs

theorem always_concat : Always P (h ++ [e]) ↔ Always P h ∧ P h e := by
  constructor
  · intro ha
    refine ⟨fun before a after hs => ha before a (after ++ [e]) ?_, ha h e [] rfl⟩
    rw [hs, List.append_assoc, List.cons_append]
  · rintro ⟨ha, hlast⟩ before a after hs
    rcases append_singleton_split hs with ⟨after', -, hs'⟩ | ⟨-, rfl, rfl⟩
    · exact ha before a after' hs'
    · exact hlast

theorem Always.append (ha : Always P h) (hl : ∀ e ∈ l, ∀ before, P before e) : Always P (h ++ l) := by
  induction l generalizing h with
  | nil => rwa [List.append_nil]
  | cons a l ih =>
    rw [← List.singleton_append, ← List.append_assoc]
    exact ih (always_concat.2 ⟨ha, hl a List.mem_cons_self h⟩) fun e he => hl e (List.mem_cons_of_mem a he)

theorem not_pending_nil : ¬ Pending p q ([] : List ε) := by
  rintro ⟨before, e, after, hs, -⟩
  cases before <;> cases hs

theorem pending_concat : Pending p q (h ++ [e]) ↔ (Pending p q h ∧ ¬ q e) ∨ p e := by
  constructor
  · rintro ⟨before, a, after, hs, hp, hq⟩
    rcases append_singleton_split hs with ⟨after', rfl, hs'⟩ | ⟨-, rfl, -⟩
    · refine .inl ⟨⟨before, a, after', hs', hp, fun b hb => hq b (List.mem_append_left _ hb)⟩, ?_⟩
      exact hq e (List.mem_append_right _ (List.mem_singleton_self e))
    · exact .inr hp
  · rintro (⟨⟨before, a, after, rfl, hp, hq⟩, he⟩ | hp)
    · refine ⟨before, a, after ++ [e], by rw [List.append_assoc, List.cons_append], hp, fun b hb => ?_⟩
      rcases List.mem_append.1 hb with hb | hb
      · exact hq b hb
      · exact List.mem_singleton.1 hb ▸ he
    · exact ⟨h, e, [], rfl, hp, nofun⟩

theorem pending_append (hl : ∀ e ∈ l, ¬ p e) (hpend : Pending p q (h ++ l)) : Pending p q h := by
  induction l generalizing h with
  | nil => rwa [List.append_nil] at hpend
  | cons a l ih =>
    rw [← List.singleton_append, ← List.append_assoc] at hpend
    have hmid := ih (fun e he => hl e (List.mem_cons_of_mem a he)) hpend
    exact ((pending_concat.1 hmid).resolve_right (hl a List.mem_cons_self)).1

/-! ## Deciding -/

theorem split_at {before after : List ε} (hs : h = before ++ e :: after) :
    before = h.take before.length ∧ h[before.length]? = some e ∧ after = h.drop (before.length + 1) := by
  subst hs
  refine ⟨(List.take_left).symm, ?_, ?_⟩
  · rw [List.getElem?_append_right (Nat.le_refl _), Nat.sub_self]
    rfl
  · rw [List.drop_append, Nat.add_sub_cancel_left, List.drop_of_length_le (Nat.le_succ _)]
    rfl

theorem always_iff : Always P h ↔ ∀ i : Fin h.length, P (h.take i) h[i] := by
  constructor
  · intro ha i
    refine ha (h.take i) h[i] (h.drop (i + 1)) ?_
    rw [Fin.getElem_fin, ← List.drop_eq_getElem_cons i.isLt, List.take_append_drop]
  · intro ha before a after hs
    obtain ⟨hb, hget, -⟩ := split_at hs
    obtain ⟨hlt, hget⟩ := List.getElem?_eq_some_iff.1 hget
    rw [hb, ← hget]
    exact ha ⟨before.length, hlt⟩

theorem pending_iff : Pending p q h ↔ ∃ i : Fin h.length, p h[i] ∧ ∀ e ∈ h.drop (i + 1), ¬ q e := by
  constructor
  · rintro ⟨before, a, after, hs, hp, hq⟩
    obtain ⟨-, hget, hafter⟩ := split_at hs
    obtain ⟨hlt, hget⟩ := List.getElem?_eq_some_iff.1 hget
    exact ⟨⟨before.length, hlt⟩, by rwa [Fin.getElem_fin, hget], fun e he => hq e (hafter ▸ he)⟩
  · rintro ⟨i, hp, hq⟩
    refine ⟨h.take i, h[i], h.drop (i + 1), ?_, hp, hq⟩
    rw [Fin.getElem_fin, ← List.drop_eq_getElem_cons i.isLt, List.take_append_drop]

instance [∀ before e, Decidable (P before e)] : Decidable (Always P h) := decidable_of_iff _ always_iff.symm

instance [DecidablePred p] [DecidablePred q] : Decidable (Pending p q h) := decidable_of_iff _ pending_iff.symm

end SovereignCore
