import SovereignCore.Lib.Wire

/-!
# Encodings that can be read off the front

* `Framed P enc` : what `enc` writes of the values that `P` admits can be read off the front of anything;
* `Framed.of_width`, `Framed.counted` : equally long encodings, and those with their length in front;
* `Framed.append` : one after the other; `Framed.flatMap_inj` : many after each other;
* `framed_leBytes`, `framed_beBytes` : numbers of a fixed width.
-/

namespace SovereignCore

variable {α β τ : Type}

/-- What `enc` writes of the values that `P` admits can be read off the front of anything. -/
def Framed (P : α → Prop) (enc : α → List τ) : Prop :=
  ∀ ⦃a b : α⦄ ⦃u v : List τ⦄, P a → P b → enc a ++ u = enc b ++ v → a = b ∧ u = v

theorem Framed.of_width {enc : α → List τ} {n : Nat} (hlen : ∀ a, (enc a).length = n) (hinj : Function.Injective enc) :
    Framed (fun _ => True) enc := by
  intro a b u v _ _ h
  obtain ⟨hab, huv⟩ := List.append_inj h ((hlen a).trans (hlen b).symm)
  exact ⟨hinj hab, huv⟩

theorem Framed.counted {P : Nat → Prop} {len : Nat → List τ} {body : α → List τ} (hlen : Framed P len)
    (hinj : Function.Injective body) : Framed (fun a => P (body a).length) fun a => len (body a).length ++ body a := by
  intro a b u v ha hb h
  rw [List.append_assoc, List.append_assoc] at h
  obtain ⟨hsize, hrest⟩ := hlen ha hb h
  obtain ⟨hab, huv⟩ := List.append_inj hrest hsize
  exact ⟨hinj hab, huv⟩

theorem Framed.append {P : α → Prop} {Q : β → Prop} {enc : α → List τ} {enc' : β → List τ} (h : Framed P enc)
    (h' : Framed Q enc') : Framed (fun x : α × β => P x.1 ∧ Q x.2) fun x => enc x.1 ++ enc' x.2 := by
  rintro ⟨a, c⟩ ⟨b, d⟩ u v ⟨ha, hc⟩ ⟨hb, hd⟩ he
  rw [List.append_assoc, List.append_assoc] at he
  obtain ⟨rfl, hrest⟩ := h ha hb he
  obtain ⟨rfl, huv⟩ := h' hc hd hrest
  exact ⟨rfl, huv⟩

theorem Framed.flatMap_inj {P : α → Prop} {enc : α → List τ} (h : Framed P enc) (hne : ∀ a, enc a ≠ []) :
    ∀ {l l' : List α}, (∀ a ∈ l, P a) → (∀ a ∈ l', P a) → l.flatMap enc = l'.flatMap enc → l = l'
  | [], [], _, _, _ => rfl
  | [], b :: _, _, _, he => by
    rw [List.flatMap_nil, List.flatMap_cons] at he
    exact absurd (List.append_eq_nil_iff.1 he.symm).1 (hne b)
  | a :: _, [], _, _, he => by
    rw [List.flatMap_nil, List.flatMap_cons] at he
    exact absurd (List.append_eq_nil_iff.1 he).1 (hne a)
  | a :: l, b :: l', hl, hl', he => by
    rw [List.flatMap_cons, List.flatMap_cons] at he
    obtain ⟨rfl, hrest⟩ := h (hl a List.mem_cons_self) (hl' b List.mem_cons_self) he
    rw [h.flatMap_inj hne (fun c hc => hl c (List.mem_cons_of_mem _ hc))
      (fun c hc => hl' c (List.mem_cons_of_mem _ hc)) hrest]

theorem framed_leBytes (w : Nat) : Framed (fun n => n < 256 ^ w) (leBytes w) := by
  intro m n u v hm hn h
  obtain ⟨hmn, huv⟩ := List.append_inj h (by rw [length_leBytes, length_leBytes])
  have hvalue := congrArg leValue hmn
  rw [leValue_leBytes w m hm, leValue_leBytes w n hn] at hvalue
  exact ⟨hvalue, huv⟩

theorem framed_beBytes (w : Nat) : Framed (fun n => n < 256 ^ w) (Wire.beBytes w) := by
  intro m n u v hm hn h
  obtain ⟨hmn, huv⟩ := List.append_inj h (by rw [Wire.length_beBytes, Wire.length_beBytes])
  have hvalue := congrArg Wire.beValue hmn
  rw [Wire.beValue_beBytes hm, Wire.beValue_beBytes hn] at hvalue
  exact ⟨hvalue, huv⟩

end SovereignCore
