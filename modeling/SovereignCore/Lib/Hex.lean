import Mathlib.Data.List.Basic
import Mathlib.Data.Nat.Digits.Defs

/-!
# Bytes as hexadecimal digits

* `hexDigits`, `hexText` : lowercase digits of bytes (`hexText_inj`).
-/

namespace SovereignCore.Hex

def hexDigits (bs : List UInt8) : List Char :=
  bs.flatMap fun b => [Nat.digitChar (b.toNat / 16), Nat.digitChar (b.toNat % 16)]

def hexText (bs : List UInt8) : String := String.ofList (hexDigits bs)

theorem digitChar_inj {m n : Nat} (hm : m < 16) (hn : n < 16) (h : Nat.digitChar m = Nat.digitChar n) : m = n := by
  have hall : ∀ m < 16, ∀ n < 16, Nat.digitChar m = Nat.digitChar n → m = n := by decide
  exact hall m hm n hn h

theorem hexDigits_inj : ∀ {a b : List UInt8}, hexDigits a = hexDigits b → a = b
  | [], [], _ => rfl
  | [], _ :: _, h => by cases h
  | _ :: _, [], h => by cases h
  | x :: a, y :: b, h => by
    obtain ⟨hhi, h⟩ := List.cons.inj h
    obtain ⟨hlo, h⟩ := List.cons.inj h
    have hx := x.toNat_lt
    have hy := y.toNat_lt
    have hhi := digitChar_inj (by omega) (by omega) hhi
    have hlo := digitChar_inj (by omega) (by omega) hlo
    have hxy : x = y := UInt8.toNat_inj.1 (by omega)
    rw [hxy, hexDigits_inj h]

theorem hexText_inj {a b : List UInt8} : hexText a = hexText b ↔ a = b := by
  constructor
  · intro h
    apply hexDigits_inj
    have hlist := congrArg String.toList h
    unfold hexText at hlist
    rwa [String.toList_ofList, String.toList_ofList] at hlist
  · exact congrArg hexText

end SovereignCore.Hex
