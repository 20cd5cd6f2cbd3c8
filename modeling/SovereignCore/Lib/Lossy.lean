import SovereignCore.Lib.Text

/-!
# Text from bytes that may not be UTF-8

`String::from_utf8_lossy`: what is no UTF-8 is shown as U+FFFD, once for each longest beginning of a sequence.

* `front` : the first character and the length of its bytes; `lossy` : all of them.
-/

namespace SovereignCore.Text

/-- How many bytes the sequence has that a byte begins, 0 where none begins with it. -/
def sequenceWidth (b : UInt8) : Nat :=
  if b.toNat < 0x80 then 1
  else if b.toNat < 0xC2 then 0
  else if b.toNat < 0xE0 then 2
  else if b.toNat < 0xF0 then 3
  else if b.toNat < 0xF5 then 4
  else 0

def isContinuation (b : UInt8) : Prop := 0x80 ≤ b.toNat ∧ b.toNat < 0xC0

instance (b : UInt8) : Decidable (isContinuation b) := inferInstanceAs (Decidable (_ ∧ _))

/-- The second bytes that can follow a first one: no long forms, no surrogates, nothing above U+10FFFF. -/
def secondFits (b c : UInt8) : Prop :=
  (if b.toNat = 0xE0 then 0xA0 else if b.toNat = 0xF0 then 0x90 else 0x80) ≤ c.toNat ∧
    c.toNat < if b.toNat = 0xED then 0xA0 else if b.toNat = 0xF4 then 0x90 else 0xC0

instance (b c : UInt8) : Decidable (secondFits b c) := inferInstanceAs (Decidable (_ ∧ _))

def replacement : Char := '\uFFFD'

/-- The character at the front, and how many bytes it stands for. Bytes past the end read as 0. -/
def front (b : UInt8) (bs : List UInt8) : Char × Nat :=
  let c := bs.getD 0 0
  let d := bs.getD 1 0
  let e := bs.getD 2 0
  match sequenceWidth b with
  | 1 => (Char.ofNat b.toNat, 1)
  | 2 =>
    if ¬ isContinuation c then (replacement, 1)
    else (Char.ofNat (b.toNat % 32 * 64 + c.toNat % 64), 2)
  | 3 =>
    if ¬ secondFits b c then (replacement, 1)
    else if ¬ isContinuation d then (replacement, 2)
    else (Char.ofNat (b.toNat % 16 * 4096 + c.toNat % 64 * 64 + d.toNat % 64), 3)
  | 4 =>
    if ¬ secondFits b c then (replacement, 1)
    else if ¬ isContinuation d then (replacement, 2)
    else if ¬ isContinuation e then (replacement, 3)
    else (Char.ofNat (b.toNat % 8 * 262144 + c.toNat % 64 * 4096 + d.toNat % 64 * 64 + e.toNat % 64), 4)
  | _ => (replacement, 1)

def lossyFrom : Nat → List UInt8 → List Char
  | 0, _ => []
  | _ + 1, [] => []
  | n + 1, b :: bs => (front b bs).1 :: lossyFrom n ((b :: bs).drop (front b bs).2)

def lossy (bs : List UInt8) : String := String.ofList (lossyFrom bs.length bs)

end SovereignCore.Text
