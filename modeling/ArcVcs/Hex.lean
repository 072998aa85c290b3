import ArcVcs.Atom

/-!
# Hexadecimal text
-/

namespace ArcVcs

/-- The value of a hexadecimal digit in ASCII. -/
def nybble (c : UInt8) : Option ℕ :=
  if 48 ≤ c ∧ c ≤ 57 then some (c.toNat - 48)
  else if 97 ≤ c ∧ c ≤ 102 then some (c.toNat - 97 + 10)
  else if 65 ≤ c ∧ c ≤ 70 then some (c.toNat - 65 + 10)
  else none

/-- `u8::from_str_radix` on two characters, which takes a plus sign before a digit. -/
def fromStrRadix (hi lo : UInt8) : Option ℕ :=
  if hi = 43 then nybble lo
  else do
    let hi ← nybble hi
    let lo ← nybble lo
    some (16 * hi + lo)

/-- The bytes that the digits spell, two by two. -/
def hexBytes (pair : UInt8 → UInt8 → Option ℕ) : Bytes → Option Bytes
  | [] => some []
  | [_] => none
  | hi :: lo :: rest => do
      let byte ← pair hi lo
      let bytes ← hexBytes pair rest
      some (UInt8.ofNat byte :: bytes)

end ArcVcs
