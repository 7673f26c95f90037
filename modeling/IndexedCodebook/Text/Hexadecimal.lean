/-!
# Hexadecimal digits

Digits above nine are letters of either case.

Source: the escapes of `serde_json` and `serde_yaml`.
-/

namespace IndexedCodebook.Text

/-- The value of a hexadecimal digit. -/
def hexValue? (c : Char) : Option Nat :=
  if '0' ≤ c ∧ c ≤ '9' then some (c.toNat - '0'.toNat)
  else if 'a' ≤ c ∧ c ≤ 'f' then some (c.toNat - 'a'.toNat + 10)
  else if 'A' ≤ c ∧ c ≤ 'F' then some (c.toNat - 'A'.toNat + 10)
  else none

/-- The number that digits of a base write, at least one of them. -/
def ofDigits? (base : Nat) (digits : List Char) : Option Nat :=
  if digits.isEmpty then none
  else
    digits.foldlM (fun n d ↦ do
      let v ← hexValue? d
      if v < base then some (n * base + v) else none) 0

end IndexedCodebook.Text
