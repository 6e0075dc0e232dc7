/-
# Hexadecimal columns

Numbers as the listings and messages show them: base sixteen, at least `width`
digits, padded on the left with zeros and never cut short.

Key definitions: `Hex.upper`, `Hex.lower`.
-/

namespace ChipEight
namespace Hex

/-- The digits of `n`, lower case, padded to at least `width`. -/
def lowerDigits (width n : Nat) : List Char :=
  (Nat.toDigits 16 n).leftpad width '0'

/-- The digits of `n`, upper case, padded to at least `width`. -/
def upperDigits (width n : Nat) : List Char :=
  ((Nat.toDigits 16 n).map Char.toUpper).leftpad width '0'

/-- `n` in lower-case hexadecimal, at least `width` digits wide. -/
def lower (width n : Nat) : String :=
  String.ofList (lowerDigits width n)

/-- `n` in upper-case hexadecimal, at least `width` digits wide. -/
def upper (width n : Nat) : String :=
  String.ofList (upperDigits width n)

end Hex
end ChipEight
