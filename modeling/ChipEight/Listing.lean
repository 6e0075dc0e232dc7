/-
# Listings

A program in memory as text: a line for every two bytes, with the address, the
bytes and the instruction they stand for, if they do.

Key definitions: `Listing.Line`, `Listing.lines`.
-/
import ChipEight.Instruction.Mnemonic
import ChipEight.Memory

namespace ChipEight
namespace Listing

/-- One line: an address and the word there. -/
structure Line where
  address : Nat
  word : UInt16
  deriving DecidableEq, Repr

namespace Line

/-- The instruction in the line, if its word is one. -/
def instruction (l : Line) : Option Instruction := Instruction.decode l.word

/-- The instruction behind a blank, if the word is one. -/
def mnemonic (l : Line) : List Char :=
  match l.instruction with
  | some i => ' ' :: i.mnemonic.chars
  | none => []

/-- The line in writing. -/
def chars (l : Line) : List Char :=
  Hex.upperDigits 4 l.address ++ ':' :: ' ' :: Hex.upperDigits 4 l.word.toNat ++ l.mnemonic

/-- The line as text. -/
def text (l : Line) : String := String.ofList l.chars

end Line

/-- The lines of the first `count` bytes from the program's start on. An odd
last byte is shown together with the byte after it. -/
def lines (m : Memory) (count : Nat) : List Line :=
  (List.range ((count + 1) / 2)).map fun k =>
    let address := Memory.programStart + 2 * k
    ⟨address, m.word address⟩

end Listing
end ChipEight
