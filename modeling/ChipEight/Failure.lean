/-
# What can go wrong

The causes for which a machine stops or a program is not taken, with the words
they are reported in. The first four arise while instructions run and leave
the program no way to go on (`Failure.isFatal`); the others arise before the
first instruction.

Key definitions: `Failure`, `Failure.message`, `Failure.isFatal`.
-/
import ChipEight.Text.Hex

namespace ChipEight

/-- Why a machine stopped or a program was not taken. -/
inductive Failure where
  /-- A call while all sixteen places for return addresses are taken. -/
  | stackOverflow
  /-- A return while no return address is saved. -/
  | stackUnderflow
  /-- The word at `address` is no instruction. -/
  | invalidOpcode (word : UInt16) (address : Nat)
  /-- The next instruction would lie outside memory, or a jump leads there. -/
  | addressOutOfRange (address : Nat)
  /-- There is no program file of this name. -/
  | romNotFound (path : String)
  /-- The program has more bytes than fit between its start and the end of memory. -/
  | romTooLarge (size limit : Nat)
  /-- The program file is there but cannot be read. -/
  | unreadable (cause : String)
  deriving DecidableEq, Repr

namespace Failure

/-- The words a failure is reported in. -/
def message : Failure → String
  | stackOverflow => "call stack overflow"
  | stackUnderflow => "call stack underflow"
  | invalidOpcode word address =>
    "invalid opcode " ++ Hex.upper 4 word.toNat ++ " at 0x" ++ Hex.upper 3 address
  | addressOutOfRange address =>
    "program counter out of range: 0x" ++ Hex.upper 4 address
  | romNotFound path => "rom not found: " ++ path
  | romTooLarge size limit =>
    "program too large for VM memory: " ++ Nat.repr size ++ " bytes, max " ++ Nat.repr limit
  | unreadable cause => cause

/-- Whether the failure ended a running program. -/
def isFatal : Failure → Bool
  | stackOverflow | stackUnderflow | invalidOpcode _ _ | addressOutOfRange _ => true
  | romNotFound _ | romTooLarge _ _ | unreadable _ => false

end Failure
end ChipEight
