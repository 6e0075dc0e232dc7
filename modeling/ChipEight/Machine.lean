/-
# The machine

What instructions work on: sixteen byte registers, the address register `I`,
the program counter, the saved return addresses, the timers, the register that
a key is awaited for, memory, the screen, the keypad and the source of random
bytes.

Key definitions: `Machine`, `Machine.initial`, `Machine.setV`,
`Machine.setFlag`, `Machine.push`, `Machine.pop`.
-/
import ChipEight.Failure
import ChipEight.Instruction
import ChipEight.Keypad
import ChipEight.Memory
import ChipEight.Random
import ChipEight.Screen
import ChipEight.Timers

namespace ChipEight

/-- The state of a machine between two instructions. -/
structure Machine where
  /-- The registers `V0` to `VF`. -/
  v : Vector UInt8 16
  /-- The address register. -/
  i : Address
  /-- The address of the next instruction. It may lie past the end of memory,
  where there is no instruction to run. -/
  pc : Nat
  /-- The saved return addresses, the latest first. -/
  calls : List UInt16
  timers : Timers
  /-- The register that awaits a key, while the machine stands still for one. -/
  awaiting : Option Reg
  memory : Memory
  screen : Screen
  keypad : Keypad
  random : RandomSource
  deriving DecidableEq

namespace Machine

/-- How many return addresses can be saved. -/
def callLimit : Nat := 16

/-- A machine that has not been given a program. -/
def initial (keypad : Keypad) (random : RandomSource) : Machine where
  v := Vector.replicate 16 0
  i := Address.zero
  pc := 0
  calls := []
  timers := .off
  awaiting := none
  memory := .withGlyphs
  screen := .dark
  keypad := keypad
  random := random

/-- The value of a register. -/
def get (m : Machine) (x : Reg) : UInt8 := m.v[x]

/-- Put a value in a register. -/
def setV (m : Machine) (x : Reg) (b : UInt8) : Machine := { m with v := m.v.set x b }

/-- Put 1 or 0 in the flag register. -/
def setFlag (m : Machine) (on : Bool) : Machine := m.setV Reg.flag (if on then 1 else 0)

/-- Put an address in `I`, of which the low twelve bits are kept. -/
def setI (m : Machine) (a : Nat) : Machine := { m with i := Address.wrap a }

/-- Go to an address. -/
def goTo (m : Machine) (a : Nat) : Machine := { m with pc := a }

/-- Pass over one instruction. -/
def skip (m : Machine) : Machine := { m with pc := m.pc + 2 }

/-- Pass over one instruction if the condition holds. -/
def skipIf (m : Machine) (condition : Bool) : Machine := if condition then m.skip else m

/-- Save a return address. -/
def push (m : Machine) (a : UInt16) : Except Failure Machine :=
  if m.calls.length < callLimit then .ok { m with calls := a :: m.calls }
  else .error .stackOverflow

/-- Take back the latest return address. -/
def pop (m : Machine) : Except Failure (UInt16 × Machine) :=
  match m.calls with
  | a :: rest => .ok (a, { m with calls := rest })
  | [] => .error .stackUnderflow

/-- The word at the program counter. -/
def word (m : Machine) : UInt16 := m.memory.word m.pc

/-- Whether a whole instruction fits between the program counter and the end of
memory. -/
def inBounds (m : Machine) : Bool := m.pc + 1 < Memory.size

end Machine
end ChipEight
