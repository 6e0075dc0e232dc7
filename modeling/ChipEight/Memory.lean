/-
# Memory

Four kilobytes, addressed around the end: every address counts modulo the
size. The pictures of the sixteen digits lie at the bottom, five rows each,
and programs start at `0x200`.

Key definitions: `Memory`, `Memory.read`, `Memory.writeAll`, `Memory.blank`,
`Memory.withGlyphs`.
Key theorems: `Memory.read_write`.
-/
import ChipEight.Address
import ChipEight.Failure

namespace ChipEight

/-- The bytes of a machine's memory. -/
structure Memory where
  bytes : Vector UInt8 4096
  deriving DecidableEq

namespace Memory

/-- The number of bytes. -/
def size : Nat := 4096

/-- Where programs start. -/
def programStart : Nat := 0x200

/-- The most bytes a program may have. -/
def programLimit : Nat := size - programStart

/-- The rows of one digit's picture. -/
def glyphHeight : Nat := 5

/-- The pictures of the digits `0` to `F`, a byte for each row. -/
def glyphs : List UInt8 :=
  [0xF0, 0x90, 0x90, 0x90, 0xF0,
   0x20, 0x60, 0x20, 0x20, 0x70,
   0xF0, 0x10, 0xF0, 0x80, 0xF0,
   0xF0, 0x10, 0xF0, 0x10, 0xF0,
   0x90, 0x90, 0xF0, 0x10, 0x10,
   0xF0, 0x80, 0xF0, 0x10, 0xF0,
   0xF0, 0x80, 0xF0, 0x90, 0xF0,
   0xF0, 0x10, 0x20, 0x40, 0x40,
   0xF0, 0x90, 0xF0, 0x90, 0xF0,
   0xF0, 0x90, 0xF0, 0x10, 0xF0,
   0xF0, 0x90, 0xF0, 0x90, 0x90,
   0xE0, 0x90, 0xE0, 0x90, 0xE0,
   0xF0, 0x80, 0x80, 0x80, 0xF0,
   0xE0, 0x90, 0x90, 0x90, 0xE0,
   0xF0, 0x80, 0xF0, 0x80, 0xF0,
   0xF0, 0x80, 0xF0, 0x80, 0x80]

/-- Zeros throughout. -/
def blank : Memory := ⟨Vector.replicate 4096 0⟩

/-- The byte at an address. -/
def read (m : Memory) (a : Nat) : UInt8 := m.bytes[Address.wrap a]

/-- Put one byte at an address. -/
def write (m : Memory) (a : Nat) (b : UInt8) : Memory :=
  ⟨m.bytes.set (Address.wrap a) b⟩

/-- Put bytes at an address and the ones after it. -/
def writeAll (m : Memory) (a : Nat) : List UInt8 → Memory
  | [] => m
  | b :: bs => (m.write a b).writeAll (a + 1) bs

/-- The `n` bytes from an address on. -/
def slice (m : Memory) (a n : Nat) : List UInt8 :=
  (List.range n).map fun k => m.read (a + k)

/-- The word at an address, high byte first. -/
def word (m : Memory) (a : Nat) : UInt16 :=
  UInt16.ofNat ((m.read a).toNat * 256 + (m.read (a + 1)).toNat)

/-- Put the pictures of the digits in their place. -/
def drawGlyphs (m : Memory) : Memory := m.writeAll 0 glyphs

/-- Put a program in its place. -/
def putProgram (m : Memory) (program : List UInt8) : Memory :=
  m.writeAll programStart program

/-- Put a program in its place if it fits between there and the end. -/
def takeProgram (m : Memory) (program : List UInt8) : Except Failure Memory :=
  if program.length ≤ programLimit then .ok (m.putProgram program)
  else .error (.romTooLarge program.length programLimit)

/-- The pictures of the digits, and zeros above them. -/
def withGlyphs : Memory := blank.drawGlyphs

@[simp] theorem read_blank (a : Nat) : blank.read a = 0 := by
  simp [read, blank]

theorem read_write (m : Memory) (a c : Nat) (b : UInt8) :
    (m.write a b).read c = if a % 4096 = c % 4096 then b else m.read c := by
  simp [read, write, Vector.getElem_set]

theorem read_mod (m : Memory) (a : Nat) : m.read (a % 4096) = m.read a := by
  simp [read]

end Memory
end ChipEight
