/-
# The instruction set

A CHIP-8 instruction is one sixteen-bit word, high byte first. Its top nibble
picks the family; the rest holds register numbers, a byte, a row count or a
twelve-bit address. Thirty-four patterns are instructions, and no other word
is: the words `0nnn`, which called routines of the host processor, decode to
nothing here.

Key definitions: `Instruction`, `Instruction.decode`, `Instruction.encode`.
-/
import ChipEight.Address

namespace ChipEight

/-- The number of one of the sixteen general registers. -/
abbrev Reg := Fin 16

/-- The register `V0`. -/
def Reg.first : Reg := ⟨0, by decide⟩

/-- The register `VF`, which reports carries, borrows, lost bits and
collisions. -/
def Reg.flag : Reg := ⟨15, by decide⟩

/-- The register with a given number, of which the low four bits count. -/
def Reg.wrap (n : Nat) : Reg := ⟨n % 16, Nat.mod_lt n (by decide)⟩

/-- One operation with its operands. In the comments `x` and `y` name
registers, `b` a byte and `a` an address. -/
inductive Instruction where
  /-- `00E0`: make the screen dark. -/
  | clear
  /-- `00EE`: go back to the latest return address. -/
  | ret
  /-- `1aaa`: go to `a`. -/
  | jump (a : Address)
  /-- `2aaa`: remember the address after this instruction and go to `a`. -/
  | call (a : Address)
  /-- `3xbb`: skip the next instruction if `Vx = b`. -/
  | skipIfByte (x : Reg) (b : UInt8)
  /-- `4xbb`: skip the next instruction unless `Vx = b`. -/
  | skipUnlessByte (x : Reg) (b : UInt8)
  /-- `5xy0`: skip the next instruction if `Vx = Vy`. -/
  | skipIfSame (x y : Reg)
  /-- `6xbb`: `Vx` becomes `b`. -/
  | putByte (x : Reg) (b : UInt8)
  /-- `7xbb`: `Vx` grows by `b`, and the carry is dropped. -/
  | addByte (x : Reg) (b : UInt8)
  /-- `8xy0`: `Vx` becomes `Vy`. -/
  | copy (x y : Reg)
  /-- `8xy1`: bitwise or. -/
  | or (x y : Reg)
  /-- `8xy2`: bitwise and. -/
  | and (x y : Reg)
  /-- `8xy3`: bitwise exclusive or. -/
  | xor (x y : Reg)
  /-- `8xy4`: `Vx` grows by `Vy`, and `VF` is the carry. -/
  | add (x y : Reg)
  /-- `8xy5`: `Vx` shrinks by `Vy`, and `VF` is 0 on a borrow, else 1. -/
  | sub (x y : Reg)
  /-- `8xy6`: shift right, and `VF` is the bit that falls out. -/
  | shiftRight (x y : Reg)
  /-- `8xy7`: `Vx` becomes `Vy - Vx`, and `VF` is 0 on a borrow, else 1. -/
  | subFrom (x y : Reg)
  /-- `8xyE`: shift left, and `VF` is the bit that falls out. -/
  | shiftLeft (x y : Reg)
  /-- `9xy0`: skip the next instruction unless `Vx = Vy`. -/
  | skipUnlessSame (x y : Reg)
  /-- `Aaaa`: `I` becomes `a`. -/
  | pointTo (a : Address)
  /-- `Baaa`: go to `a + V0`. -/
  | jumpPlus (a : Address)
  /-- `Cxbb`: `Vx` becomes a random byte masked by `b`. -/
  | random (x : Reg) (b : UInt8)
  /-- `Dxyn`: draw the `n` rows at `I` with their corner at `(Vx, Vy)`. -/
  | draw (x y : Reg) (n : Fin 16)
  /-- `Ex9E`: skip the next instruction if the key in `Vx` is down. -/
  | skipIfKey (x : Reg)
  /-- `ExA1`: skip the next instruction unless the key in `Vx` is down. -/
  | skipUnlessKey (x : Reg)
  /-- `Fx07`: `Vx` becomes the delay timer. -/
  | readDelay (x : Reg)
  /-- `Fx0A`: stand still until a key goes down, and put it in `Vx`. -/
  | awaitKey (x : Reg)
  /-- `Fx15`: the delay timer becomes `Vx`. -/
  | startDelay (x : Reg)
  /-- `Fx18`: the sound timer becomes `Vx`. -/
  | startSound (x : Reg)
  /-- `Fx1E`: `I` moves on by `Vx`. -/
  | advance (x : Reg)
  /-- `Fx29`: `I` points to the built-in picture of the digit in `Vx`. -/
  | pointToGlyph (x : Reg)
  /-- `Fx33`: the three decimal digits of `Vx` go to memory at `I`. -/
  | storeDecimal (x : Reg)
  /-- `Fx55`: `V0` to `Vx` go to memory at `I`. -/
  | storeRegisters (x : Reg)
  /-- `Fx65`: `V0` to `Vx` come from memory at `I`. -/
  | loadRegisters (x : Reg)
  deriving DecidableEq, Repr

namespace Instruction

/-- The `x` operand: the second nibble from the top. -/
def fieldX (w : UInt16) : Reg := Reg.wrap (w.toNat / 256)

/-- The `y` operand: the third nibble from the top. -/
def fieldY (w : UInt16) : Reg := Reg.wrap (w.toNat / 16)

/-- The row count: the lowest nibble. -/
def fieldN (w : UInt16) : Fin 16 := ⟨w.toNat % 16, Nat.mod_lt _ (by decide)⟩

/-- The byte operand: the low half. -/
def fieldByte (w : UInt16) : UInt8 := UInt8.ofNat w.toNat

/-- The address operand: the low twelve bits. -/
def fieldAddress (w : UInt16) : Address := Address.wrap w.toNat

/-- The instruction that a word stands for, if it stands for one. -/
def decode (w : UInt16) : Option Instruction :=
  let x := fieldX w
  let y := fieldY w
  let b := fieldByte w
  let a := fieldAddress w
  match w.toNat / 4096 with
  | 0x0 =>
    match w.toNat with
    | 0x00E0 => some .clear
    | 0x00EE => some .ret
    | _ => none
  | 0x1 => some (.jump a)
  | 0x2 => some (.call a)
  | 0x3 => some (.skipIfByte x b)
  | 0x4 => some (.skipUnlessByte x b)
  | 0x5 => if w.toNat % 16 = 0 then some (.skipIfSame x y) else none
  | 0x6 => some (.putByte x b)
  | 0x7 => some (.addByte x b)
  | 0x8 =>
    match w.toNat % 16 with
    | 0x0 => some (.copy x y)
    | 0x1 => some (.or x y)
    | 0x2 => some (.and x y)
    | 0x3 => some (.xor x y)
    | 0x4 => some (.add x y)
    | 0x5 => some (.sub x y)
    | 0x6 => some (.shiftRight x y)
    | 0x7 => some (.subFrom x y)
    | 0xE => some (.shiftLeft x y)
    | _ => none
  | 0x9 => if w.toNat % 16 = 0 then some (.skipUnlessSame x y) else none
  | 0xA => some (.pointTo a)
  | 0xB => some (.jumpPlus a)
  | 0xC => some (.random x b)
  | 0xD => some (.draw x y (fieldN w))
  | 0xE =>
    match w.toNat % 256 with
    | 0x9E => some (.skipIfKey x)
    | 0xA1 => some (.skipUnlessKey x)
    | _ => none
  | 0xF =>
    match w.toNat % 256 with
    | 0x07 => some (.readDelay x)
    | 0x0A => some (.awaitKey x)
    | 0x15 => some (.startDelay x)
    | 0x18 => some (.startSound x)
    | 0x1E => some (.advance x)
    | 0x29 => some (.pointToGlyph x)
    | 0x33 => some (.storeDecimal x)
    | 0x55 => some (.storeRegisters x)
    | 0x65 => some (.loadRegisters x)
    | _ => none
  | _ => none

/-- A family nibble above a twelve-bit address. -/
def wordA (family : Nat) (a : Address) : UInt16 :=
  UInt16.ofNat (family * 4096 + a.val)

/-- A family nibble, a register and a byte. -/
def wordXB (family : Nat) (x : Reg) (b : UInt8) : UInt16 :=
  UInt16.ofNat (family * 4096 + x.val * 256 + b.toNat)

/-- A family nibble, two registers and a last nibble. -/
def wordXYN (family : Nat) (x y : Reg) (n : Nat) : UInt16 :=
  UInt16.ofNat (family * 4096 + x.val * 256 + y.val * 16 + n)

/-- The word that stands for an instruction. -/
def encode : Instruction → UInt16
  | .clear => 0x00E0
  | .ret => 0x00EE
  | .jump a => wordA 0x1 a
  | .call a => wordA 0x2 a
  | .skipIfByte x b => wordXB 0x3 x b
  | .skipUnlessByte x b => wordXB 0x4 x b
  | .skipIfSame x y => wordXYN 0x5 x y 0
  | .putByte x b => wordXB 0x6 x b
  | .addByte x b => wordXB 0x7 x b
  | .copy x y => wordXYN 0x8 x y 0x0
  | .or x y => wordXYN 0x8 x y 0x1
  | .and x y => wordXYN 0x8 x y 0x2
  | .xor x y => wordXYN 0x8 x y 0x3
  | .add x y => wordXYN 0x8 x y 0x4
  | .sub x y => wordXYN 0x8 x y 0x5
  | .shiftRight x y => wordXYN 0x8 x y 0x6
  | .subFrom x y => wordXYN 0x8 x y 0x7
  | .shiftLeft x y => wordXYN 0x8 x y 0xE
  | .skipUnlessSame x y => wordXYN 0x9 x y 0
  | .pointTo a => wordA 0xA a
  | .jumpPlus a => wordA 0xB a
  | .random x b => wordXB 0xC x b
  | .draw x y n => wordXYN 0xD x y n.val
  | .skipIfKey x => wordXB 0xE x 0x9E
  | .skipUnlessKey x => wordXB 0xE x 0xA1
  | .readDelay x => wordXB 0xF x 0x07
  | .awaitKey x => wordXB 0xF x 0x0A
  | .startDelay x => wordXB 0xF x 0x15
  | .startSound x => wordXB 0xF x 0x18
  | .advance x => wordXB 0xF x 0x1E
  | .pointToGlyph x => wordXB 0xF x 0x29
  | .storeDecimal x => wordXB 0xF x 0x33
  | .storeRegisters x => wordXB 0xF x 0x55
  | .loadRegisters x => wordXB 0xF x 0x65

end Instruction
end ChipEight
