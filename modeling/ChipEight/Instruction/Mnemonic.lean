/-
# Mnemonics

The written form of an instruction: a name, then the operands between commas.
Registers are `v` and a hexadecimal digit, addresses have three hexadecimal
digits, bytes and row counts are decimal, and the special places of the
machine have fixed words. A shift is written with `Vx` alone.

Key definitions: `Operand`, `Mnemonic`, `Instruction.mnemonic`,
`Mnemonic.text`.
-/
import ChipEight.Instruction
import ChipEight.Text.Hex

namespace ChipEight

/-- What may stand after the name of an operation. -/
inductive Operand where
  | register (x : Reg)
  | number (n : Nat)
  | address (a : Address)
  /-- The address register. -/
  | index
  /-- Memory at the address register. -/
  | pointed
  /-- The delay timer. -/
  | delay
  /-- The sound timer. -/
  | sound
  /-- The next key to go down. -/
  | key
  /-- The picture of a digit. -/
  | glyph
  /-- The decimal digits. -/
  | decimal
  deriving DecidableEq, Repr

/-- The written form of an operand. -/
def Operand.text : Operand → List Char
  | .register x => 'v' :: Hex.upperDigits 1 x.val
  | .number n => Nat.toDigits 10 n
  | .address a => '0' :: 'x' :: Hex.upperDigits 3 a.val
  | .index => ['I']
  | .pointed => ['[', 'I', ']']
  | .delay => ['D', 'T']
  | .sound => ['S', 'T']
  | .key => ['K']
  | .glyph => ['F']
  | .decimal => ['B']

/-- An operation's name and its operands in writing order. -/
structure Mnemonic where
  name : String
  operands : List Operand
  deriving DecidableEq, Repr

namespace Mnemonic

/-- Operands after the first, each behind a comma and a blank. -/
def moreOperands : List Operand → List Char
  | [] => []
  | o :: os => ',' :: ' ' :: o.text ++ moreOperands os

/-- The name, then a blank before the first operand if there is one. -/
def chars (m : Mnemonic) : List Char :=
  match m.operands with
  | [] => m.name.toList
  | o :: os => m.name.toList ++ ' ' :: o.text ++ moreOperands os

/-- The mnemonic as text. -/
def text (m : Mnemonic) : String := String.ofList m.chars

end Mnemonic

namespace Instruction

/-- The name and operands that an instruction is written with. -/
def mnemonic : Instruction → Mnemonic
  | .clear => ⟨"CLS", []⟩
  | .ret => ⟨"RET", []⟩
  | .jump a => ⟨"JP", [.address a]⟩
  | .call a => ⟨"CALL", [.address a]⟩
  | .skipIfByte x b => ⟨"SE", [.register x, .number b.toNat]⟩
  | .skipUnlessByte x b => ⟨"SNE", [.register x, .number b.toNat]⟩
  | .skipIfSame x y => ⟨"SE", [.register x, .register y]⟩
  | .putByte x b => ⟨"LD", [.register x, .number b.toNat]⟩
  | .addByte x b => ⟨"ADD", [.register x, .number b.toNat]⟩
  | .copy x y => ⟨"LD", [.register x, .register y]⟩
  | .or x y => ⟨"OR", [.register x, .register y]⟩
  | .and x y => ⟨"AND", [.register x, .register y]⟩
  | .xor x y => ⟨"XOR", [.register x, .register y]⟩
  | .add x y => ⟨"ADD", [.register x, .register y]⟩
  | .sub x y => ⟨"SUB", [.register x, .register y]⟩
  | .shiftRight x _ => ⟨"SHR", [.register x]⟩
  | .subFrom x y => ⟨"SUBN", [.register x, .register y]⟩
  | .shiftLeft x _ => ⟨"SHL", [.register x]⟩
  | .skipUnlessSame x y => ⟨"SNE", [.register x, .register y]⟩
  | .pointTo a => ⟨"LD", [.index, .address a]⟩
  | .jumpPlus a => ⟨"JP", [.register Reg.first, .address a]⟩
  | .random x b => ⟨"RND", [.register x, .number b.toNat]⟩
  | .draw x y n => ⟨"DRW", [.register x, .register y, .number n.val]⟩
  | .skipIfKey x => ⟨"SKP", [.register x]⟩
  | .skipUnlessKey x => ⟨"SKNP", [.register x]⟩
  | .readDelay x => ⟨"LD", [.register x, .delay]⟩
  | .awaitKey x => ⟨"LD", [.register x, .key]⟩
  | .startDelay x => ⟨"LD", [.delay, .register x]⟩
  | .startSound x => ⟨"LD", [.sound, .register x]⟩
  | .advance x => ⟨"ADD", [.index, .register x]⟩
  | .pointToGlyph x => ⟨"LD", [.glyph, .register x]⟩
  | .storeDecimal x => ⟨"LD", [.decimal, .register x]⟩
  | .storeRegisters x => ⟨"LD", [.pointed, .register x]⟩
  | .loadRegisters x => ⟨"LD", [.register x, .pointed]⟩

/-- The written form of an instruction. -/
def text (i : Instruction) : String := i.mnemonic.text

end Instruction
end ChipEight
