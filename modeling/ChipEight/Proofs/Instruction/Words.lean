/-
# Instructions and their words

Decoding and encoding undo each other: every instruction is read back from its
word (`decode_encode`), and a word that is read as an instruction is the word of
that instruction (`encode_of_decode`). The parts of a word determine it
(`wordA_eq`, `wordXB_eq`, `wordXYN_eq`).
-/
import Mathlib.Data.Nat.Notation
import ChipEight.Instruction

namespace ChipEight
namespace Instruction

/-! ### Words and their parts -/

theorem toNat_wordA {family : ℕ} (h : family < 16) (a : Address) :
    (wordA family a).toNat = family * 4096 + a.val := by
  have := a.isLt
  rw [wordA, UInt16.toNat_ofNat']
  omega

theorem toNat_wordXB {family : ℕ} (h : family < 16) (x : Reg) (b : UInt8) :
    (wordXB family x b).toNat = family * 4096 + x.val * 256 + b.toNat := by
  have := x.isLt
  have := b.toNat_lt
  rw [wordXB, UInt16.toNat_ofNat']
  omega

theorem toNat_wordXYN {family n : ℕ} (h : family < 16) (hn : n < 16) (x y : Reg) :
    (wordXYN family x y n).toNat = family * 4096 + x.val * 256 + y.val * 16 + n := by
  have := x.isLt
  have := y.isLt
  rw [wordXYN, UInt16.toNat_ofNat']
  omega

theorem val_fieldX (w : UInt16) : (fieldX w).val = w.toNat / 256 % 16 := rfl

theorem val_fieldY (w : UInt16) : (fieldY w).val = w.toNat / 16 % 16 := rfl

theorem val_fieldN (w : UInt16) : (fieldN w).val = w.toNat % 16 := rfl

theorem toNat_fieldByte (w : UInt16) : (fieldByte w).toNat = w.toNat % 256 := UInt8.toNat_ofNat'

theorem val_fieldAddress (w : UInt16) : (fieldAddress w).val = w.toNat % 4096 := rfl

/-- A family and an address. -/
theorem wordA_eq {family : ℕ} {w : UInt16} (h : w.toNat / 4096 = family) :
    wordA family (fieldAddress w) = w := by
  have := w.toNat_lt
  apply UInt16.toNat.inj
  rw [toNat_wordA (by omega), val_fieldAddress]
  omega

/-- A family, a register and a given byte. -/
theorem wordXB_eq {family : ℕ} {b : UInt8} {w : UInt16} (h : w.toNat / 4096 = family)
    (hb : w.toNat % 256 = b.toNat) : wordXB family (fieldX w) b = w := by
  have := w.toNat_lt
  apply UInt16.toNat.inj
  rw [toNat_wordXB (by omega), val_fieldX]
  omega

/-- A family, two registers and a given nibble. -/
theorem wordXYN_eq {family n : ℕ} {w : UInt16} (h : w.toNat / 4096 = family)
    (hn : w.toNat % 16 = n) : wordXYN family (fieldX w) (fieldY w) n = w := by
  have := w.toNat_lt
  apply UInt16.toNat.inj
  rw [toNat_wordXYN (by omega) (by omega), val_fieldX, val_fieldY]
  omega

/-! ### Reading the parts back -/

section Fields

variable {family n : ℕ} {a : Address} {x y : Reg} {b : UInt8}

theorem wordA_div (h : family < 16) : (wordA family a).toNat / 4096 = family := by
  rw [toNat_wordA h]
  omega

theorem fieldAddress_wordA (h : family < 16) : fieldAddress (wordA family a) = a := by
  apply Fin.ext
  rw [val_fieldAddress, toNat_wordA h]
  omega

theorem wordXB_div (h : family < 16) : (wordXB family x b).toNat / 4096 = family := by
  have := b.toNat_lt
  rw [toNat_wordXB h]
  omega

theorem wordXB_mod (h : family < 16) : (wordXB family x b).toNat % 256 = b.toNat := by
  have := b.toNat_lt
  rw [toNat_wordXB h]
  omega

theorem fieldX_wordXB (h : family < 16) : fieldX (wordXB family x b) = x := by
  have := b.toNat_lt
  apply Fin.ext
  rw [val_fieldX, toNat_wordXB h]
  omega

theorem fieldByte_wordXB (h : family < 16) : fieldByte (wordXB family x b) = b := by
  apply UInt8.toNat.inj
  rw [toNat_fieldByte, wordXB_mod h]

theorem wordXYN_div (h : family < 16) (hn : n < 16) :
    (wordXYN family x y n).toNat / 4096 = family := by
  rw [toNat_wordXYN h hn]
  omega

theorem wordXYN_mod (h : family < 16) (hn : n < 16) : (wordXYN family x y n).toNat % 16 = n := by
  rw [toNat_wordXYN h hn]
  omega

theorem fieldX_wordXYN (h : family < 16) (hn : n < 16) : fieldX (wordXYN family x y n) = x := by
  apply Fin.ext
  rw [val_fieldX, toNat_wordXYN h hn]
  omega

theorem fieldY_wordXYN (h : family < 16) (hn : n < 16) : fieldY (wordXYN family x y n) = y := by
  apply Fin.ext
  rw [val_fieldY, toNat_wordXYN h hn]
  omega

end Fields

/-! ### Decoding and encoding -/

/-- Every instruction is read back from its word. -/
theorem decode_encode (i : Instruction) : decode (encode i) = some i := by
  cases i with
  | clear | ret => rfl
  | jump a | call a | pointTo a | jumpPlus a =>
    simp (disch := decide) only [encode, decode, wordA_div, fieldAddress_wordA]
  | skipIfByte x b | skipUnlessByte x b | putByte x b | addByte x b | random x b =>
    simp (disch := decide) only [encode, decode, wordXB_div, fieldX_wordXB, fieldByte_wordXB]
  | skipIfKey x | skipUnlessKey x | readDelay x | awaitKey x | startDelay x | startSound x
  | advance x | pointToGlyph x | storeDecimal x | storeRegisters x | loadRegisters x =>
    simp (disch := decide) only [encode, decode, wordXB_div, wordXB_mod, fieldX_wordXB]
    rfl
  | draw x y n =>
    have hn : fieldN (wordXYN 0xD x y n.val) = n := Fin.ext (wordXYN_mod (by decide) n.isLt)
    simp (disch := first | exact n.isLt | decide) only [encode, decode, wordXYN_div, fieldX_wordXYN,
      fieldY_wordXYN, hn]
  | skipIfSame x y | skipUnlessSame x y | copy x y | or x y | and x y | xor x y | add x y | sub x y
  | shiftRight x y | subFrom x y | shiftLeft x y =>
    simp (disch := decide) only [encode, decode, wordXYN_div, wordXYN_mod, fieldX_wordXYN,
      fieldY_wordXYN, if_true]

/-- A word that is read as an instruction is the word of that instruction. -/
theorem encode_of_decode {w : UInt16} {i : Instruction} (h : decode w = some i) : encode i = w := by
  unfold decode at h
  simp only at h
  split at h
  · -- the two words without operands
    split at h
    · next hw => cases h; exact UInt16.toNat.inj hw.symm
    · next hw => cases h; exact UInt16.toNat.inj hw.symm
    · cases h
  · next hf => cases h; exact wordA_eq hf
  · next hf => cases h; exact wordA_eq hf
  · next hf => cases h; exact wordXB_eq hf (toNat_fieldByte w).symm
  · next hf => cases h; exact wordXB_eq hf (toNat_fieldByte w).symm
  · next hf =>
    split at h
    · next hn => cases h; exact wordXYN_eq hf hn
    · cases h
  · next hf => cases h; exact wordXB_eq hf (toNat_fieldByte w).symm
  · next hf => cases h; exact wordXB_eq hf (toNat_fieldByte w).symm
  · -- two registers, told apart by the lowest nibble
    next hf => split at h <;> first | next hn => cases h; exact wordXYN_eq hf hn | cases h
  · next hf =>
    split at h
    · next hn => cases h; exact wordXYN_eq hf hn
    · cases h
  · next hf => cases h; exact wordA_eq hf
  · next hf => cases h; exact wordA_eq hf
  · next hf => cases h; exact wordXB_eq hf (toNat_fieldByte w).symm
  · next hf => cases h; exact wordXYN_eq hf rfl
  · -- one register, told apart by the low byte
    next hf => split at h <;> first | next hb => cases h; exact wordXB_eq hf hb | cases h
  · next hf => split at h <;> first | next hb => cases h; exact wordXB_eq hf hb | cases h
  · cases h

/-- Reading and writing words undo each other. -/
theorem decode_eq_some_iff {w : UInt16} {i : Instruction} : decode w = some i ↔ encode i = w :=
  ⟨encode_of_decode, fun h => h ▸ decode_encode i⟩

end Instruction
end ChipEight
