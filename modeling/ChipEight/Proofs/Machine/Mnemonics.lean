/-
# What a mnemonic identifies

Where shifts do not read `Vy`, an instruction does what its text says
(`execute_asWritten`). So words with one text are the same word, or shifts in one
direction of the same register, and the machine takes them alike
(`text_identifies`).
-/
import ChipEight.Machine.Step
import ChipEight.Proofs.Instruction.Mnemonic

namespace ChipEight
namespace Machine

open Instruction

/-- The operand that is not written is not read. -/
theorem execute_asWritten {d : Dialect} (h : d.shiftReadsY = false) (m : Machine)
    (i : Instruction) : m.execute d i.asWritten = m.execute d i := by
  cases i with
  | shiftRight x y | shiftLeft x y =>
    simp only [asWritten, execute, shiftOperand, h, Bool.false_eq_true, if_false]
  | _ => rfl

/-- Two words that are instructions have one text exactly if they are the same
word, or both shift right, or both shift left, and with the same first register.
In any state of a machine, whatever its random source holds, and in any dialect in
which shifts do not read the second register, words with one text give the same
signal or failure, the same state afterwards and the same events. -/
theorem text_identifies {w w' : UInt16} {i j : Instruction} (hi : decode w = some i)
    (hj : decode w' = some j) :
    (i.text = j.text ↔
        w = w' ∨ fieldX w = fieldX w' ∧ ∃ p ∈ ["8XY6", "8XYE"], Fits w p ∧ Fits w' p) ∧
      (i.text = j.text → ∀ (d : Dialect) (m : Machine), d.shiftReadsY = false →
        m.execute d i = m.execute d j) := by
  refine ⟨text_eq_iff.trans (asWritten_eq_iff hi hj), fun htext d m hd => ?_⟩
  calc m.execute d i
    _ = m.execute d i.asWritten := (execute_asWritten hd m i).symm
    _ = m.execute d j.asWritten := by rw [text_eq_iff.mp htext]
    _ = m.execute d j := execute_asWritten hd m j

/-- A machine with 7 in `V1` and 4 in `V2`. -/
def uneven : Machine :=
  ((initial .released (.ofWords [])).setV (Reg.wrap 1) 7).setV (Reg.wrap 2) 4

/-- Two shifts of `V1` are written alike and come to the same, but not where the
second register is read. -/
theorem uneven_identified :
    let i := shiftRight (Reg.wrap 1) (Reg.wrap 2)
    let j := shiftRight (Reg.wrap 1) (Reg.wrap 3)
    decode 0x8126 = some i ∧ decode 0x8136 = some j ∧ i.text = j.text ∧
      uneven.execute .modern i = uneven.execute .modern j ∧
      (uneven.execute ⟨true, false⟩ i).machine ≠ (uneven.execute ⟨true, false⟩ j).machine := by
  intro i j
  have hi : decode 0x8126 = some i := rfl
  have hj : decode 0x8136 = some j := rfl
  obtain ⟨htext, halike⟩ := text_identifies hi hj
  have hsame : i.text = j.text :=
    htext.mpr (.inr ⟨rfl, "8XY6", List.mem_cons_self, by decide, by decide⟩)
  exact ⟨hi, hj, hsame, halike hsame .modern uneven rfl, by decide +kernel⟩

end Machine
end ChipEight
