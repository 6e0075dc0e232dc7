/-
# Where dialects part

Two dialects can differ in what a shift takes and in where a transfer leaves `I`.
A step comes to the same in both, unless it carries out a shift of two different
registers or a transfer and they differ in just that (`step_of_not_parts`). A
transfer comes to the same but for `I` (`step_of_transfer`).

Key definitions: `Machine.Parts`.
Key theorems: `Machine.step_of_not_parts`, `Machine.step_of_transfer`.
-/
import ChipEight.Proofs.Machine.Footprint

namespace ChipEight

/-- An instruction that two dialects take differently. -/
def Instruction.Parts (d d' : Dialect) : Instruction → Prop
  | .shiftRight x y | .shiftLeft x y => d.shiftReadsY ≠ d'.shiftReadsY ∧ x ≠ y
  | .storeRegisters _ | .loadRegisters _ => d.transferMovesI ≠ d'.transferMovesI
  | _ => False

namespace Machine

open Instruction

/-- The next step carries out a shift of two different registers, and the
dialects differ in what shifts take, or a transfer, and they differ in where it
leaves `I`. -/
def Parts (d d' : Dialect) (m : Machine) : Prop :=
  d.shiftReadsY ≠ d'.shiftReadsY ∧ m.Runs ["8XY6", "8XYE"] ∧ fieldX m.word ≠ fieldY m.word ∨
    d.transferMovesI ≠ d'.transferMovesI ∧ m.Runs ["FX55", "FX65"]

instance (d d' : Dialect) : DecidablePred (Parts d d') := fun _ =>
  inferInstanceAs (Decidable (_ ∧ _ ∧ _ ∨ _ ∧ _))

variable {d d' : Dialect} {m : Machine} {i : Instruction}

theorem parts_of_current (hc : m.current = some i) (hi : i.Parts d d') : m.Parts d d' := by
  have hword := encode_of_decode (current_eq_some.mp hc).2.2
  cases i with
  | shiftRight x y | shiftLeft x y =>
    refine .inl ⟨hi.1, runs_of_current hc (by simp [pattern]), ?_⟩
    rw [← hword, encode, fieldX_wordXYN (by decide) (by decide),
      fieldY_wordXYN (by decide) (by decide)]
    exact hi.2
  | storeRegisters x | loadRegisters x => exact .inr ⟨hi, runs_of_current hc (by simp [pattern])⟩
  | _ => exact hi.elim

theorem shiftOperand_of_not_parts {x y : Reg} (h : ¬ (d.shiftReadsY ≠ d'.shiftReadsY ∧ x ≠ y))
    (m : Machine) : m.shiftOperand d x y = m.shiftOperand d' x y := by
  unfold shiftOperand
  by_cases hxy : x = y
  · subst hxy
    rw [ite_self, ite_self]
  · rw [not_not.mp fun hd => h ⟨hd, hxy⟩]

theorem afterTransfer_of_not_parts (h : ¬ d.transferMovesI ≠ d'.transferMovesI) (m : Machine)
    (x : Reg) : m.afterTransfer d x = m.afterTransfer d' x := by
  unfold afterTransfer
  rw [not_not.mp h]

theorem execute_of_not_parts (hi : ¬ i.Parts d d') (m : Machine) :
    m.execute d i = m.execute d' i := by
  cases i with
  | shiftRight x y | shiftLeft x y => simp only [execute, shiftOperand_of_not_parts hi m]
  | storeRegisters x | loadRegisters x => simp only [execute, afterTransfer_of_not_parts hi]
  | _ => rfl

theorem step_of_not_parts (h : ¬ m.Parts d d') : m.step d = m.step d' := by
  cases ha : m.awaiting with
  | some x => rw [step_of_awaiting ha, step_of_awaiting ha]
  | none =>
    cases hc : m.current with
    | some i =>
      have hi : ¬ i.Parts d d' := fun hi => h (parts_of_current hc hi)
      rw [step_of_current hc, step_of_current hc, execute_of_not_parts hi]
    | none =>
      rcases step_of_stuck ha hc d with ⟨hb, -⟩ | ⟨hb, hi, -⟩
      · simp only [step, ha, hb, Bool.false_eq_true, if_false]
      · simp only [step, ha, hb, hi, if_true]

theorem afterTransfer_still (h : d.transferMovesI = false) (m : Machine) (x : Reg) :
    m.afterTransfer d x = m := by
  simp only [afterTransfer, h, Bool.false_eq_true, if_false]

theorem afterTransfer_moved (h : d.transferMovesI = true) (m : Machine) (x : Reg) :
    m.afterTransfer d x = m.setI (m.i.val + x.val + 1) := by
  simp only [afterTransfer, h, if_true]

/-- A transfer succeeds. It leaves `I` where it was in one dialect and behind the
last byte in the other, and does the same besides. -/
theorem step_of_transfer (hruns : m.Runs ["FX55", "FX65"]) (d d' : Dialect)
    (hstill : d.transferMovesI = false) (hmoved : d'.transferMovesI = true) :
    (m.step d).outcome = .ok .quiet ∧ (m.step d').outcome = .ok .quiet ∧
      (m.step d).machine.i = m.i ∧ (m.step d').machine =
        (m.step d).machine.setI (m.i.val + (fieldX m.word).val + 1) := by
  obtain ⟨i, hc, hi⟩ := (runs_iff (by decide)).mp hruns
  have hword := encode_of_decode (current_eq_some.mp hc).2.2
  rw [step_of_current hc, step_of_current hc]
  cases i with
  | storeRegisters x | loadRegisters x =>
    rw [← hword, encode, fieldX_wordXB (by decide)]
    simp only [execute, done, signals, afterTransfer_still hstill, afterTransfer_moved hmoved,
      true_and]
    exact ⟨rfl, rfl⟩
  | _ => simp [pattern] at hi

end Machine
end ChipEight
