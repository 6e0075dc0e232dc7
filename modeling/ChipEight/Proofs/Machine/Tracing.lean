/-
# Which instructions are traced

A step that finds an instruction traces it before it carries it out, and nothing
else (`traces_step_of_current`), whether or not it can be carried out. No
instruction fails for its word (`execute_ne_invalidOpcode`): that is what a step
does that finds none.

Key definitions: `traces`.
-/
import Mathlib.Data.Nat.Notation
import ChipEight.Proofs.Machine.Step

namespace ChipEight

/-- The events that are traces. -/
def traces (events : List Event) : List Event := events.filter fun event => event.level = .trace

namespace Machine

/-- To carry an instruction out traces nothing. -/
theorem traces_execute (d : Dialect) (m : Machine) (i : Instruction) :
    traces (m.execute d i).events = [] := by
  refine List.filter_eq_nil_iff.mpr fun event hevent hlevel => ?_
  cases event with
  | executing pc j => exact executing_not_mem_execute d m i j pc hevent
  | _ => cases hlevel

variable {m : Machine}

theorem traces_step_of_current {i : Instruction} (h : m.current = some i) (d : Dialect) :
    traces (m.step d).events = [.executing m.pc i] := by
  have hfirst : traces (.executing m.pc i :: (m.skip.execute d i).events) =
      .executing m.pc i :: traces (m.skip.execute d i).events := List.filter_cons_of_pos rfl
  rw [step_of_current h, hfirst, traces_execute]

/-- No instruction fails for a word. -/
theorem execute_ne_invalidOpcode (d : Dialect) (m : Machine) (i : Instruction) (w : UInt16)
    (pc : ℕ) : (m.execute d i).outcome ≠ .error (.invalidOpcode w pc) := by
  cases i with
  | ret =>
    unfold execute pop
    cases m.calls <;> rintro ⟨⟩
  | call a =>
    unfold execute push
    by_cases hroom : m.calls.length < callLimit
    · rw [if_pos hroom]
      rintro ⟨⟩
    · rw [if_neg hroom]
      rintro ⟨⟩
  | jumpPlus a | startSound x =>
    simp only [execute]
    split <;> rintro ⟨⟩
  | _ => rintro ⟨⟩

end Machine
end ChipEight
