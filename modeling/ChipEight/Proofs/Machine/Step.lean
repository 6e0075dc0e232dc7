/-
# What a step can do

A step polls for an awaited key, carries out one instruction
(`Machine.current`), or fails without changing anything. The three cases are
`step_of_awaiting`, `step_of_current` and `step_of_stuck`.

Key definitions: `Machine.current`.
Key theorems: `Machine.step_of_current`, `Machine.step_of_stuck`,
`Machine.executing_mem_step`.
-/
import ChipEight.Machine.Step

namespace ChipEight
namespace Machine

/-- The instruction that the next step carries out, if it carries one out. -/
def current (m : Machine) : Option Instruction :=
  if m.awaiting.isNone && m.inBounds then Instruction.decode m.word else none

theorem inBounds_iff (m : Machine) : m.inBounds = true ↔ m.pc + 1 < 4096 :=
  decide_eq_true_iff

theorem current_eq_some {m : Machine} {i : Instruction} : m.current = some i ↔
    m.awaiting = none ∧ m.inBounds = true ∧ Instruction.decode m.word = some i := by
  unfold current
  cases m.awaiting <;> cases m.inBounds <;> simp

theorem step_of_awaiting {m : Machine} {x : Reg} (h : m.awaiting = some x) (d : Dialect) :
    m.step d = m.resume x := by
  simp only [step, h]

/-- The program counter has moved past the instruction when it runs. -/
theorem step_of_current {m : Machine} {i : Instruction} (h : m.current = some i) (d : Dialect) :
    m.step d = { m.skip.execute d i with
      events := .executing m.pc i :: (m.skip.execute d i).events } := by
  obtain ⟨ha, hb, hi⟩ := current_eq_some.mp h
  simp only [step, ha, hb, hi, if_true]

/-- Where there is no instruction to carry out and no key to poll for, a step
fails and the machine stays as it is. -/
theorem step_of_stuck {m : Machine} (ha : m.awaiting = none) (hc : m.current = none)
    (d : Dialect) : (m.inBounds = false ∧
        m.step d = ⟨.error (.addressOutOfRange m.pc), m, [.leftMemory m.pc]⟩) ∨
      (m.inBounds = true ∧ Instruction.decode m.word = none ∧
        m.step d = ⟨.error (.invalidOpcode m.word m.pc), m, [.unknownWord m.word m.pc]⟩) := by
  cases hb : m.inBounds with
  | false => exact .inl ⟨rfl, by simp only [step, ha, hb, Bool.false_eq_true, if_false]⟩
  | true =>
    have hi : Instruction.decode m.word = none := by
      simpa only [current, ha, hb, Option.isNone_none, Bool.and_self, if_true] using hc
    exact .inr ⟨rfl, hi, by simp only [step, ha, hb, hi, if_true]⟩

theorem get_setV (m : Machine) (x r : Reg) (b : UInt8) :
    (m.setV x b).get r = if x = r then b else m.get r := by
  simp [get, setV, Vector.getElem_set, Fin.ext_iff]

/-- Passing over an instruction moves nothing but the program counter. -/
theorem skipIf_frame (m : Machine) (condition : Bool) :
    m.skipIf condition = { m with pc := if condition then m.pc + 2 else m.pc } := by
  cases condition <;> rfl

/-- What follows a transfer moves nothing but `I`. -/
theorem afterTransfer_frame (d : Dialect) (m : Machine) (x : Reg) :
    m.afterTransfer d x = { m with i := (m.afterTransfer d x).i } := by
  unfold afterTransfer
  split <;> rfl

/-- The sound timer starts, and the buzzer is brought in line with it. -/
theorem execute_startSound_machine (d : Dialect) (m : Machine) (x : Reg) :
    (m.execute d (.startSound x)).machine =
      { m with timers := (m.timers.startSound (m.get x)).1 } := by
  simp only [execute]
  split
  · next hs => rw [hs]
  · next hs => rw [hs]; rfl

/-- An instruction reports no further instruction. -/
theorem executing_not_mem_execute (d : Dialect) (m : Machine) (i j : Instruction) (pc : Nat) :
    Event.executing pc j ∉ (m.execute d i).events := by
  cases i <;> simp only [execute, done, signals, fails] <;> (try split) <;> simp

/-- A step reports the instruction that it carries out, and no other. -/
theorem executing_mem_step {d : Dialect} {m : Machine} {i : Instruction} {pc : Nat} :
    Event.executing pc i ∈ (m.step d).events ↔ pc = m.pc ∧ m.current = some i := by
  cases hc : m.current with
  | some j =>
    rw [step_of_current hc]
    simp only [List.mem_cons, executing_not_mem_execute, or_false, Event.executing.injEq,
      Option.some.injEq]
    exact and_congr_right fun _ => eq_comm
  | none =>
    simp only [reduceCtorEq, and_false, iff_false]
    cases ha : m.awaiting with
    | some x =>
      rw [step_of_awaiting ha]
      unfold resume
      split <;> simp [signals]
    | none =>
      rcases step_of_stuck ha hc d with ⟨-, h⟩ | ⟨-, -, h⟩ <;> rw [h] <;> simp

end Machine
end ChipEight
