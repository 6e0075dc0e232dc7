/-
# No step ever faults

Every state that an emulator gets into is within bounds, whatever program it
was given, however that rewrites itself, and whatever failed on the way; and
in such a state the step passes every test of the guarded step
(`reachable_never_faults`). The bound on the program counter is attained by a
skip in the last word of memory (`skip_at_the_top`).
-/
import ChipEight.Proofs.Emulator.Reach
import ChipEight.Proofs.Machine.Guarded

namespace ChipEight

open Emulator

theorem reachable_bounded {e : Emulator} (h : Reachable e) : e.machine.Bounded := by
  refine h.machine_keeps Machine.bounded_initial (fun m memory _ => ?_)
    (fun d m => Machine.bounded_step d) (fun m => Machine.bounded_tick) (fun m keypad hm => hm)
  exact (Machine.bounded_initial m.keypad m.random).goTo (a := Memory.programStart) (by decide)

/-- In every state an emulator gets into, the program counter, `I`, the stack,
the awaited register and the buzzer are as they should be, and the next step
ends without a fault: every index is within what it points into, every sum
fits its word, and every instruction is in the table it is looked up in. -/
theorem reachable_never_faults {e : Emulator} (h : Reachable e) :
    e.machine.pc ≤ 0x1002 ∧ e.machine.i.val ≤ 0xFFF ∧ e.machine.calls.length ≤ 16 ∧
      (∀ a ∈ e.machine.calls, a.toNat ≤ 0x1000) ∧
      (∀ x, e.machine.awaiting = some x → x.val < 16) ∧
      (e.machine.timers.buzzing = true ↔ 0 < e.machine.timers.sound) ∧
      ∀ d, Guarded.step d e.machine = .ok (e.machine.step d) := by
  have hb := reachable_bounded h
  refine ⟨hb.pc_le, Nat.le_of_lt_succ e.machine.i.isLt, hb.depth_le, hb.return_le,
    fun x _ => x.isLt, ?_, fun d => Guarded.step_eq d hb⟩
  rw [hb.buzzing_eq, bne_iff_ne, UInt8.pos_iff_ne_zero]

/-- A program that writes a skip into the last word of memory and goes there. -/
def topSkipper : List UInt8 :=
  [0x60, 0x30, 0x61, 0x30, 0xAF, 0xFE, 0xF1, 0x55, 0x1F, 0xFE]

/-- The emulator that has run `topSkipper` up to and including that skip. -/
def skipped : Emulator :=
  (((Emulator.new .unset (.ofWords [])).load topSkipper).2.1.run 6).emulator

theorem skip_at_the_top : Reachable skipped ∧ skipped.machine.pc = 0x1002 ∧
    skipped.machine.i.val = 0xFFE ∧ (∀ a ∈ skipped.machine.calls, a.toNat ≤ 0x1000) ∧
    Guarded.step .modern skipped.machine =
      .ok ⟨.error (.addressOutOfRange 0x1002), skipped.machine, [.leftMemory 0x1002]⟩ := by
  have hreach : Reachable skipped := .run 6 (.load topSkipper (.new .unset (.ofWords [])))
  obtain ⟨hpc, hi, hwait⟩ : skipped.machine.pc = 0x1002 ∧ skipped.machine.i.val = 0xFFE ∧
      skipped.machine.awaiting = none := by decide +kernel
  obtain ⟨-, -, -, hreturn, -, -, hstep⟩ := reachable_never_faults hreach
  refine ⟨hreach, hpc, hi, hreturn, (hstep .modern).trans ?_⟩
  have hout : skipped.machine.inBounds = false := by rw [Machine.inBounds, hpc]; rfl
  simp only [Machine.step, hwait, hout, hpc, Bool.false_eq_true, if_false]

end ChipEight
