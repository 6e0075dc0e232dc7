/-
# The bounds a machine keeps

The program counter may leave memory, but not far: an instruction that runs
lies below `0x1000`, so it moves on to `0x1000` at most, a skip takes it to
`0x1002` at most, and a return address is at most `0x1000` (`Bounds`). Every
instruction, tick and key wait keeps this, and keeps the buzzer in line with
the sound timer (`bounded_step`, `bounded_tick`), whether it succeeds or fails.

`Bounds` reads the program counter, the return addresses, the sound timer and
the buzzer only, so a machine that differs elsewhere satisfies it by
definition.
-/
import Mathlib.Data.Nat.Notation
import ChipEight.Proofs.Machine.Step

namespace ChipEight

/-- What holds of a program counter, the saved return addresses, a sound timer
and the buzzer. -/
structure Bounds (pc : ℕ) (calls : List UInt16) (sound : UInt8) (buzzing : Bool) : Prop where
  pc_le : pc ≤ 0x1002
  depth_le : calls.length ≤ Machine.callLimit
  return_le : ∀ a ∈ calls, a.toNat ≤ 0x1000
  buzzing_eq : buzzing = (sound != 0)

namespace Machine

/-- A machine within its bounds. -/
abbrev Bounded (m : Machine) : Prop := Bounds m.pc m.calls m.timers.sound m.timers.buzzing

theorem bounded_initial (keypad : Keypad) (random : RandomSource) :
    (initial keypad random).Bounded :=
  ⟨Nat.zero_le _, Nat.zero_le _, fun _ ha => (List.not_mem_nil ha).elim, rfl⟩

theorem Bounded.goTo {m : Machine} (h : m.Bounded) {a : ℕ} (ha : a ≤ 0x1002) :
    (m.goTo a).Bounded :=
  ⟨ha, h.depth_le, h.return_le, h.buzzing_eq⟩

theorem Bounded.skipIf {m : Machine} (h : m.Bounded) (hpc : m.pc ≤ 0x1000) (condition : Bool) :
    (m.skipIf condition).Bounded := by
  cases condition with
  | true => exact h.goTo (a := m.pc + 2) (by omega)
  | false => exact h

theorem Bounded.settle {m : Machine} (h : m.Bounded) (t : Timers) :
    Bounded { m with timers := t.settle.1 } :=
  ⟨h.pc_le, h.depth_le, h.return_le, by simp⟩

theorem Bounded.afterTransfer {m : Machine} (h : m.Bounded) (d : Dialect) (x : Reg) :
    (m.afterTransfer d x).Bounded := by
  unfold Machine.afterTransfer
  split <;> exact h

/-- A call saves a return address of at most `0x1000`, and only while a place
is free. -/
theorem Bounded.push {m m' : Machine} (h : m.Bounded) (hpc : m.pc ≤ 0x1000)
    (hm : m.push (UInt16.ofNat m.pc) = .ok m') : m'.Bounded := by
  unfold Machine.push at hm
  split at hm
  · next hlt =>
    cases hm
    refine ⟨h.pc_le, hlt, fun a ha => ?_, h.buzzing_eq⟩
    rcases List.mem_cons.mp ha with rfl | ha
    · rw [UInt16.toNat_ofNat']
      omega
    · exact h.return_le a ha
  · cases hm

/-- A return leads to `0x1000` at most. -/
theorem Bounded.pop {m m' : Machine} {a : UInt16} (h : m.Bounded) (hm : m.pop = .ok (a, m')) :
    a.toNat ≤ 0x1000 ∧ m'.Bounded := by
  unfold Machine.pop at hm
  split at hm
  · next b rest hc =>
    cases hm
    have hd := h.depth_le
    have hr := h.return_le
    rw [hc] at hd hr
    refine ⟨hr _ List.mem_cons_self, h.pc_le, ?_, fun c hm => hr c (List.mem_cons_of_mem _ hm),
      h.buzzing_eq⟩
    exact Nat.le_trans (Nat.le_succ _) hd
  · cases hm

/-- Every instruction keeps the bounds, if the machine has moved past it and
it lay in memory. -/
theorem bounded_execute (d : Dialect) {m : Machine} (h : m.Bounded) (hpc : m.pc ≤ 0x1000)
    (i : Instruction) : (m.execute d i).machine.Bounded := by
  cases i with
  | ret =>
    unfold execute
    cases hm : m.pop with
    | error f => exact h
    | ok p =>
      obtain ⟨ha, hb⟩ := h.pop hm
      exact hb.goTo (Nat.le_trans ha (by decide))
  | jump a => exact h.goTo (by have := a.isLt; omega)
  | call a =>
    unfold execute
    cases hm : m.push (UInt16.ofNat m.pc) with
    | error f => exact h
    | ok m' => exact (h.push hpc hm).goTo (by have := a.isLt; omega)
  | jumpPlus a =>
    simp only [execute]
    split
    · next hlt => exact h.goTo (by unfold Memory.size at hlt; omega)
    · exact h
  | skipIfByte x b | skipUnlessByte x b | skipIfSame x y | skipUnlessSame x y | skipIfKey x
  | skipUnlessKey x => exact h.skipIf hpc _
  | startSound x =>
    rw [execute_startSound_machine]
    exact h.settle _
  | storeRegisters x =>
    let memory := m.memory.writeAll m.i.val (m.v.toList.take (x.val + 1))
    exact Bounded.afterTransfer (m := { m with memory := memory }) h d x
  | loadRegisters x => exact Bounded.afterTransfer (m := { m with v := m.loaded x }) h d x
  | _ => exact h

/-- Every step keeps the bounds, a failing one included. -/
theorem bounded_step (d : Dialect) {m : Machine} (h : m.Bounded) : (m.step d).machine.Bounded := by
  cases ha : m.awaiting with
  | some x =>
    rw [step_of_awaiting ha]
    unfold resume
    split <;> exact h
  | none =>
    cases hc : m.current with
    | some i =>
      have hpc : m.pc + 1 < 4096 := (inBounds_iff m).mp (current_eq_some.mp hc).2.1
      have hskip : m.skip.Bounded := h.goTo (a := m.pc + 2) (by omega)
      rw [step_of_current hc]
      exact bounded_execute d hskip (show m.pc + 2 ≤ 0x1000 by omega) i
    | none =>
      rcases step_of_stuck ha hc d with ⟨-, hs⟩ | ⟨-, -, hs⟩ <;> rw [hs] <;> exact h

theorem bounded_tick {m : Machine} (h : m.Bounded) : m.tick.1.Bounded :=
  h.settle _

end Machine
end ChipEight
