/-
# The states an emulator can be in

An emulator is made without a program and then loaded, stepped, run, ticked,
given time, given frames and given keys, in any order and whatever fails on
the way (`Reachable`). What holds of a machine that was just made, and of one
that is about to run a program, and is kept by every step, tick and change of
the keypad, holds of every machine in such an emulator (`Reachable.machine_keeps`).
-/
import ChipEight.Proofs.Emulator.Elapse

namespace ChipEight

open Emulator

/-- The emulators that come about by use. -/
inductive Reachable : Emulator → Prop
  | new (settings : Settings) (random : RandomSource) : Reachable (.new settings random)
  | load {e : Emulator} (program : List UInt8) : Reachable e → Reachable (e.load program).2.1
  | step {e : Emulator} : Reachable e → Reachable e.step.emulator
  | run {e : Emulator} (n : ℕ) : Reachable e → Reachable (e.run n).emulator
  | tick {e : Emulator} : Reachable e → Reachable e.tick.2.1
  | elapse {e : Emulator} {elapsed : ℕ} {r : Report} :
    Reachable e → e.elapse elapsed = .ok r → Reachable r.emulator
  | frame {σ : Type} {d : Peripherals σ} {s : σ} {e : Emulator} {elapsed : ℕ} {r : FrameReport σ} :
    Reachable e → e.frame d s elapsed = .ok r → Reachable r.emulator
  | setKey {e : Emulator} (key : Key) (pressed : Bool) :
    Reachable e → Reachable (e.setKey key pressed)
  | clearKeys {e : Emulator} : Reachable e → Reachable e.clearKeys

namespace Reachable

/-- What holds at the start and is kept by steps, ticks and keys holds always. -/
theorem machine_keeps {P : Machine → Prop}
    (initial : ∀ keypad random, P (.initial keypad random))
    (boot : ∀ m memory, P m → P (boot m memory))
    (step : ∀ d m, P m → P (m.step d).machine)
    (tick : ∀ m : Machine, P m → P m.tick.1)
    (keys : ∀ (m : Machine) keypad, P m → P { m with keypad := keypad })
    {e : Emulator} (h : Reachable e) : P e.machine := by
  induction h with
  | new settings random => exact initial _ _
  | load program _ ih =>
    unfold Emulator.load
    split
    · exact boot _ _ ih
    · exact ih
  | step _ ih => exact step _ _ ih
  | run n _ ih => exact runFrom_keeps step n _ _ _ ih
  | tick _ ih => exact tick _ ih
  | elapse _ hr ih => exact elapse_keeps step tick ih hr
  | frame _ hr ih => exact frame_keeps step tick (fun keypad => keys _ keypad ih) hr
  | setKey key pressed _ ih => exact keys _ _ ih
  | clearKeys _ ih => exact keys _ _ ih

end Reachable
end ChipEight
