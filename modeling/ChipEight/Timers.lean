/-
# The delay and sound timers

Two bytes that count down sixty times a second and stop at zero. The buzzer
sounds while the sound timer is not zero. Whoever changes the sound timer is
told the buzzer's new state if it changed, and nothing otherwise.

Key definitions: `Timers`, `Timers.tick`, `Timers.startSound`.
Key theorems: `Timers.settle_buzzing`, `Timers.toNat_countDown`.
-/

namespace ChipEight

/-- Both timers, and whether the buzzer sounds. -/
structure Timers where
  delay : UInt8
  sound : UInt8
  buzzing : Bool
  deriving DecidableEq, Repr

namespace Timers

/-- Both timers at zero and the buzzer off. -/
def off : Timers := ⟨0, 0, false⟩

/-- A count goes down by one, and stays at zero once there. -/
def countDown (b : UInt8) : UInt8 := if b = 0 then 0 else b - 1

/-- Bring the buzzer in line with the sound timer, and report its new state if
that is a change. -/
def settle (t : Timers) : Timers × Option Bool :=
  let on := t.sound != 0
  if on = t.buzzing then (t, none) else ({ t with buzzing := on }, some on)

/-- One sixtieth of a second passes. -/
def tick (t : Timers) : Timers × Option Bool :=
  settle { t with delay := countDown t.delay, sound := countDown t.sound }

/-- The sound timer starts from a new count. -/
def startSound (t : Timers) (b : UInt8) : Timers × Option Bool :=
  settle { t with sound := b }

/-- The delay timer starts from a new count. -/
def startDelay (t : Timers) (b : UInt8) : Timers := { t with delay := b }

@[simp] theorem settle_delay (t : Timers) : (settle t).1.delay = t.delay := by
  unfold settle; simp only; split <;> rfl

@[simp] theorem settle_sound (t : Timers) : (settle t).1.sound = t.sound := by
  unfold settle; simp only; split <;> rfl

/-- Once settled, the buzzer sounds while the sound timer is not zero. -/
@[simp] theorem settle_buzzing (t : Timers) : (settle t).1.buzzing = (t.sound != 0) := by
  unfold settle; simp only; split
  · next h => exact h.symm
  · rfl

theorem toNat_countDown (b : UInt8) : (countDown b).toNat = b.toNat - 1 := by
  unfold countDown
  split
  · next h => subst h; rfl
  · next h =>
    have h1 : 1 ≤ b := by
      rw [UInt8.le_iff_toNat_le]
      have : b.toNat ≠ 0 := fun h0 => h (UInt8.toNat.inj h0)
      exact Nat.pos_of_ne_zero this
    exact UInt8.toNat_sub_of_le b 1 h1

end Timers
end ChipEight
