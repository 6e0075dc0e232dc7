/-
# Time that passes, in one piece

`Emulator.elapse` reads both clocks and performs the batch that they make due
(`elapse_eq_ok`). What every step and every tick keeps, a run of instructions
and a batch keep (`runFrom_keeps`, `perform_keeps`), and so do a stretch of
time and a frame (`elapse_keeps`, `frame_keeps`).
-/
import ChipEight.Emulator.Frame
import ChipEight.Proofs.Clock

namespace ChipEight
namespace Emulator

/-- The emulator at the start of a batch: the clocks have moved on, and no
change of the buzzer is noted. -/
def atBatch (e : Emulator) (clock timer : Clock) : Emulator :=
  { e with clock := clock, timer := timer, buzzes := #[] }

/-- Time passes exactly if neither clock overflows. -/
theorem elapse_eq_ok {e : Emulator} {elapsed : ℕ} {r : Report} : e.elapse elapsed = .ok r ↔
    ∃ steps clock ticks timer, e.clock.elapse elapsed = .ok (steps, clock) ∧
      e.timer.elapse elapsed = .ok (ticks, timer) ∧
      r = perform (steps + ticks) (.ofCounts steps ticks) (e.atBatch clock timer) .quiet #[] := by
  unfold elapse
  constructor
  · intro h
    obtain ⟨⟨steps, clock⟩, hc, h⟩ := bind_eq_ok.mp h
    obtain ⟨⟨ticks, timer⟩, ht, h⟩ := bind_eq_ok.mp h
    cases h
    exact ⟨steps, clock, ticks, timer, hc, ht, rfl⟩
  · rintro ⟨steps, clock, ticks, timer, hc, ht, rfl⟩
    rw [hc, ht]
    rfl

/-- A frame passes exactly if its time does. -/
theorem frame_eq_ok {σ : Type} {d : Peripherals σ} {s : σ} {e : Emulator} {elapsed : ℕ}
    {r : FrameReport σ} (h : e.frame d s elapsed = .ok r) :
    ∃ keypad q, ({ e with machine := { e.machine with keypad := keypad } }).elapse elapsed = .ok q ∧
      r.emulator = { q.emulator with buzzes := #[] } := by
  obtain ⟨q, hq, h⟩ := bind_eq_ok.mp h
  cases h
  exact ⟨_, q, hq, rfl⟩

section Keeps

variable {P : Machine → Prop} (step : ∀ d m, P m → P (m.step d).machine)
include step

/-- What a step keeps, a run of instructions keeps. -/
theorem runFrom_keeps : ∀ (n : ℕ) (e : Emulator) (signal : Signal) (events : Array Event),
    P e.machine → P (runFrom n e signal events).emulator.machine
  | 0, _, _, _, h => h
  | n + 1, e, signal, events, h => by
    have h1 : P e.step.emulator.machine := step _ _ h
    unfold runFrom
    simp only
    split
    · exact runFrom_keeps n _ _ _ h1
    · exact h1

theorem stepNoted_keeps {e : Emulator} (h : P e.machine) : P e.stepNoted.emulator.machine := by
  have h1 : P e.step.emulator.machine := step _ _ h
  unfold stepNoted
  simp only
  split <;> exact h1

variable (tick : ∀ m : Machine, P m → P m.tick.1)
include tick

omit step in
theorem tickNoted_keeps {e : Emulator} (h : P e.machine) : P e.tickNoted.1.machine := by
  have h1 : P e.tick.2.1.machine := tick _ h
  unfold tickNoted
  simp only
  split <;> exact h1

/-- What a step and a tick keep, a batch keeps. -/
theorem perform_keeps : ∀ (n : ℕ) (b : Batch) (e : Emulator) (signal : Signal)
    (events : Array Event), P e.machine → P (perform n b e signal events).emulator.machine
  | 0, _, _, _, _, h => h
  | n + 1, b, e, signal, events, h => by
    unfold perform
    split
    · exact h
    · exact perform_keeps n _ _ _ _ (tickNoted_keeps tick h)
    · have h1 := stepNoted_keeps step h
      simp only
      split
      · exact perform_keeps n _ _ _ _ h1
      · exact h1

theorem elapse_keeps {e : Emulator} {elapsed : ℕ} {r : Report} (h : P e.machine)
    (hr : e.elapse elapsed = .ok r) : P r.emulator.machine := by
  obtain ⟨_, _, _, _, _, _, rfl⟩ := elapse_eq_ok.mp hr
  exact perform_keeps step tick _ _ _ _ _ h

theorem frame_keeps {σ : Type} {d : Peripherals σ} {s : σ} {e : Emulator} {elapsed : ℕ}
    {r : FrameReport σ} (keys : ∀ keypad, P { e.machine with keypad := keypad })
    (hr : e.frame d s elapsed = .ok r) : P r.emulator.machine := by
  obtain ⟨keypad, q, hq, he⟩ := frame_eq_ok hr
  rw [he]
  exact elapse_keeps step tick (keys keypad) hq

end Keeps

end Emulator
end ChipEight
