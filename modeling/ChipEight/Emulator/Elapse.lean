/-
# Letting time pass

Elapsed time makes a batch of instructions and timer ticks due. The ticks are
spread evenly between the instructions: before an instruction runs, the ticks
catch up with its share of the batch. Ticks left over come last. An
instruction that fails ends the batch at once.

Key definitions: `Batch.next`, `Emulator.perform`, `Emulator.elapse`.
-/
import ChipEight.Emulator

namespace ChipEight

/-- How many instructions and ticks are due, and how many were done. -/
structure Batch where
  steps : Nat
  ticks : Nat
  stepped : Nat
  ticked : Nat
  deriving DecidableEq, Repr

/-- What can be due. -/
inductive Due where
  | step
  | tick
  deriving DecidableEq, Repr

namespace Batch

/-- A batch of which nothing has been done. -/
def ofCounts (steps ticks : Nat) : Batch := ⟨steps, ticks, 0, 0⟩

/-- What comes next. A tick comes before the next instruction while a smaller
share of the ticks than of the instructions has been done. -/
def next (b : Batch) : Option Due :=
  if b.stepped < b.steps then
    if b.ticked * b.steps < b.stepped * b.ticks then some .tick else some .step
  else if b.ticked < b.ticks then some .tick
  else none

/-- The batch once one more thing was done. -/
def count (b : Batch) : Due → Batch
  | .step => { b with stepped := b.stepped + 1 }
  | .tick => { b with ticked := b.ticked + 1 }

end Batch

namespace Emulator

/-- Remember a change of the buzzer for the audio device. -/
def noteBuzz (e : Emulator) (on : Bool) : Emulator := { e with buzzes := e.buzzes.push on }

/-- Let the timers count down once, and remember a change of the buzzer. -/
def tickNoted (e : Emulator) : Emulator × Array Event :=
  let (change, e, events) := e.tick
  match change with
  | some on => (e.noteBuzz on, events)
  | none => (e, events)

/-- Run one instruction, and remember a change of the buzzer. -/
def stepNoted (e : Emulator) : Report :=
  let r := e.step
  match r.outcome with
  | .ok .sounded => { r with emulator := r.emulator.noteBuzz r.emulator.machine.timers.buzzing }
  | _ => r

/-- Do at most `n` things that are due in a batch, after a signal and events so
far. -/
def perform : Nat → Batch → Emulator → Signal → Array Event → Report
  | 0, _, e, signal, events => ⟨.ok signal, e, events⟩
  | n + 1, b, e, signal, events =>
    match b.next with
    | none => ⟨.ok signal, e, events⟩
    | some .tick =>
      let (e, more) := e.tickNoted
      perform n (b.count .tick) e signal (events ++ more)
    | some .step =>
      let r := e.stepNoted
      match r.outcome with
      | .ok signal => perform n (b.count .step) r.emulator signal (events ++ r.events)
      | .error f => ⟨.error f, r.emulator, events ++ r.events⟩

/-- Let time pass: run what becomes due. The buzzer changes on the way are in
`buzzes` afterwards. -/
def elapse (e : Emulator) (elapsed : Nat) : Except Overflow Report := do
  let (steps, clock) ← e.clock.elapse elapsed
  let (ticks, timer) ← e.timer.elapse elapsed
  let e := { e with clock := clock, timer := timer, buzzes := #[] }
  return perform (steps + ticks) (.ofCounts steps ticks) e .quiet #[]

end Emulator
end ChipEight
