/-
# The emulator

A machine together with what drives it: its settings, the clock that makes
instructions due, the clock that makes timer ticks due, and the buzzer changes
of the latest batch. A program can be loaded, instructions and ticks can be
asked for one by one, and keys can be pressed.

Key definitions: `Emulator`, `Emulator.load`, `Emulator.step`, `Emulator.run`,
`Emulator.tick`.
-/
import ChipEight.Clock
import ChipEight.Machine.Step

namespace ChipEight

/-- How an emulator is to behave. -/
structure Settings where
  /-- Instructions in a second of elapsed time; none given stands for
  `Settings.usualFrequency`, and zero for none at all. -/
  frequency : Option Nat
  dialect : Dialect
  /-- What the random bytes are derived from, for runs that can be repeated. -/
  seed : Option Nat
  deriving DecidableEq, Repr

namespace Settings

/-- Nothing set. -/
def unset : Settings := ⟨none, .modern, none⟩

/-- Instructions in a second where the settings give no number. -/
def usualFrequency : Nat := 500

/-- The random source of the settings; without a seed it is drawn from
`entropy`. -/
def randomSource (s : Settings) (entropy : UInt64) : RandomSource :=
  match s.seed with
  | some seed => .ofSeed (UInt64.ofNat seed)
  | none => .ofSeed entropy

end Settings

/-- A machine and what drives it. -/
structure Emulator where
  settings : Settings
  machine : Machine
  /-- Makes instructions due. -/
  clock : Clock
  /-- Makes timer ticks due. -/
  timer : Clock
  /-- The buzzer changes of the latest batch that nobody has heard yet, in order. -/
  buzzes : Array Bool
  deriving DecidableEq

/-- The outcome of running instructions: the last signal or the first failure,
the emulator afterwards, and what there is to report, in order. -/
structure Report where
  outcome : Except Failure Signal
  emulator : Emulator
  events : Array Event

namespace Emulator

/-- An emulator with the given settings and source of random bytes. It has no
program yet. -/
def new (settings : Settings) (random : RandomSource) : Emulator where
  settings := settings
  machine := .initial .released random
  clock := .ofHz (settings.frequency.getD Settings.usualFrequency)
  timer := .timer
  buzzes := #[]

/-- A machine that is about to run a program from its start. Only the keypad
and the place in the source of random bytes are kept. -/
def boot (m : Machine) (memory : Memory) : Machine :=
  { Machine.initial m.keypad m.random with pc := Memory.programStart, memory := memory }

/-- Take a program. One that does not fit changes nothing. -/
def load (e : Emulator) (program : List UInt8) :
    Except Failure Unit × Emulator × List Event :=
  match Memory.withGlyphs.takeProgram program with
  | .ok memory =>
    (.ok (),
      { e with
        machine := boot e.machine memory
        clock := e.clock.reset
        timer := e.timer.reset
        buzzes := #[] },
      [.loaded program.length])
  | .error f => (.error f, e, [])

/-- A key goes down or up. -/
def setKey (e : Emulator) (key : Key) (pressed : Bool) : Emulator :=
  { e with machine := { e.machine with keypad := e.machine.keypad.set key.val pressed } }

/-- Every key goes up. -/
def clearKeys (e : Emulator) : Emulator :=
  { e with machine := { e.machine with keypad := e.machine.keypad.clear } }

/-- Run one instruction. -/
def step (e : Emulator) : Report :=
  let r := e.machine.step e.settings.dialect
  ⟨r.outcome, { e with machine := r.machine }, r.events.toArray⟩

/-- Run `n` instructions or until one fails, after a signal and events so far. -/
def runFrom : Nat → Emulator → Signal → Array Event → Report
  | 0, e, signal, events => ⟨.ok signal, e, events⟩
  | n + 1, e, _, events =>
    let r := e.step
    match r.outcome with
    | .ok signal => runFrom n r.emulator signal (events ++ r.events)
    | .error f => ⟨.error f, r.emulator, events ++ r.events⟩

/-- Run `n` instructions, or until one fails. The timers stand still. -/
def run (e : Emulator) (n : Nat) : Report := runFrom n e .quiet #[]

/-- What there is to report of a change of the buzzer. -/
def buzzerEvents : Option Bool → Array Event
  | some on => #[.buzzer on]
  | none => #[]

/-- Let the timers count down once. The answer gives the buzzer's new state if
it changed. -/
def tick (e : Emulator) : Option Bool × Emulator × Array Event :=
  let (machine, change) := e.machine.tick
  (change, { e with machine := machine }, buzzerEvents change)

end Emulator
end ChipEight
