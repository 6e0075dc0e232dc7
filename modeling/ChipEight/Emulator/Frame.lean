/-
# Frames

Once a frame the keys are read, time passes for the machine, the changes of
the buzzer go to the audio device in order, and the screen is presented once.
The peripherals are a record of functions on a state of their own.

Key definitions: `Peripherals`, `Emulator.frame`.
-/
import ChipEight.Emulator.Elapse

namespace ChipEight

/-- Input and output around a machine, with a state `σ`. Each action may have
something to report. -/
structure Peripherals (σ : Type) where
  /-- Bring the keypad up to date. -/
  readKeys : σ → Keypad → σ × Keypad × List Event
  /-- Turn the sound on or off. -/
  sound : σ → Bool → σ × List Event
  /-- Present a screen. -/
  present : σ → Screen → σ

namespace Peripherals

/-- No keys, no picture and no sound. -/
def absent : Peripherals Unit where
  readKeys _ keypad := ((), keypad, [])
  sound _ _ := ((), [])
  present _ _ := ()

variable {σ : Type}

/-- Turn the sound on and off as listed, after events so far. -/
def soundAll (d : Peripherals σ) (s : σ) (events : Array Event) : List Bool → σ × Array Event
  | [] => (s, events)
  | on :: rest =>
    let (s, more) := d.sound s on
    d.soundAll s (events ++ more) rest

end Peripherals

/-- The outcome of a frame: that of its instructions, the emulator and the
peripherals afterwards, and what there is to report, in order. -/
structure FrameReport (σ : Type) where
  outcome : Except Failure Signal
  emulator : Emulator
  peripherals : σ
  events : Array Event

namespace Emulator

variable {σ : Type}

/-- Run one frame. The screen is presented, and the sound brought up to date,
also when an instruction fails. -/
def frame (d : Peripherals σ) (s : σ) (e : Emulator) (elapsed : Nat) :
    Except Overflow (FrameReport σ) := do
  let (s, keypad, read) := d.readKeys s e.machine.keypad
  let r ← ({ e with machine := { e.machine with keypad := keypad } }).elapse elapsed
  let (s, events) := d.soundAll s (read.toArray ++ r.events) r.emulator.buzzes.toList
  let s := d.present s r.emulator.machine.screen
  return ⟨r.outcome, { r.emulator with buzzes := #[] }, s, events⟩

end Emulator
end ChipEight
