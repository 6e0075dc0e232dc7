/-
# Replays

Peripherals for a run without a window: the keys come from a list of key events,
and what the machine shows and sounds is remembered.

Key definitions: `Replay`, `Replay.readKeys`, `Replay.peripherals`.
-/
import ChipEight.Emulator.Frame
import ChipEight.Plan

namespace ChipEight

/-- Scripted keys and remembered output. -/
structure Replay where
  /-- How often the keys were read. -/
  frame : Nat
  /-- The key events still to come, by frame. -/
  pending : List KeyEvent
  /-- The screen presented last. -/
  screen : Screen
  /-- Whether the sound is on. -/
  buzzing : Bool
  /-- How often a screen was presented. -/
  presented : Nat
  deriving DecidableEq

namespace Replay

/-- A replay before its first frame. -/
def ofKeys (keys : List KeyEvent) : Replay := ⟨0, keys, .dark, false, 0⟩

/-- Whether a key event is due in frame `n` or was before. -/
def isDue (n : Nat) (e : KeyEvent) : Bool := e.frame ≤ n

/-- The key events that the next reading applies. -/
def due (r : Replay) : List KeyEvent := r.pending.takeWhile (isDue r.frame)

/-- Apply key events to a keypad, in order. -/
def applyKeys (keypad : Keypad) (keys : List KeyEvent) : Keypad :=
  keys.foldl (fun p e => p.set e.key.val e.pressed) keypad

/-- Apply the key events that are due, and count the frame. -/
def readKeys (r : Replay) (keypad : Keypad) : Replay × Keypad × List Event :=
  ({ r with frame := r.frame + 1, pending := r.pending.dropWhile (isDue r.frame) },
    applyKeys keypad r.due,
    r.due.map fun e => .scripted r.frame e.key e.pressed)

/-- Remember whether the sound is on. -/
def sound (r : Replay) (on : Bool) : Replay × List Event :=
  ({ r with buzzing := on }, [.heard on])

/-- Remember the screen. -/
def present (r : Replay) (s : Screen) : Replay :=
  { r with screen := s, presented := r.presented + 1 }

/-- The replay as an emulator drives it. -/
def peripherals : Peripherals Replay := ⟨readKeys, sound, present⟩

end Replay
end ChipEight
