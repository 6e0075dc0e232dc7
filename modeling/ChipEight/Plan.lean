/-
# Plans

A plan says how a run without a window is to go: the emulator's settings, the
number of frames, and the keys to press on the way. It is written in YAML or
JSON. Every part may be left out, except that a key event needs all three of
its parts. The key events of a plan are in frame order, and those of one frame
in writing order.

Key definitions: `KeyEvent`, `Plan`, `Plan.ofNode?`, `Plan.ofText?`,
`Plan.ofFile`.
-/
import ChipEight.Files
import ChipEight.Yaml.Reader

namespace ChipEight

/-- A key that goes down or up at the start of a frame. -/
structure KeyEvent where
  frame : Nat
  key : Key
  pressed : Bool
  deriving DecidableEq, Repr

/-- How a run is to go. -/
structure Plan where
  settings : Settings
  /-- The number of frames to run. -/
  frames : Option Nat
  /-- The keys to press and release, by frame. -/
  keys : List KeyEvent
  deriving DecidableEq, Repr

/-- Why a run did not start, or stopped. -/
inductive RunError where
  /-- The machine failed or its program could not be had. -/
  | machine (f : Failure)
  /-- The plan's file could not be opened. -/
  | unopened (cause : String)
  /-- The plan's text is not a plan. -/
  | malformedPlan
  deriving DecidableEq, Repr

namespace RunError

/-- The words a run error is reported in. -/
def message (e : RunError) : String :=
  "application error: " ++
    match e with
    | machine f => f.message
    | unopened cause => cause
    | malformedPlan => "invalid config"

end RunError

namespace Plan

open Yaml

/-- The first number that takes more than sixty-four bits. A plan holds none of
those. -/
def numberLimit : Nat := 18446744073709551616

/-- Nothing planned: the usual settings and no keys. -/
def unset : Plan := ⟨.unset, none, []⟩

/-- A number that may be missing or nothing. -/
def number? : Option Node → Option (Option Nat)
  | none => some none
  | some node => if node.isNull then some none else (node.natural? numberLimit).map some

/-- A truth value, false if it is missing. -/
def flag? : Option Node → Option Bool
  | none => some false
  | some node => node.truth?

/-- The dialect written in a node, the usual one if it is missing. -/
def dialect? : Option Node → Option Dialect
  | none => some .modern
  | some node => do
    match ← node.fields? ["shift_uses_vy", "load_store_increments_i"] with
    | [shift, transfer] => return ⟨← flag? shift, ← flag? transfer⟩
    | _ => none

/-- The settings written in a node, the usual ones if it is missing. -/
def settings? : Option Node → Option Settings
  | none => some .unset
  | some node => do
    match ← node.fields? ["clock_frequency", "quirks", "seed"] with
    | [frequency, dialect, seed] =>
      return ⟨← number? frequency, ← dialect? dialect, ← number? seed⟩
    | _ => none

/-- The key event written in a node. -/
def keyEvent? (node : Node) : Option KeyEvent := do
  match ← node.fields? ["frame", "key", "pressed"] with
  | [some frame, some key, some pressed] =>
    return ⟨← frame.natural? numberLimit, ← Key.ofNat? (← key.natural? numberLimit),
      ← pressed.truth?⟩
  | _ => none

/-- The key events written in a node, in writing order; none if it is missing. -/
def keyEvents? : Option Node → Option (List KeyEvent)
  | none => some []
  | some node => do (← node.items?).mapM keyEvent?

/-- Key events by frame, those of one frame in the given order. -/
def sortKeys (keys : List KeyEvent) : List KeyEvent :=
  keys.mergeSort fun a b => a.frame ≤ b.frame

/-- The plan written in a node. -/
def ofNode? (node : Node) : Option Plan := do
  match ← node.fields? ["vm", "frames", "keys"] with
  | [settings, frames, keys] =>
    return ⟨← settings? settings, ← number? frames, sortKeys (← keyEvents? keys)⟩
  | _ => none

/-- The plan written in a text. -/
def ofText? (text : String) : Option Plan := do ofNode? (← Yaml.read text)

/-- The plan in a file's bytes. -/
def ofBytes? (bytes : List UInt8) : Option Plan := do
  ofText? (← String.fromUTF8? ⟨bytes.toArray⟩)

/-- The plan at a path. A directory can be opened, but holds no plan. -/
def ofFile (files : Files) (path : String) : Except RunError Plan :=
  match files.read path with
  | .ok bytes =>
    match ofBytes? bytes with
    | some plan => .ok plan
    | none => .error .malformedPlan
  | .error .isDirectory => .error .malformedPlan
  | .error e => .error (.unopened e.message)

end Plan
end ChipEight
