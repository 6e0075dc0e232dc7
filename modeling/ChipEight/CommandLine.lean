/-
# The command line

`run` plays a program without a window and prints the last screen; `dis`
prints a listing of a program. Anything else prints how to use the two.

A command is carried out on a file system that is given; its answer is the
lines to print and the code to exit with.

Key definitions: `Command`, `Command.parse`, `Command.prepare`,
`Command.execute`.
-/
import ChipEight.Listing
import ChipEight.Playback

namespace ChipEight

/-- What the program is asked to do. -/
inductive Command where
  /-- Play the program at a path, by the plan at a path. -/
  | run (rom : String) (plan : Option String)
  /-- List the program at a path. -/
  | dis (rom : String)
  deriving DecidableEq, Repr

/-- The lines printed and the exit code. -/
structure Exit where
  code : Nat
  lines : List String
  deriving DecidableEq, Repr

namespace Exit

/-- All went well. -/
def success : Nat := 0

/-- The command could not be carried out. -/
def failed : Nat := 1

/-- The command was not understood. -/
def usage : Nat := 64

end Exit

namespace Command

/-- The command that the arguments ask for. Arguments after those needed do not
matter. -/
def parse : List String → Option Command
  | "run" :: rom :: rest => some (.run rom rest.head?)
  | "dis" :: rom :: _ => some (.dis rom)
  | _ => none

/-- How to use the program. -/
def usageLines : List String :=
  ["Chip8 v0.4.0",
   "",
   "usage: chip8 CMD FILE [CONFIG]",
   "",
   "commands:",
   "    run     Run the target ROM file without a window,",
   "            and print the final screen",
   "    dis     Disassemble the target ROM into readable assembly",
   "",
   "examples:",
   "    chip8 run breakout.rom",
   "    chip8 run breakout.rom breakout.yaml",
   "    chip8 dis breakout.rom",
   ""]

/-- What `run` prints before anything else. -/
def banner : String := "Running Bytecode Interpreter"

/-- The frames to run where the plan gives no number: ten seconds. -/
def defaultFrames : Nat := 600

/-- The paths a command reads. -/
def paths : Command → List String
  | .run rom plan => rom :: plan.toList
  | .dis rom => [rom]

/-- What `run` needs before its first frame: a playback with its program, and
the number of frames. The plan is read before the program. -/
def prepare (files : Files) (rom : String) (plan : Option String) (entropy : UInt64) :
    Except RunError (Playback × Nat) := do
  let plan ← match plan with
    | some path => Plan.ofFile files path
    | none => .ok .unset
  let p := Playback.ofPlan plan entropy
  match p.emulator.loadFile files rom with
  | (.ok (), e, _) => .ok ({ p with emulator := e }, plan.frames.getD defaultFrames)
  | (.error f, _, _) => .error (.machine f)

/-- A screen as it is printed, pixel after pixel as they are stored, with
sixty-four to a line: a hash for a lit one, a dot for a dark one. -/
def printed (s : Screen) : List String :=
  (List.range 32).map fun y => String.ofList
    (((s.pixels.toList.drop (64 * y)).take 64).map fun on => if on then '#' else '.')

/-- The exit code for the outcome of the last frame. -/
def exitCode : Except Failure Signal → Nat
  | .ok _ => Exit.success
  | .error _ => Exit.failed

/-- The end of a run: the screen shown last, and the exit code for the last
frame's outcome. -/
def finish (p : Playback) (frames : List Played) : Exit :=
  match frames.getLast? with
  | some r => ⟨exitCode r.outcome, printed r.playback.replay.screen⟩
  | none => ⟨Exit.success, printed p.replay.screen⟩

/-- The end of a run, from its last frame, if there was any. No screen is shown
where the time was too long to be counted. -/
def conclude (p : Playback) : Except Overflow (Option Played) → Exit
  | .ok last => finish p last.toList
  | .error _ => ⟨Exit.failed, []⟩

/-- Play a program whose frame after `k` others takes the time `elapsed k`. -/
def executeRun (files : Files) (elapsed : Nat → Nat) (entropy : UInt64) (rom : String)
    (plan : Option String) : Exit :=
  match prepare files rom plan entropy with
  | .error _ => ⟨Exit.failed, [banner]⟩
  | .ok (p, frames) =>
    let e := conclude p (Id.run (p.playLast frames fun k => pure (elapsed k)))
    { e with lines := banner :: e.lines }

/-- List a program. -/
def executeDis (files : Files) (rom : String) : Exit :=
  match files.program rom with
  | .error _ => ⟨Exit.failed, []⟩
  | .ok program =>
    let memory := Memory.withGlyphs.putProgram program
    ⟨Exit.success, (Listing.lines memory program.length).map Listing.Line.text⟩

/-- Carry out a command. -/
def execute (files : Files) (elapsed : Nat → Nat) (entropy : UInt64) : Option Command → Exit
  | some (.run rom plan) => executeRun files elapsed entropy rom plan
  | some (.dis rom) => executeDis files rom
  | none => ⟨Exit.usage, usageLines⟩

end Command
end ChipEight
