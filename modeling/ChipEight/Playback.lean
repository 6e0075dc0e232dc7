/-
# Playing a plan

A playback is an emulator with a replay around it. It runs frame by frame, each
with its own elapsed time, until the planned number of frames has run or an
instruction fails.

A run that keeps nothing but its last frame may be paced: it goes on in any monad
that tells how long each frame takes.

Key definitions: `Playback`, `Playback.ofPlan`, `Playback.next`,
`Played.onward`, `Playback.play`, `Playback.playLast`.
-/
import ChipEight.Replay

namespace ChipEight

/-- An emulator and the replay around it. -/
structure Playback where
  emulator : Emulator
  replay : Replay

/-- What one frame came to: the outcome of its instructions, the playback
afterwards, and what there is to report. -/
structure Played where
  outcome : Except Failure Signal
  playback : Playback
  events : Array Event

/-- The playback that a run goes on with after a frame. A frame that fails is the
last one. -/
def Played.onward (r : Played) : Option Playback :=
  match r.outcome with
  | .ok _ => some r.playback
  | .error _ => none

namespace Playback

/-- The start of a plan, without a program. -/
def ofPlan (plan : Plan) (entropy : UInt64) : Playback where
  emulator := .new plan.settings (plan.settings.randomSource entropy)
  replay := .ofKeys plan.keys

/-- Take a program. -/
def load (p : Playback) (program : List UInt8) : Except Failure Playback :=
  match p.emulator.load program with
  | (.ok (), e, _) => .ok { p with emulator := e }
  | (.error f, _, _) => .error f

/-- Run one frame. -/
def next (p : Playback) (elapsed : Nat) : Except Overflow Played := do
  let r ← p.emulator.frame Replay.peripherals p.replay elapsed
  return ⟨r.outcome, ⟨r.emulator, r.peripherals⟩, r.events⟩

/-- Run `n` frames, or until one fails, and tell what each came to. The frame
after `k` others takes the time `elapsed k`. -/
def playFor (elapsed : Nat → Nat) : Nat → Playback → Except Overflow (List Played)
  | 0, _ => return []
  | n + 1, p => do
    let r ← p.next (elapsed p.replay.frame)
    match r.onward with
    | some p => return r :: (← playFor elapsed n p)
    | none => return [r]

/-- Run until `frames` frames have run in all, or until one fails. -/
def play (p : Playback) (frames : Nat) (elapsed : Nat → Nat) : Except Overflow (List Played) :=
  p.playFor elapsed (frames - p.replay.frame)

section Paced

variable {m : Type → Type} [Monad m]

/-- Run `n` frames, or until one fails, and tell what the last one came to; `last`
came before them. The frame after `k` others takes the time that `lap k` tells when
it is due. -/
def playLastFor (lap : Nat → m Nat) : Nat → Playback → Option Played →
    m (Except Overflow (Option Played))
  | 0, _, last => return .ok last
  | n + 1, p, _ => do
    match p.next (← lap p.replay.frame) with
    | .error o => return .error o
    | .ok r =>
      match r.onward with
      | some p => playLastFor lap n p (some r)
      | none => return .ok (some r)

/-- Run until `frames` frames have run in all, or until one fails, and tell what the
last one came to, if there was any. -/
def playLast (p : Playback) (frames : Nat) (lap : Nat → m Nat) :
    m (Except Overflow (Option Played)) :=
  playLastFor lap (frames - p.replay.frame) p none

end Paced

end Playback
end ChipEight
