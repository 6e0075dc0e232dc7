/-
# The program

Reads the files that a command names, carries the command out, prints its
lines and exits with its code. A run is paced: each frame waits until one
period of the timers has passed since the frame before, and takes the time
that really went by.
-/
import ChipEight.CommandLine

namespace ChipEight
namespace Program

/-- The code of the system's error for reading a directory. -/
def isDirectoryCode : UInt32 := 21

/-- The reason for a failed read. -/
def readError : IO.Error → ReadError
  | .noFileOrDirectory _ _ _ => .notFound
  | .inappropriateType _ code _ =>
    if code = isDirectoryCode then .isDirectory else .notDirectory
  | e => .other (toString e)

/-- What is found at a path. -/
def readPath (path : String) : IO (Except ReadError (List UInt8)) := do
  try
    return .ok (← IO.FS.readBinFile path).toList
  catch e =>
    return .error (readError e)

/-- The files that a command reads. -/
def readFiles (command : Command) : IO Files := do
  let entries ← command.paths.mapM fun path => return (path, ← readPath path)
  return .ofList entries

/-- A number to derive random bytes from. -/
def entropy : IO UInt64 := do
  let bytes ← IO.getRandomBytes 8
  return bytes.toList.foldl (fun n b => n * 256 + b.toUInt64) 0

/-- Wait for a moment, and tell the time. -/
partial def waitUntil (moment : Nat) : IO Nat := do
  let now ← IO.monoNanosNow
  if moment ≤ now then return now
  IO.sleep (UInt32.ofNat ((moment - now) / 1000000))
  waitUntil moment

/-- Wait until one period of the timers has passed since a moment, and tell the time
that went by. The moment is then now. -/
def lap (since : IO.Ref Nat) : IO Nat := do
  let moment ← since.get
  let now ← waitUntil (moment + Clock.timer.period)
  since.set now
  return now - moment

/-- Tell why a run ended before its time, if it did. -/
def complain : Except Overflow (Option Played) → IO Unit
  | .error o => IO.eprintln o.message
  | .ok last =>
    match last.map Played.outcome with
    | some (.error f) => IO.eprintln (RunError.machine f).message
    | _ => return

/-- Print the lines and hand on the code. -/
def leave (e : Exit) : IO UInt32 := do
  e.lines.forM IO.println
  return UInt32.ofNat e.code

/-- Play a program at the pace of the timers. -/
def run (files : Files) (rom : String) (plan : Option String) : IO UInt32 := do
  IO.println Command.banner
  match Command.prepare files rom plan (← entropy) with
  | .error e =>
    IO.eprintln e.message
    return UInt32.ofNat Exit.failed
  | .ok (p, frames) =>
    let since ← IO.mkRef (← IO.monoNanosNow)
    let last ← p.playLast frames fun _ => lap since
    complain last
    leave (Command.conclude p last)

end Program
end ChipEight

open ChipEight in
def main (args : List String) : IO UInt32 := do
  match Command.parse args with
  | some (.run rom plan) =>
    Program.run (← Program.readFiles (.run rom plan)) rom plan
  | some (.dis rom) =>
    let files ← Program.readFiles (.dis rom)
    Program.leave (Command.execute files (fun _ => 0) 0 (some (.dis rom)))
  | none => Program.leave (Command.execute (.ofList []) (fun _ => 0) 0 none)
