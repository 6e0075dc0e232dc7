/-
# Files

The file system as the library sees it: for each path, the bytes found there
or why there are none. Nothing is read anywhere else.

Key definitions: `Files`, `Files.read`, `Files.program`, `Emulator.loadFile`.
-/
import ChipEight.Emulator

namespace ChipEight

/-- Why the bytes of a file cannot be had. -/
inductive ReadError where
  | notFound
  | isDirectory
  /-- A part of the path is a plain file that would have to be a directory. -/
  | notDirectory
  /-- The path or a name in it has more bytes than a file system takes. -/
  | nameTooLong
  /-- The path holds a character that no path can hold. -/
  | zeroInPath
  | other (text : String)
  deriving DecidableEq, Repr

/-- The words a read error is reported in. -/
def ReadError.message : ReadError → String
  | notFound => "No such file or directory (os error 2)"
  | isDirectory => "Is a directory (os error 21)"
  | notDirectory => "Not a directory (os error 20)"
  | nameTooLong => "File name too long (os error 36)"
  | zeroInPath => "file name contained an unexpected NUL byte"
  | other text => text

/-- What is found at each path. -/
abbrev Files := String → Except ReadError (List UInt8)

namespace Files

/-- The bytes at a path. A path that holds a zero character names no file. -/
def read (files : Files) (path : String) : Except ReadError (List UInt8) :=
  if path.toList.contains '\x00' then .error .zeroInPath else files path

/-- The most bytes a path may have. -/
def pathLimit : Nat := 4095

/-- The most bytes a name in a path may have. -/
def nameLimit : Nat := 255

/-- Whether a name in a path leads to a place that is always there: the
directory itself or the one above. -/
def isAlwaysThere (name : List Char) : Bool := name = [] || name = ['.'] || name = ['.', '.']

/-- The first name in a path that leads anywhere else. -/
def firstName (path : String) : List Char :=
  ((path.toList.splitOn '/').dropWhile isAlwaysThere).headD []

/-- Whether a path where nothing exists is refused for its length. The names
after the first are not looked at, because the first is missing. -/
def isTooLong (path : String) : Bool :=
  pathLimit < path.utf8ByteSize || nameLimit < (String.ofList (firstName path)).utf8ByteSize

/-- The files that are listed; no others exist. -/
def ofList (entries : List (String × Except ReadError (List UInt8))) : Files := fun path =>
  match entries.find? (·.1 = path) with
  | some (_, found) => found
  | none => .error (if isTooLong path then .nameTooLong else .notFound)

/-- The program at a path. A file that is too long for memory is no program. -/
def program (files : Files) (path : String) : Except Failure (List UInt8) :=
  match files.read path with
  | .ok bytes =>
    if bytes.length ≤ Memory.programLimit then .ok bytes
    else .error (.romTooLarge bytes.length Memory.programLimit)
  | .error .notFound => .error (.romNotFound path)
  | .error e => .error (.unreadable e.message)

end Files

namespace Emulator

/-- Take the program at a path. If there is none, nothing changes. -/
def loadFile (e : Emulator) (files : Files) (path : String) :
    Except Failure Unit × Emulator × List Event :=
  match files.program path with
  | .ok program =>
    let (outcome, e, events) := e.load program
    (outcome, e, .opening path :: events)
  | .error f => (.error f, e, [.opening path])

end Emulator
end ChipEight
