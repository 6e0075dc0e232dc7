/-
# What a run reports

The events that a machine and the peripherals around it report while they run,
each with a level and a text.

Key definitions: `Event`, `Event.level`, `Event.text`.
-/
import ChipEight.Failure
import ChipEight.Instruction.Mnemonic
import ChipEight.Keypad

namespace ChipEight

/-- How important an event is. -/
inductive Level where
  | error
  | info
  | debug
  | trace
  deriving DecidableEq, Repr

/-- Something worth reporting. -/
inductive Event where
  /-- A program file is about to be read. -/
  | opening (path : String)
  /-- A program was taken. -/
  | loaded (size : Nat)
  /-- An instruction is about to run. Only builds with the option `op_trace` report
  this; what is said of events here is said of those builds. -/
  | executing (pc : Nat) (instruction : Instruction)
  /-- The next instruction would lie outside memory. -/
  | leftMemory (pc : Nat)
  /-- The next word is no instruction. -/
  | unknownWord (word : UInt16) (pc : Nat)
  /-- A jump leads outside memory. -/
  | jumpOutOfRange (target : Nat)
  /-- The machine stands still until a key goes down. -/
  | waiting (x : Reg)
  /-- The key that the machine stood still for went down. -/
  | resumed (x : Reg) (key : Key)
  /-- The machine turned its buzzer on or off. -/
  | buzzer (on : Bool)
  /-- A scripted key went down or up. -/
  | scripted (frame : Nat) (key : Key) (pressed : Bool)
  /-- The audio device was turned on or off. -/
  | heard (on : Bool)
  deriving DecidableEq, Repr

namespace Event

/-- The level an event is reported at. -/
def level : Event → Level
  | leftMemory _ | unknownWord _ _ | jumpOutOfRange _ => .error
  | opening _ | loaded _ | heard _ => .info
  | waiting _ | resumed _ _ | buzzer _ | scripted _ _ _ => .debug
  | executing _ _ => .trace

/-- The buzzer's state in one word. -/
def onOff (on : Bool) : String := if on then "on" else "off"

/-- The text an event is reported in. -/
def text : Event → String
  | opening path => "load rom: " ++ path
  | loaded size => "loaded program: " ++ Nat.repr size ++ " bytes"
  | executing pc instruction => Hex.upper 4 pc ++ ": " ++ instruction.text
  | leftMemory pc => "program counter left memory: 0x" ++ Hex.upper 4 pc
  | unknownWord word pc => (Failure.invalidOpcode word pc).message
  | jumpOutOfRange target => "jump out of range: 0x" ++ Hex.upper 4 target
  | waiting x => "waiting for key into v" ++ Hex.upper 1 x.val
  | resumed x key => "key wait resolved: v" ++ Hex.upper 1 x.val ++ " = " ++ key.text
  | buzzer on | heard on => "buzzer " ++ onOff on
  | scripted frame key pressed =>
    "frame " ++ Nat.repr frame ++ ": " ++ key.text ++ " " ++ (if pressed then "down" else "up")

end Event
end ChipEight
