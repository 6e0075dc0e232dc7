/-
# One instruction

A step runs the instruction at the program counter, or, while a key is
awaited, looks for one. The program counter moves past the instruction before
it runs; jumps, calls, returns and skips change it from there. A step that
fails before its instruction runs changes nothing, and one whose instruction
fails has only moved the program counter.

Key definitions: `Machine.execute`, `Machine.step`.
-/
import ChipEight.Event
import ChipEight.Machine

namespace ChipEight

/-- What a host may want to know about a step. -/
inductive Signal where
  /-- Nothing that shows outside. -/
  | quiet
  /-- A jump, call or return. -/
  | jumped
  /-- The screen was drawn on or cleared. -/
  | drew
  /-- The buzzer went on or off. -/
  | sounded
  /-- The machine stands still for a key. -/
  | waiting
  deriving DecidableEq, Repr

/-- Where interpreters of the past differ. -/
structure Dialect where
  /-- Shifts take `Vy` and leave the result in `Vx`, instead of shifting `Vx`. -/
  shiftReadsY : Bool
  /-- `Fx55` and `Fx65` leave `I` behind the last byte they moved. -/
  transferMovesI : Bool
  deriving DecidableEq, Repr

/-- The dialect most programs of today expect. -/
def Dialect.modern : Dialect := ⟨false, false⟩

/-- The outcome of a step: a signal or a failure, the machine afterwards, and
what there is to report, in order. -/
structure Reaction where
  outcome : Except Failure Signal
  machine : Machine
  events : List Event

namespace Machine

/-- The step succeeded, with a signal. -/
def signals (m : Machine) (s : Signal) : Reaction := ⟨.ok s, m, []⟩

/-- The step succeeded, and nothing shows outside. -/
def done (m : Machine) : Reaction := m.signals .quiet

/-- The instruction could not be carried out. -/
def fails (m : Machine) (f : Failure) : Reaction := ⟨.error f, m, []⟩

/-- The value that a shift takes. -/
def shiftOperand (d : Dialect) (m : Machine) (x y : Reg) : UInt8 :=
  if d.shiftReadsY then m.get y else m.get x

/-- Move `I` behind the bytes of `V0` to `Vx`, in the dialects that do. -/
def afterTransfer (d : Dialect) (m : Machine) (x : Reg) : Machine :=
  if d.transferMovesI then m.setI (m.i.val + x.val + 1) else m

/-- The registers `V0` to `Vx` from memory at `I`, and the others as they are. -/
def loaded (m : Machine) (x : Reg) : Vector UInt8 16 :=
  Vector.ofFn fun k => if k ≤ x then m.memory.read (m.i.val + k.val) else m.get k

/-- The decimal digits of a byte, hundreds first. -/
def decimalDigits (b : UInt8) : List UInt8 := [b / 100, b / 10 % 10, b % 10]

/-- Carry out an instruction on a machine whose program counter is already
past it. Where an instruction writes both a result and the flag, the flag is
written last. -/
def execute (d : Dialect) (m : Machine) : Instruction → Reaction
  | .clear => { m with screen := .dark }.signals .drew
  | .ret =>
    match m.pop with
    | .ok (a, m) => (m.goTo a.toNat).signals .jumped
    | .error f => m.fails f
  | .jump a => (m.goTo a.val).signals .jumped
  | .call a =>
    match m.push (UInt16.ofNat m.pc) with
    | .ok m => (m.goTo a.val).signals .jumped
    | .error f => m.fails f
  | .skipIfByte x b => (m.skipIf (m.get x == b)).done
  | .skipUnlessByte x b => (m.skipIf (m.get x != b)).done
  | .skipIfSame x y => (m.skipIf (m.get x == m.get y)).done
  | .putByte x b => (m.setV x b).done
  | .addByte x b => (m.setV x (m.get x + b)).done
  | .copy x y => (m.setV x (m.get y)).done
  | .or x y => (m.setV x (m.get x ||| m.get y)).done
  | .and x y => (m.setV x (m.get x &&& m.get y)).done
  | .xor x y => (m.setV x (m.get x ^^^ m.get y)).done
  | .add x y =>
    let (a, b) := (m.get x, m.get y)
    ((m.setV x (a + b)).setFlag (256 ≤ a.toNat + b.toNat)).done
  | .sub x y =>
    let (a, b) := (m.get x, m.get y)
    ((m.setV x (a - b)).setFlag (b ≤ a)).done
  | .shiftRight x y =>
    let s := m.shiftOperand d x y
    ((m.setV x (s >>> 1)).setFlag (s.toNat % 2 = 1)).done
  | .subFrom x y =>
    let (a, b) := (m.get x, m.get y)
    ((m.setV x (b - a)).setFlag (a ≤ b)).done
  | .shiftLeft x y =>
    let s := m.shiftOperand d x y
    ((m.setV x (s <<< 1)).setFlag (128 ≤ s.toNat)).done
  | .skipUnlessSame x y => (m.skipIf (m.get x != m.get y)).done
  | .pointTo a => { m with i := a }.done
  | .jumpPlus a =>
    let target := a.val + (m.get Reg.first).toNat
    if target < Memory.size then (m.goTo target).signals .jumped
    else ⟨.error (.addressOutOfRange target), m, [.jumpOutOfRange target]⟩
  | .random x b =>
    let (r, random) := m.random.next
    ({ m with random := random }.setV x (b &&& r)).done
  | .draw x y n =>
    let rows := m.memory.slice m.i.val n.val
    let (screen, erased) := m.screen.draw (m.get x).toNat (m.get y).toNat rows
    ({ m with screen := screen }.setFlag erased).signals .drew
  | .skipIfKey x => (m.skipIf (m.keypad.isPressed (m.get x).toNat)).done
  | .skipUnlessKey x => (m.skipIf (!m.keypad.isPressed (m.get x).toNat)).done
  | .readDelay x => (m.setV x m.timers.delay).done
  | .awaitKey x =>
    ⟨.ok .waiting, { m with keypad := m.keypad.forget, awaiting := some x }, [.waiting x]⟩
  | .startDelay x => { m with timers := m.timers.startDelay (m.get x) }.done
  | .startSound x =>
    match m.timers.startSound (m.get x) with
    | (timers, some on) => ⟨.ok .sounded, { m with timers := timers }, [.buzzer on]⟩
    | (timers, none) => { m with timers := timers }.done
  | .advance x => (m.setI (m.i.val + (m.get x).toNat)).done
  | .pointToGlyph x => (m.setI ((m.get x).toNat % 16 * Memory.glyphHeight)).done
  | .storeDecimal x =>
    { m with memory := m.memory.writeAll m.i.val (decimalDigits (m.get x)) }.done
  | .storeRegisters x =>
    let memory := m.memory.writeAll m.i.val (m.v.toList.take (x.val + 1))
    ({ m with memory := memory }.afterTransfer d x).done
  | .loadRegisters x => ({ m with v := m.loaded x }.afterTransfer d x).done

/-- Look for a key on behalf of register `x`. The lowest key that went down
since the wait began ends it. -/
def resume (m : Machine) (x : Reg) : Reaction :=
  match m.keypad.takeFresh with
  | some (key, keypad) =>
    ⟨.ok .quiet,
      { m with keypad := keypad, awaiting := none }.setV x (UInt8.ofNat key.val),
      [.resumed x key]⟩
  | none => m.signals .waiting

/-- Run the instruction at the program counter, or look for the awaited key. -/
def step (d : Dialect) (m : Machine) : Reaction :=
  match m.awaiting with
  | some x => m.resume x
  | none =>
    if m.inBounds then
      match Instruction.decode m.word with
      | some instruction =>
        let r := execute d m.skip instruction
        { r with events := .executing m.pc instruction :: r.events }
      | none => ⟨.error (.invalidOpcode m.word m.pc), m, [.unknownWord m.word m.pc]⟩
    else ⟨.error (.addressOutOfRange m.pc), m, [.leftMemory m.pc]⟩

/-- One sixtieth of a second passes for the timers. The answer also gives the
buzzer's new state if it changed. -/
def tick (m : Machine) : Machine × Option Bool :=
  let (timers, change) := m.timers.tick
  ({ m with timers := timers }, change)

end Machine
end ChipEight
