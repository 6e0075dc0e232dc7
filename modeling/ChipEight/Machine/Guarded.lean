/-
# A step with its bounds tested

The step of a machine once more, as a host with words of a fixed width carries
it out. Every index is held against the size of what it points into: the
registers, the sixteen places for return addresses, memory, the screen and the
bits of the keypad. Every sum on the program counter, an address or a
coordinate has to fit its word. Instructions are looked up in three tables,
the second and third of which object to an instruction that they do not hold.
A test that fails ends the step with a `Fault`.

Key definitions: `Fault`, `Guarded.execute`, `Guarded.step`.
-/
import ChipEight.Machine.Step

namespace ChipEight

/-- What a test objects to. -/
inductive Fault where
  /-- There is no place `i` in something of this size. -/
  | index (i size : Nat)
  /-- The number does not fit in this many bits. -/
  | width (n bits : Nat)
  /-- The table does not hold the instruction. -/
  | table (instruction : Instruction)
  deriving DecidableEq, Repr

namespace Guarded

/-- The place `i` of something of this size. -/
def index (size i : Nat) : Except Fault (Fin size) :=
  if h : i < size then .ok ⟨i, h⟩ else .error (.index i size)

/-- A number, if it fits in so many bits. -/
def fit (bits n : Nat) : Except Fault Nat :=
  if n < 1 <<< bits then .ok n else .error (.width n bits)

/-- The byte at an address, of which the low twelve bits count. -/
def read (m : Memory) (a : Nat) : Except Fault UInt8 := do
  let k ← index 4096 (a &&& 0xFFF)
  return m.bytes[k]

/-- Put one byte at an address, of which the low twelve bits count. -/
def write (m : Memory) (a : Nat) (b : UInt8) : Except Fault Memory := do
  let k ← index 4096 (a &&& 0xFFF)
  return ⟨m.bytes.set k b⟩

/-- Put bytes at the addresses from `a + k` on. -/
def writeAll (m : Memory) (a k : Nat) : List UInt8 → Except Fault Memory
  | [] => return m
  | b :: bs => do
    let place ← fit 64 (a + k)
    writeAll (← write m place b) a (k + 1) bs

/-- The word at an address, high byte first. -/
def word (m : Memory) (a : Nat) : Except Fault UInt16 := do
  let high ← read m a
  let low ← read m (← fit 64 (a + 1))
  return UInt16.ofNat (high.toNat * 256 + low.toNat)

/-- The value of a register, of whose number the low four bits count. -/
def get (m : Machine) (x : Nat) : Except Fault UInt8 := do
  let k ← index 16 (x &&& 0xF)
  return m.v[k]

/-- Put a value in a register, of whose number the low four bits count. -/
def setV (m : Machine) (x : Nat) (b : UInt8) : Except Fault Machine := do
  let k ← index 16 (x &&& 0xF)
  return { m with v := m.v.set k b }

/-- Put 1 or 0 in the flag register. -/
def setFlag (m : Machine) (on : Bool) : Except Fault Machine :=
  setV m Reg.flag.val (if on then 1 else 0)

/-- Pass over one instruction if the condition holds. -/
def skipIf (m : Machine) (condition : Bool) : Except Fault Machine :=
  if condition then do
    let pc ← fit 64 (m.pc + 2)
    return m.goTo pc
  else return m

/-- Save a return address in the first free place. -/
def push (m : Machine) (a : UInt16) : Except Fault (Except Failure Machine) :=
  if m.calls.length < Machine.callLimit then do
    let _ ← index Machine.callLimit m.calls.length
    return .ok { m with calls := a :: m.calls }
  else return .error .stackOverflow

/-- Take back the return address in the last place that is taken. -/
def pop (m : Machine) : Except Fault (Except Failure (UInt16 × Machine)) :=
  match m.calls with
  | [] => return .error .stackUnderflow
  | a :: rest => do
    let _ ← index Machine.callLimit rest.length
    return .ok (a, { m with calls := rest })

/-- Whether the key with this number is down; numbers of no key are not. -/
def isPressed (p : Keypad) (id : Nat) : Except Fault Bool :=
  if id < 16 then do
    let k ← index 16 id
    return p.isDown k
  else return false

/-- Draw the columns `cs` of one sprite row, and remember whether a lit pixel
went dark. -/
def drawRow (x y : Nat) (row : UInt8) : List Nat → Screen → Bool → Except Fault (Screen × Bool)
  | [], s, erased => return (s, erased)
  | c :: cs, s, erased =>
    if Screen.rowBit row c then do
      let px ← fit 64 (x + c)
      let d ← index 2048 ((px &&& 63) + (y &&& 31) * 64)
      drawRow x y row cs (s.flip d) (erased || s.lit d)
    else drawRow x y row cs s erased

/-- Draw the rows of a sprite from row `r` on. -/
def drawRows (x y r : Nat) : List UInt8 → Screen → Bool → Except Fault (Screen × Bool)
  | [], s, erased => return (s, erased)
  | row :: rows, s, erased => do
    let py ← fit 64 (y + r)
    let (s, erased) ← drawRow x py row (List.range 8) s erased
    drawRows x y (r + 1) rows s erased

/-- The value that a shift takes. -/
def shiftOperand (d : Dialect) (m : Machine) (x y : Reg) : Except Fault UInt8 :=
  if d.shiftReadsY then get m y.val else get m x.val

/-- Move `I` behind the bytes of `V0` to `Vx`, in the dialects that do. The sum
wraps in sixteen bits. -/
def afterTransfer (d : Dialect) (m : Machine) (x : Reg) : Except Fault Machine :=
  if d.transferMovesI then do
    let n ← fit 16 (x.val + 1)
    return m.setI ((m.i.val + n) % 65536)
  else return m

/-- The second table: arithmetic. -/
def executeMath (d : Dialect) (m : Machine) : Instruction → Except Fault Reaction
  | .copy x y => do return (← setV m x.val (← get m y.val)).done
  | .or x y => do return (← setV m x.val ((← get m x.val) ||| (← get m y.val))).done
  | .and x y => do return (← setV m x.val ((← get m x.val) &&& (← get m y.val))).done
  | .xor x y => do return (← setV m x.val ((← get m x.val) ^^^ (← get m y.val))).done
  | .add x y => do
    let (a, b) := (← get m x.val, ← get m y.val)
    return (← setFlag (← setV m x.val (a + b)) (256 ≤ a.toNat + b.toNat)).done
  | .sub x y => do
    let (a, b) := (← get m x.val, ← get m y.val)
    return (← setFlag (← setV m x.val (a - b)) (b ≤ a)).done
  | .shiftRight x y => do
    let s ← shiftOperand d m x y
    return (← setFlag (← setV m x.val (s >>> 1)) (s.toNat % 2 = 1)).done
  | .subFrom x y => do
    let (a, b) := (← get m x.val, ← get m y.val)
    return (← setFlag (← setV m x.val (b - a)) (a ≤ b)).done
  | .shiftLeft x y => do
    let s ← shiftOperand d m x y
    return (← setFlag (← setV m x.val (s <<< 1)) (128 ≤ s.toNat)).done
  | i => .error (.table i)

/-- The third table: keys, timers and memory. -/
def executeMisc (d : Dialect) (m : Machine) : Instruction → Except Fault Reaction
  | .skipIfKey x => do
    let down ← isPressed m.keypad (← get m x.val).toNat
    return (← skipIf m down).done
  | .skipUnlessKey x => do
    let down ← isPressed m.keypad (← get m x.val).toNat
    return (← skipIf m !down).done
  | .readDelay x => do return (← setV m x.val m.timers.delay).done
  | .awaitKey x => do
    let k ← index 16 x.val
    return ⟨.ok .waiting, { m with keypad := m.keypad.forget, awaiting := some k }, [.waiting k]⟩
  | .startDelay x => do return { m with timers := m.timers.startDelay (← get m x.val) }.done
  | .startSound x => do
    match m.timers.startSound (← get m x.val) with
    | (timers, some on) => return ⟨.ok .sounded, { m with timers := timers }, [.buzzer on]⟩
    | (timers, none) => return { m with timers := timers }.done
  | .advance x => do return (m.setI ((m.i.val + (← get m x.val).toNat) % 65536)).done
  | .pointToGlyph x => do
    let offset ← fit 16 ((← get m x.val).toNat % 16 * Memory.glyphHeight)
    return (m.setI offset).done
  | .storeDecimal x => do
    let digits := Machine.decimalDigits (← get m x.val)
    return { m with memory := ← writeAll m.memory m.i.val 0 digits }.done
  | .storeRegisters x => do
    let memory ← (List.range (x.val + 1)).foldlM (fun memory k => do
      write memory (← fit 64 (m.i.val + k)) (← get m k)) m.memory
    return (← afterTransfer d { m with memory := memory } x).done
  | .loadRegisters x => do
    let m ← (List.range (x.val + 1)).foldlM (fun m k => do
      setV m k (← read m.memory (← fit 64 (m.i.val + k)))) m
    return (← afterTransfer d m x).done
  | i => .error (.table i)

/-- The first table: the screen, jumps and registers. What it does not hold is
looked up in one of the others. -/
def execute (d : Dialect) (m : Machine) : Instruction → Except Fault Reaction
  | .clear => return { m with screen := .dark }.signals .drew
  | .ret => do
    match ← pop m with
    | .ok (a, m) => return (m.goTo a.toNat).signals .jumped
    | .error f => return m.fails f
  | .jump a => return (m.goTo a.val).signals .jumped
  | .call a => do
    match ← push m (UInt16.ofNat (← fit 16 m.pc)) with
    | .ok m => return (m.goTo a.val).signals .jumped
    | .error f => return m.fails f
  | .skipIfByte x b => do return (← skipIf m ((← get m x.val) == b)).done
  | .skipUnlessByte x b => do return (← skipIf m ((← get m x.val) != b)).done
  | .skipIfSame x y => do return (← skipIf m ((← get m x.val) == (← get m y.val))).done
  | .putByte x b => do return (← setV m x.val b).done
  | .addByte x b => do return (← setV m x.val ((← get m x.val) + b)).done
  | .skipUnlessSame x y => do return (← skipIf m ((← get m x.val) != (← get m y.val))).done
  | .pointTo a => return { m with i := a }.done
  | .jumpPlus a => do
    let target ← fit 64 (a.val + (← get m 0).toNat)
    if target < Memory.size then return (m.goTo target).signals .jumped
    else return ⟨.error (.addressOutOfRange target), m, [.jumpOutOfRange target]⟩
  | .random x b => do
    let (r, random) := m.random.next
    return (← setV { m with random := random } x.val (b &&& r)).done
  | .draw x y n => do
    let (px, py) := (← get m x.val, ← get m y.val)
    -- the rows are gathered in a buffer of fifteen
    let height ← index (15 + 1) n.val
    let rows ← (List.range height.val).mapM fun r => do read m.memory (← fit 64 (m.i.val + r))
    let (screen, erased) ← drawRows px.toNat py.toNat 0 rows m.screen false
    return (← setFlag { m with screen := screen } erased).signals .drew
  | .copy x y => executeMath d m (.copy x y)
  | .or x y => executeMath d m (.or x y)
  | .and x y => executeMath d m (.and x y)
  | .xor x y => executeMath d m (.xor x y)
  | .add x y => executeMath d m (.add x y)
  | .sub x y => executeMath d m (.sub x y)
  | .shiftRight x y => executeMath d m (.shiftRight x y)
  | .subFrom x y => executeMath d m (.subFrom x y)
  | .shiftLeft x y => executeMath d m (.shiftLeft x y)
  | i => executeMisc d m i

/-- Look for a key on behalf of register `x`. -/
def resume (m : Machine) (x : Reg) : Except Fault Reaction :=
  match m.keypad.takeFresh with
  | some (key, keypad) => do
    let k ← index 16 key.val
    let m ← setV { m with keypad := keypad, awaiting := none } x.val (UInt8.ofNat k.val)
    return ⟨.ok .quiet, m, [.resumed x k]⟩
  | none => return m.signals .waiting

/-- Run the instruction at the program counter, or look for the awaited key. -/
def step (d : Dialect) (m : Machine) : Except Fault Reaction :=
  match m.awaiting with
  | some x => resume m x
  | none => do
    if (← fit 64 (m.pc + 1)) < Memory.size then
      let w ← word m.memory m.pc
      match Instruction.decode w with
      | some i =>
        let r ← execute d (m.goTo (← fit 64 (m.pc + 2))) i
        return { r with events := .executing m.pc i :: r.events }
      | none =>
        -- the report has room for sixteen bits
        let a ← fit 16 m.pc
        return ⟨.error (.invalidOpcode w a), m, [.unknownWord w a]⟩
    else return ⟨.error (.addressOutOfRange m.pc), m, [.leftMemory m.pc]⟩

end Guarded
end ChipEight
