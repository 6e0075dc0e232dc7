/-
# The sixteen keys

A keypad remembers two sets of keys: those that are down, and those that went
down since the machine last asked, the fresh ones. A key that is held does not
become fresh again before it has been let go. Each set is a word of sixteen
bits, one for each key.

Key definitions: `Key`, `Keypad`, `Keypad.set`, `Keypad.takeFresh`.
Key theorems: `Keypad.isDown_press`, `Keypad.isFresh_press`.
-/
import ChipEight.Text.Hex

namespace ChipEight

/-- One of the keys `0` to `F`. -/
abbrev Key := Fin 16

namespace Key

/-- The key with a given number, if there is one. -/
def ofNat? (n : Nat) : Option Key :=
  if h : n < 16 then some ⟨n, h⟩ else none

/-- What is said of a number that is no key. -/
def invalidMessage : String := "keycode must be in range 0 <= keycode < 16"

/-- The key as it is shown: `k` and a lower-case digit. -/
def text (k : Key) : String := "k" ++ Hex.lower 1 k.val

end Key

/-- The keys that are down and the keys that went down unnoticed so far. -/
structure Keypad where
  down : BitVec 16
  fresh : BitVec 16
  deriving DecidableEq, Repr

namespace Keypad

/-- No key is down and none is fresh. -/
def released : Keypad := ⟨0, 0⟩

/-- The set that holds one key alone. -/
def only (k : Key) : BitVec 16 := BitVec.twoPow 16 k.val

/-- Whether a key is down. -/
def isDown (p : Keypad) (k : Key) : Bool := p.down[k.val]

/-- Whether a key went down and has not been noticed since. -/
def isFresh (p : Keypad) (k : Key) : Bool := p.fresh[k.val]

/-- Whether the key with this number is down; numbers of no key are not. -/
def isPressed (p : Keypad) (id : Nat) : Bool :=
  match Key.ofNat? id with
  | some k => p.isDown k
  | none => false

/-- A key goes down. It becomes fresh only if it was up. -/
def press (p : Keypad) (k : Key) : Keypad :=
  { down := p.down ||| only k
    fresh := if p.isDown k then p.fresh else p.fresh ||| only k }

/-- A key goes up. If it was fresh it stays so. -/
def release (p : Keypad) (k : Key) : Keypad :=
  { p with down := p.down &&& ~~~only k }

/-- The key with this number goes down or up; numbers of no key do nothing. -/
def set (p : Keypad) (id : Nat) (pressed : Bool) : Keypad :=
  match Key.ofNat? id with
  | some k => if pressed then p.press k else p.release k
  | none => p

/-- Notice every key that went down so far. -/
def forget (p : Keypad) : Keypad := { p with fresh := 0 }

/-- Every key goes up, and none is fresh. -/
def clear (_ : Keypad) : Keypad := released

/-- All keys, in ascending order. -/
def allKeys : List Key := List.finRange 16

/-- The lowest fresh key, if any, and the keypad once it has been noticed. -/
def takeFresh (p : Keypad) : Option (Key × Keypad) :=
  match allKeys.find? p.isFresh with
  | some k => some (k, { p with fresh := p.fresh &&& ~~~only k })
  | none => none

/-- The keys that are down, in ascending order. -/
def downKeys (p : Keypad) : List Key := allKeys.filter p.isDown

/-- The fresh keys, in ascending order. -/
def freshKeys (p : Keypad) : List Key := allKeys.filter p.isFresh

/-- Whether any key is down. -/
def anyDown (p : Keypad) : Bool := p.down != 0

/-- The keys that are down in one line, or nothing if none is. -/
def text (p : Keypad) : String :=
  if p.anyDown then "keys: " ++ String.join (p.downKeys.map Key.text) else ""

/-! ### The two sets, key by key -/

theorem getElem_only (k j : Key) : (only k)[j.val] = decide (k = j) := by
  simp [only, Fin.ext_iff, eq_comm]

@[simp] theorem isDown_released (j : Key) : released.isDown j = false := by
  simp [isDown, released]

@[simp] theorem isFresh_released (j : Key) : released.isFresh j = false := by
  simp [isFresh, released]

@[simp] theorem isDown_press (p : Keypad) (k j : Key) :
    (p.press k).isDown j = (p.isDown j || decide (k = j)) := by
  simp [press, isDown, getElem_only]

@[simp] theorem isFresh_press (p : Keypad) (k j : Key) :
    (p.press k).isFresh j = (p.isFresh j || (decide (k = j) && !p.isDown k)) := by
  unfold press isFresh
  cases p.isDown k <;> simp [getElem_only]

@[simp] theorem isDown_release (p : Keypad) (k j : Key) :
    (p.release k).isDown j = (p.isDown j && !decide (k = j)) := by
  simp [release, isDown, getElem_only]

@[simp] theorem isFresh_release (p : Keypad) (k j : Key) :
    (p.release k).isFresh j = p.isFresh j := rfl

@[simp] theorem isDown_forget (p : Keypad) (j : Key) : p.forget.isDown j = p.isDown j := rfl

@[simp] theorem isFresh_forget (p : Keypad) (j : Key) : p.forget.isFresh j = false := by
  simp [forget, isFresh]

end Keypad
end ChipEight
