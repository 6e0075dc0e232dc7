/-
# Trees of written data

What a YAML text says, before anybody asks for numbers: scalars as they are
written, sequences, and mappings in writing order. A scalar in quotes is kept
apart from a plain one, because only a plain one can stand for a number, a
truth value or nothing. Where a value is left out, an empty plain scalar
stands.

The readings of a scalar are the ones of YAML's core schema: decimal, or
hexadecimal, octal and binary behind `0x`, `0o` and `0b`; and a number with a
zero in front is no number.

Key definitions: `Yaml.Node`, `Yaml.Node.natural?`, `Yaml.Node.fields?`.
-/

namespace ChipEight
namespace Yaml

/-- A piece of written data. -/
inductive Node where
  | plain (text : String)
  | quoted (text : String)
  | sequence (items : List Node)
  | mapping (entries : List (Node × Node))

namespace Node

/-- The value that is left out. -/
def empty : Node := .plain ""

/-- Whether a value is left out. -/
def isEmpty : Node → Bool
  | .plain text => text.isEmpty
  | _ => false

/-- Whether a value is left out or is written as one of the words for nothing. -/
def isNull : Node → Bool
  | .plain text => ["", "null", "Null", "NULL", "~"].contains text
  | _ => false

/-- The truth value that a plain scalar stands for. -/
def truth? : Node → Option Bool
  | .plain text =>
    if ["true", "True", "TRUE"].contains text then some true
    else if ["false", "False", "FALSE"].contains text then some false
    else none
  | _ => none

/-- The value of one digit in a base up to sixteen. -/
def digit? (base : Nat) (c : Char) : Option Nat :=
  let value :=
    if c.isDigit then c.toNat - '0'.toNat
    else if 'a' ≤ c ∧ c ≤ 'f' then c.toNat - 'a'.toNat + 10
    else if 'A' ≤ c ∧ c ≤ 'F' then c.toNat - 'A'.toNat + 10
    else base
  if value < base then some value else none

/-- The number that digits stand for, after the digits read so far. -/
def digits? (base : Nat) : Nat → List Char → Option Nat
  | n, [] => some n
  | n, c :: cs => (digit? base c).bind fun d => digits? base (n * base + d) cs

/-- The number that one or more digits stand for. -/
def number? (base : Nat) (cs : List Char) : Option Nat :=
  if cs.isEmpty then none else digits? base 0 cs

/-- The number that a plain scalar's characters stand for, if it is one. -/
def naturalOfChars? (cs : List Char) : Option Nat :=
  match (if cs.head? = some '+' then cs.tail else cs) with
  | '0' :: 'x' :: ds => number? 16 ds
  | '0' :: 'o' :: ds => number? 8 ds
  | '0' :: 'b' :: ds => number? 2 ds
  | '0' :: _ :: _ => none
  | ds => number? 10 ds

/-- The number below `limit` that a plain scalar stands for. -/
def natural? (limit : Nat) : Node → Option Nat
  | .plain text => (naturalOfChars? text.toList).filter (· < limit)
  | _ => none

/-- The text of a scalar, plain or quoted. -/
def scalar? : Node → Option String
  | .plain text | .quoted text => some text
  | _ => none

/-- The value behind a name, or nothing for a name that does not occur. It is
an error (`none`) for a name to occur twice. -/
def field? (entries : List (String × Node)) (name : String) : Option (Option Node) :=
  match entries.filter (·.1 = name) with
  | [] => some none
  | [(_, value)] => some (some value)
  | _ => none

/-- The values behind the names of a record, with nothing for those that are
missing. A record is written as a mapping, whose other entries do not matter,
or left out. -/
def fields? (names : List String) : Node → Option (List (Option Node))
  | .mapping entries => do
    let entries ← entries.mapM fun (k, v) => k.scalar?.map (·, v)
    names.mapM (field? entries)
  | .plain text => if text.isEmpty then some (names.map fun _ => none) else none
  | .quoted _ | .sequence _ => none

/-- The items of a list, which may be left out. -/
def items? : Node → Option (List Node)
  | .sequence items => some items
  | .plain text => if text.isEmpty then some [] else none
  | _ => none

end Node
end Yaml
end ChipEight
