/-
# Reading written data

From text to `Yaml.Node`: block mappings and block sequences, which are told
apart by their columns; flow mappings and sequences in braces and brackets,
and so JSON; plain scalars, which may go on in deeper lines; scalars in double
quotes; comments; and the marks `---` and `...` around the one document of a
text. Anchors, tags, directives, explicit keys, single quotes and block
scalars are not read.

A `Cursor` is a place in the text. In a block, what may stand at a place is
decided by its column and by whether it is the first place of its line that
holds anything. A key and its colon share a line and are no more than
`Yaml.keyReach` bytes apart.

Key definitions: `Yaml.Cursor`, `Yaml.plain`, `Yaml.quoted`, `Yaml.flowNode`,
`Yaml.blockNode`, `Yaml.read`.
-/
import ChipEight.Yaml.Node

namespace ChipEight
namespace Yaml

/-! ### Characters -/

/-- Whether a text may hold this character: tabs, line ends, and what is no
control character and no mark of a broken encoding. -/
def isAllowed (c : Char) : Bool :=
  let n := c.toNat
  n = 9 || n = 10 || n = 13 || n = 0x85 || (0x20 ≤ n && n ≤ 0x7E) ||
    (0xA0 ≤ n && n ≤ 0xFFFD) || 0x10000 ≤ n

/-- Whether a character ends a line by itself. -/
def isLineEnd (c : Char) : Bool := [10, 13, 0x85, 0x2028, 0x2029].contains c.toNat

/-- Line ends are written in six ways and read as one. -/
def joinLineEnds : List Char → List Char
  | '\r' :: '\n' :: cs => '\n' :: joinLineEnds cs
  | c :: cs => (if isLineEnd c then '\n' else c) :: joinLineEnds cs
  | [] => []

/-- The character that may stand before the first of a line. -/
def byteOrderMark : Char := Char.ofNat 0xFEFF

/-- The number of bytes that characters are kept in. -/
def byteSize : List Char → Nat
  | [] => 0
  | c :: cs => c.utf8Size + byteSize cs

/-- Whether a blank, a line's end or the text's end comes first. -/
def blankFirst : List Char → Bool
  | [] => true
  | c :: _ => c = ' ' || c = '\t' || c = '\n'

/-- Whether a character is a mark of its own inside braces and brackets. -/
def isFlowMark (c : Char) : Bool := [',', '[', ']', '{', '}'].contains c

/-- Whether the mark that begins a document comes first. -/
def startMarkFirst : List Char → Bool
  | '-' :: '-' :: '-' :: cs => blankFirst cs
  | _ => false

/-- Whether the mark that ends a document comes first. -/
def endMarkFirst : List Char → Bool
  | '.' :: '.' :: '.' :: cs => blankFirst cs
  | _ => false

/-- Whether a document's mark comes first. Marks count in column 0 only. -/
def markFirst (column : Nat) (cs : List Char) : Bool :=
  column = 0 && (startMarkFirst cs || endMarkFirst cs)

/-! ### Places -/

/-- A place in the text: what follows, its line and column, and whether only
blanks stand before it in its line. -/
structure Cursor where
  rest : List Char
  line : Nat
  column : Nat
  fresh : Bool

namespace Cursor

/-- Pass over `n` characters of the line. -/
def skip (c : Cursor) (n : Nat) : Cursor :=
  { c with rest := c.rest.drop n, column := c.column + n, fresh := false }

/-- The next character. -/
def head? (c : Cursor) : Option Char := c.rest.head?

/-- Whether a document's mark stands here. -/
def atMark (c : Cursor) : Bool := markFirst c.column c.rest

/-- Whether the document ends here. -/
def atEnd (c : Cursor) : Bool := c.rest.isEmpty || c.atMark

/-- Whether a new line begins here, or the document ends. -/
def ended (c : Cursor) : Bool := c.atEnd || c.fresh

/-- Whether an item of a block sequence begins here. -/
def atItem (c : Cursor) : Bool := c.head? = some '-' && blankFirst (c.rest.drop 1)

/-- Whether the colon after a key stands here, in a block. -/
def atColon (c : Cursor) : Bool := c.head? = some ':' && blankFirst (c.rest.drop 1)

end Cursor

/-- The furthest that a colon may stand from the start of its key, in bytes. -/
def keyReach : Nat := 1024

/-- Whether a colon at `c` is near enough to a key that starts at `start`. No
character is shorter than a byte, so only near columns need their bytes counted. -/
def Cursor.inReach (c start : Cursor) : Bool :=
  c.line = start.line && c.column ≤ start.column + keyReach &&
    byteSize (start.rest.take (c.column - start.column)) ≤ keyReach

/-- Pass over blanks, comments and line ends. A tab is a blank, save at the
start of a block line, where only spaces may indent. A byte order mark in column
0 is passed over too, but takes its column. -/
def skipBlanksFrom (flow comment : Bool) : List Char → Nat → Nat → Bool → Cursor
  | [], line, column, fresh => ⟨[], line, column, fresh⟩
  | c :: cs, line, column, fresh =>
    if c = '\n' then skipBlanksFrom flow false cs (line + 1) 0 true
    else if comment || c = ' ' || (c = '\t' && (flow || !fresh)) ||
        (c = byteOrderMark && column = 0) then
      skipBlanksFrom flow comment cs line (column + 1) fresh
    else if c = '#' then skipBlanksFrom flow true cs line (column + 1) fresh
    else ⟨c :: cs, line, column, fresh⟩

/-- The next place that holds anything, in a block. -/
def Cursor.skipBlanks (c : Cursor) : Cursor :=
  skipBlanksFrom false false c.rest c.line c.column c.fresh

/-- The next place that holds anything, inside braces or brackets. -/
def Cursor.skipFlowBlanks (c : Cursor) : Cursor :=
  skipBlanksFrom true false c.rest c.line c.column c.fresh

/-! ### Scalars -/

/-- Whether a plain scalar may begin with these characters. -/
def plainFirst (flow : Bool) : List Char → Bool
  | [] => false
  | c :: cs =>
    if c = '-' then !blankFirst cs
    else if c = '?' || c = ':' then !flow && !blankFirst cs
    else !(blankFirst [c] || isFlowMark c ||
      ['#', '&', '*', '!', '|', '>', '\'', '"', '%', '@', '\x60'].contains c)

/-- The rest of a plain scalar, after the text so far and the blanks behind
it, both reversed as is the answer; `fresh` tells whether a line ended among the
blanks. In a block the scalar goes on in lines that are indented by `min` or
more, and nowhere may a tab stand to the left of that. -/
def plainFrom (flow : Bool) (min : Nat) :
    List Char → List Char → List Char → Nat → Nat → Bool → Option (List Char × Cursor)
  | [], text, _, line, column, fresh => some (text, ⟨[], line, column, fresh⟩)
  | c :: cs, text, blanks, line, column, fresh =>
    let stop := some (text, ⟨c :: cs, line, column, fresh⟩)
    if c = '\n' then plainFrom flow min cs text [' '] (line + 1) 0 true
    else if c = '\t' && fresh && column < min then none
    else if c = ' ' || c = '\t' then
      plainFrom flow min cs text (if fresh then blanks else c :: blanks) line (column + 1) fresh
    else if fresh && markFirst column (c :: cs) then stop
    else if c = '#' && !blanks.isEmpty then stop
    else if fresh && !flow && column < min then stop
    else if c = ':' && blankFirst cs then stop
    else if flow && c = ':' && (cs.head?.any fun d => d = '?' || isFlowMark d) then none
    else if flow && isFlowMark c then stop
    else plainFrom flow min cs (c :: (blanks ++ text)) [] line (column + 1) false

/-- The plain scalar here. -/
def plain (flow : Bool) (min : Nat) (c : Cursor) : Option (Node × Cursor) :=
  if plainFirst flow c.rest && !c.atMark then
    (plainFrom flow min c.rest [] [] c.line c.column false).map fun (text, c) =>
      (.plain (String.ofList text.reverse), c)
  else none

/-- What a backslash and a letter stand for in quotes. -/
def escape? (c : Char) : Option Char :=
  match c with
  | '0' => some '\x00'
  | 'a' => some '\x07'
  | 'b' => some '\x08'
  | 't' | '\t' => some '\t'
  | 'n' => some '\n'
  | 'v' => some '\x0b'
  | 'f' => some '\x0c'
  | 'r' => some '\r'
  | 'e' => some '\x1b'
  | ' ' => some ' '
  | '"' => some '"'
  | '/' => some '/'
  | '\\' => some '\\'
  | 'N' => some (Char.ofNat 0x85)
  | '_' => some (Char.ofNat 0xA0)
  | 'L' => some (Char.ofNat 0x2028)
  | 'P' => some (Char.ofNat 0x2029)
  | _ => none

/-- How many hexadecimal digits follow a backslash and a letter. -/
def escapeDigits? (c : Char) : Option Nat :=
  match c with
  | 'x' => some 2
  | 'u' => some 4
  | 'U' => some 8
  | _ => none

/-- Where the reader of a quoted scalar stands. -/
inductive QuoteState where
  | text
  | escape
  /-- Digits of a character's number are to come, after those read so far. -/
  | code (digits value : Nat)

/-- The rest of a quoted scalar, after the text so far, reversed. Line ends
count as blanks, and no line may begin with a document's mark. -/
def quotedFrom :
    List Char → QuoteState → List Char → Nat → Nat → Option (String × Cursor)
  | [], _, _, _, _ => none
  | c :: cs, .text, text, line, column =>
    if markFirst column (c :: cs) then none
    else if c = '"' then some (String.ofList text.reverse, ⟨cs, line, column + 1, false⟩)
    else if c = '\\' then quotedFrom cs .escape text line (column + 1)
    else if c = '\n' then quotedFrom cs .text (' ' :: text) (line + 1) 0
    else quotedFrom cs .text (c :: text) line (column + 1)
  | c :: cs, .escape, text, line, column =>
    match escape? c, escapeDigits? c with
    | some d, _ => quotedFrom cs .text (d :: text) line (column + 1)
    | none, some n => quotedFrom cs (.code n 0) text line (column + 1)
    | none, none => if c = '\n' then quotedFrom cs .text text (line + 1) 0 else none
  | c :: cs, .code digits value, text, line, column =>
    match Node.digit? 16 c with
    | none => none
    | some d =>
      let value := value * 16 + d
      if digits = 1 then
        if value.isValidChar then
          quotedFrom cs .text (Char.ofNat value :: text) line (column + 1)
        else none
      else quotedFrom cs (.code (digits - 1) value) text line (column + 1)

/-- The scalar in double quotes here. -/
def quoted (c : Cursor) : Option (Node × Cursor) :=
  (quotedFrom (c.rest.drop 1) .text [] c.line (c.column + 1)).map
    fun (text, c) => (.quoted text, c)

/-! ### Flow: braces and brackets

Here line ends and columns matter for keys only, and for tabs. Each function
takes the number of calls it may still be deep, and the indentation of the
block around it. -/

mutual

/-- The value here. -/
def flowNode : Nat → Nat → Cursor → Option (Node × Cursor)
  | 0, _, _ => none
  | n + 1, min, c =>
    match c.head? with
    | some '[' => (flowItems n min (c.skip 1)).map fun (items, c) => (.sequence items, c)
    | some '{' => (flowEntries n min (c.skip 1)).map fun (entries, c) => (.mapping entries, c)
    | some '"' => quoted c
    | _ => plain true min c

/-- A value that may be left out before a comma or the closing mark. -/
def flowValue : Nat → Nat → Cursor → Option (Node × Cursor)
  | 0, _, _ => none
  | n + 1, min, c =>
    let c := c.skipFlowBlanks
    match c.head? with
    | some ',' | some ']' | some '}' => some (.empty, c)
    | _ => flowNode n min c

/-- The items up to the closing bracket. A pair of key and value among them is
a mapping of its own. -/
def flowItems : Nat → Nat → Cursor → Option (List Node × Cursor)
  | 0, _, _ => none
  | n + 1, min, c => do
    let c := c.skipFlowBlanks
    if c.head? = some ']' then return ([], c.skip 1)
    let (key, d) ← flowNode n min c
    let d := d.skipFlowBlanks
    let (item, d) ←
      if d.head? = some ':' then
        if d.inReach c then
          (flowValue n min (d.skip 1)).map fun (value, d) => (.mapping [(key, value)], d)
        else none
      else some (key, d)
    let d := d.skipFlowBlanks
    match d.head? with
    | some ',' => (flowItems n min (d.skip 1)).map fun (items, d) => (item :: items, d)
    | some ']' => return ([item], d.skip 1)
    | _ => none

/-- The entries up to the closing brace. A key alone has an empty value. -/
def flowEntries : Nat → Nat → Cursor → Option (List (Node × Node) × Cursor)
  | 0, _, _ => none
  | n + 1, min, c => do
    let c := c.skipFlowBlanks
    if c.head? = some '}' then return ([], c.skip 1)
    let (key, d) ← flowNode n min c
    let d := d.skipFlowBlanks
    let (value, d) ←
      if d.head? = some ':' then
        if d.inReach c then flowValue n min (d.skip 1) else none
      else some (.empty, d)
    let d := d.skipFlowBlanks
    match d.head? with
    | some ',' =>
      (flowEntries n min (d.skip 1)).map fun (entries, d) => ((key, value) :: entries, d)
    | some '}' => return ([(key, value)], d.skip 1)
    | _ => none

end

/-! ### Blocks: columns -/

/-- A scalar or a flow value in a block whose lines are indented by `min` or
more. -/
def inline (n min : Nat) (c : Cursor) : Option (Node × Cursor) :=
  match c.head? with
  | some '[' | some '{' | some '"' => flowNode n min c
  | _ => plain false min c

mutual

/-- The value that begins here and whose lines are indented by `min` or more.
The place after it holds the next thing. -/
def blockNode : Nat → Nat → Cursor → Option (Node × Cursor)
  | 0, _, _ => none
  | n + 1, min, c =>
    if c.atItem then
      (blockItems n c.column c).map fun (items, c) => (.sequence items, c)
    else do
      let (node, d) ← inline n min c
      let d := d.skipBlanks
      if d.atColon then
        if d.inReach c then
          let (value, d) ← blockValue n (c.column + 1) (d.skip 1)
          let (entries, d) ← blockEntries n c.column d
          return (.mapping ((node, value) :: entries), d)
        else none
      else if d.ended then return (node, d)
      else none

/-- The value that is due here, with lines indented by `min` or more. In the
same line it is a scalar or a flow value; below, it may be any value, or a
sequence whose dashes are indented one less. It may be left out. -/
def blockValue : Nat → Nat → Cursor → Option (Node × Cursor)
  | 0, _, _ => none
  | n + 1, min, c =>
    let c := c.skipBlanks
    if c.atEnd then some (.empty, c)
    else if !c.fresh then do
      let (node, d) ← inline n min c
      let d := d.skipBlanks
      if d.ended then return (node, d) else none
    else if min ≤ c.column then blockNode n min c
    else if c.column + 1 = min && c.atItem then
      (blockItems n c.column c).map fun (items, c) => (.sequence items, c)
    else some (.empty, c)

/-- The further entries of a mapping whose keys stand in column `column`. -/
def blockEntries : Nat → Nat → Cursor → Option (List (Node × Node) × Cursor)
  | 0, _, _ => none
  | n + 1, column, c =>
    if c.atEnd || c.column < column then some ([], c)
    else if c.column = column then do
      let (key, d) ← inline n (column + 1) c
      let d := d.skipBlanks
      if d.atColon && d.inReach c then
        let (value, d) ← blockValue n (column + 1) (d.skip 1)
        let (entries, d) ← blockEntries n column d
        return ((key, value) :: entries, d)
      else none
    else none

/-- The items of a sequence whose dashes stand in column `column`. -/
def blockItems : Nat → Nat → Cursor → Option (List Node × Cursor)
  | 0, _, _ => none
  | n + 1, column, c =>
    if c.atEnd || c.column < column then some ([], c)
    else if c.column = column then
      if c.atItem then do
        let d := { c.skip 1 with fresh := true }.skipBlanks
        let (item, d) ←
          if !d.atEnd && column < d.column then blockNode n (column + 1) d else some (.empty, d)
        let (items, d) ← blockItems n column d
        return (item :: items, d)
      else some ([], c)
    else none

end

/-! ### Texts -/

/-- Whether nothing but marks that end a document, blanks and comments is left.
At most `n` marks are looked at. -/
def nothingLeft : Nat → Cursor → Bool
  | 0, c => c.rest.isEmpty
  | n + 1, c =>
    c.rest.isEmpty ||
      (c.column = 0 && endMarkFirst c.rest && nothingLeft n (c.skip 3).skipBlanks)

/-- The value of the one document that a text holds. A text of blanks and
comments holds the empty value. -/
def read (text : String) : Option Node :=
  let cs := joinLineEnds text.toList
  let size := cs.length
  let c := (Cursor.mk cs 0 0 true).skipBlanks
  if !cs.all isAllowed then none
  else if c.rest.isEmpty then some .empty
  else if c.column = 0 && endMarkFirst c.rest then none
  else
    let c := if c.column = 0 && startMarkFirst c.rest then c.skip 3 else c
    match blockValue (4 * size + 4) 0 c with
    | some (node, c) => if nothingLeft size c then some node else none
    | none => none

end Yaml
end ChipEight
