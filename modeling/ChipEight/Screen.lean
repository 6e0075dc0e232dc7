/-
# The screen

Sixty-four columns by thirty-two rows of pixels that are lit or dark. A sprite
is a list of rows of eight pixels, the highest bit leftmost. Drawing flips the
pixel under every set bit, around the edges, and reports whether any lit pixel
went dark on the way.

Key definitions: `Screen`, `Screen.spriteCells`, `Screen.flipAll`,
`Screen.draw`.
Key theorems: `Screen.flipAll_append`, `Screen.lit_dark`, `Screen.lit_flip`.
-/

namespace ChipEight

/-- The pixels, row by row from the top left. -/
structure Screen where
  pixels : Vector Bool 2048
  deriving DecidableEq

namespace Screen

/-- A place on the screen, numbered row by row. -/
abbrev Cell := Fin 2048

/-- The place in column `x` and row `y`, counted around the edges. -/
def cell (x y : Nat) : Cell := ⟨x % 64 + y % 32 * 64, by omega⟩

/-- Every pixel dark. -/
def dark : Screen := ⟨Vector.replicate 2048 false⟩

/-- Whether a place is lit. -/
def lit (s : Screen) (c : Cell) : Bool := s.pixels[c]

/-- Whether the pixel in column `x` and row `y` is lit. -/
def pixel (s : Screen) (x y : Nat) : Bool := s.lit (cell x y)

/-- Turn one pixel from lit to dark or from dark to lit. -/
def flip (s : Screen) (c : Cell) : Screen := ⟨s.pixels.set c (!s.pixels[c])⟩

/-- Flip pixels one after another. The answer also tells whether any of them
was lit when its turn came. -/
def flipAll (s : Screen) : List Cell → Screen × Bool
  | [] => (s, false)
  | c :: cs =>
    let was := s.lit c
    let (s, later) := (s.flip c).flipAll cs
    (s, was || later)

/-- Whether column `k` of a sprite row is set, counted from the left. -/
def rowBit (row : UInt8) (k : Nat) : Bool := row.toNat.testBit (7 - k)

/-- The places under the set bits of one sprite row. -/
def rowCells (x y : Nat) (row : UInt8) : List Cell :=
  ((List.range 8).filter (rowBit row)).map fun k => cell (x + k) y

/-- The places under the set bits of a sprite with its corner at `(x, y)`. -/
def spriteCells (x y : Nat) : List UInt8 → List Cell
  | [] => []
  | row :: rows => rowCells x y row ++ spriteCells x (y + 1) rows

/-- Draw a sprite with its corner at `(x, y)`. The answer also tells whether a
lit pixel went dark. -/
def draw (s : Screen) (x y : Nat) (rows : List UInt8) : Screen × Bool :=
  s.flipAll (spriteCells x y rows)

/-- The pixels of row `y` from the left. -/
def row (s : Screen) (y : Nat) : List Bool :=
  (List.range 64).map fun x => s.pixel x y

/-- Row `y` in writing: a hash for a lit pixel, a dot for a dark one. -/
def rowText (s : Screen) (y : Nat) : String :=
  String.ofList ((s.row y).map fun on => if on then '#' else '.')

/-- The rows in writing, from the top. -/
def lines (s : Screen) : List String := (List.range 32).map s.rowText

/-- The screen in writing, a line for each row. -/
def text (s : Screen) : String := String.join (s.lines.map (· ++ "\n"))

/-- The number of lit pixels. -/
def litCount (s : Screen) : Nat := s.pixels.toList.count true

theorem flipAll_append (s : Screen) (cs ds : List Cell) : s.flipAll (cs ++ ds) =
    (((s.flipAll cs).1.flipAll ds).1, (s.flipAll cs).2 || ((s.flipAll cs).1.flipAll ds).2) := by
  induction cs generalizing s with
  | nil => simp [flipAll]
  | cons c cs ih => simp only [List.cons_append, flipAll, ih, Bool.or_assoc]

/-! ### Single pixels -/

@[simp] theorem lit_dark (c : Cell) : dark.lit c = false := by
  simp [lit, dark]

theorem lit_flip (s : Screen) (c d : Cell) :
    (s.flip c).lit d = (s.lit d ^^ decide (c = d)) := by
  by_cases h : c = d
  · subst h; simp [lit, flip]
  · have : c.val ≠ d.val := fun e => h (Fin.ext e)
    simp [lit, flip, this, h]

end Screen
end ChipEight
