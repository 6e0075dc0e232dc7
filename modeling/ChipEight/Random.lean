/-
# Random bytes

A machine draws its random bytes from a source: either words that are given
and repeat from the start when they run out, or the keystream of a seed. One
draw takes one word and gives its low byte.

Key definitions: `RandomSource`, `RandomSource.next`, `RandomSource.ofSeed`.
-/
import ChipEight.Random.ChaCha

namespace ChipEight

/-- Where random bytes come from, and how far it has been read. -/
inductive RandomSource where
  /-- Given words, over and over, and the number of words taken so far. -/
  | cycle (words : Array UInt32) (taken : Nat)
  /-- The keystream of a seed. -/
  | stream (s : ChaCha.Stream)
  deriving DecidableEq

namespace RandomSource

/-- The step by which a seed is spread over a key. -/
def spread (s : UInt64) : UInt64 := s * 6364136223846793005 + 11634580027462260723

/-- The key word that a spread seed gives: its high bits, folded, and rotated
to the right by its topmost five. -/
def keyWord (s : UInt64) : UInt32 :=
  let folded := (((s >>> 18) ^^^ s) >>> 27).toUInt32
  let n := (s >>> 59).toUInt32
  (folded >>> n) ||| (folded <<< ((32 - n) % 32))

/-- The next `n` key words of a seed. -/
def keyWords : Nat → UInt64 → List UInt32
  | 0, _ => []
  | n + 1, s => keyWord (spread s) :: keyWords n (spread s)

/-- The key of a seed. -/
def seedKey (seed : UInt64) : Vector UInt32 8 :=
  Vector.ofFn fun i => (keyWords 8 seed).getD i.val 0

/-- The source that a seed stands for. -/
def ofSeed (seed : UInt64) : RandomSource :=
  .stream (.ofKey (seedKey seed))

/-- The source that repeats the given words. -/
def ofWords (words : List UInt32) : RandomSource := .cycle words.toArray 0

/-- Draw one byte. -/
def next : RandomSource → UInt8 × RandomSource
  | .cycle words taken =>
    ((words.getD (taken % words.size) 0).toUInt8, .cycle words (taken + 1))
  | .stream s =>
    let (w, s) := s.next
    (w.toUInt8, .stream s)

end RandomSource
end ChipEight
