/-
# The ChaCha keystream

ChaCha with twelve rounds, a key of eight words, a block counter of
sixty-four bits and a nonce of zero. The stream is the words of block 0, then
those of block 1, and so on.

Key definitions: `ChaCha.block`, `ChaCha.Stream`, `ChaCha.Stream.next`.
-/

namespace ChipEight
namespace ChaCha

/-- The sixteen words the rounds work on. -/
abbrev State := Vector UInt32 16

/-- Rotate a word to the left by `n` places, for `0 < n < 32`. -/
def rotateLeft (w n : UInt32) : UInt32 := (w <<< n) ||| (w >>> (32 - n))

/-- Word `k` of a state, and zero where there is none. -/
def get (s : State) (k : Nat) : UInt32 := s[k]?.getD 0

/-- Put a word in place `k` of a state. -/
def put (s : State) (k : Nat) (w : UInt32) : State := s.setIfInBounds k w

/-- Add word `b` to word `a`, then mix the sum into word `d` by `n` places. -/
def mix (s : State) (a b d : Nat) (n : UInt32) : State :=
  let s := put s a (get s a + get s b)
  put s d (rotateLeft (get s d ^^^ get s a) n)

/-- The quarter round on four of the words. -/
def quarterRound (s : State) (a b c d : Nat) : State :=
  mix (mix (mix (mix s a b d 16) c d b 12) a b d 8) c d b 7

/-- A round on the columns, then a round on the diagonals. -/
def doubleRound (s : State) : State :=
  let s := quarterRound s 0 4 8 12
  let s := quarterRound s 1 5 9 13
  let s := quarterRound s 2 6 10 14
  let s := quarterRound s 3 7 11 15
  let s := quarterRound s 0 5 10 15
  let s := quarterRound s 1 6 11 12
  let s := quarterRound s 2 7 8 13
  quarterRound s 3 4 9 14

/-- `n` double rounds. -/
def doubleRounds : Nat → State → State
  | 0, s => s
  | n + 1, s => doubleRounds n (doubleRound s)

/-- The words before the rounds: constants, key, counter (low word first),
nonce. -/
def initial (key : Vector UInt32 8) (counter : UInt64) : State :=
  #v[0x61707865, 0x3320646e, 0x79622d32, 0x6b206574,
     key[0], key[1], key[2], key[3], key[4], key[5], key[6], key[7],
     counter.toUInt32, (counter >>> 32).toUInt32, 0, 0]

/-- One block of the keystream: twelve rounds, and the words before them added
to those after. -/
def block (key : Vector UInt32 8) (counter : UInt64) : List UInt32 :=
  let start := initial key counter
  List.zipWith (· + ·) (doubleRounds 6 start).toList start.toList

/-- A place in a keystream: the key, the next block's number, and the words of
the block before it that are still to come. -/
structure Stream where
  key : Vector UInt32 8
  counter : UInt64
  pending : List UInt32
  deriving DecidableEq

namespace Stream

/-- The start of a key's stream. -/
def ofKey (key : Vector UInt32 8) : Stream := ⟨key, 0, []⟩

/-- Take the next word. -/
def next (s : Stream) : UInt32 × Stream :=
  match s.pending with
  | w :: ws => (w, { s with pending := ws })
  | [] =>
    let words := block s.key s.counter
    (words.headD 0, { s with counter := s.counter + 1, pending := words.tail })

end Stream
end ChaCha
end ChipEight
