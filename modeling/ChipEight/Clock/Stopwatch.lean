/-
# A clock that counts

The clock once more, as a host with words of a fixed width carries it out. A
length of time is whole seconds, in sixty-four bits, and the nanoseconds below
one second; sums carry from one to the other and differences borrow. The periods
that have ended are counted one by one, in thirty-two bits, and each is taken
off what is carried. What does not fit ends the call with a `Jam`, and leaves
the stopwatch as it stands at that point.

Key definitions: `Span`, `Jam`, `Stopwatch`, `Stopwatch.elapse`.
-/
import ChipEight.Clock

namespace ChipEight

/-- A length of time. -/
structure Span where
  seconds : Nat
  nanos : Nat
  seconds_lt : seconds < Time.secondsLimit
  nanos_lt : nanos < Time.second
  deriving DecidableEq, Repr

namespace Span

/-- All of it in nanoseconds. -/
def total (s : Span) : Nat := s.seconds * Time.second + s.nanos

/-- No time at all. -/
def zero : Span := ⟨0, 0, Nat.succ_pos _, Nat.succ_pos _⟩

/-- So many nanoseconds, of which there are fewer than sixty-four bits of
seconds. -/
def ofNanos (n : Nat) (h : n < Time.limit) : Span where
  seconds := n / Time.second
  nanos := n % Time.second
  seconds_lt := Nat.div_lt_of_lt_mul (Nat.mul_comm _ _ ▸ h)
  nanos_lt := Nat.mod_lt n (Nat.succ_pos _)

/-- Seconds and nanoseconds, if the seconds fit. -/
def ofParts (seconds nanos : Nat) (h : nanos < Time.second) : Option Span :=
  if hs : seconds < Time.secondsLimit then some ⟨seconds, nanos, hs, h⟩ else none

instance : LT Span :=
  ⟨fun a b => a.seconds < b.seconds ∨ a.seconds = b.seconds ∧ a.nanos < b.nanos⟩

instance (a b : Span) : Decidable (a < b) :=
  inferInstanceAs (Decidable (a.seconds < b.seconds ∨ a.seconds = b.seconds ∧ a.nanos < b.nanos))

/-- The sum, if it can be counted. A second's worth of nanoseconds is carried. -/
def add (a b : Span) : Option Span :=
  if h : a.nanos + b.nanos < Time.second then ofParts (a.seconds + b.seconds) _ h
  else ofParts (a.seconds + b.seconds + 1) (a.nanos + b.nanos - Time.second) (by
    have ha := a.nanos_lt
    have hb := b.nanos_lt
    omega)

/-- The difference, if there is one. Where the nanoseconds do not suffice, a
second is borrowed. -/
def sub (a b : Span) : Option Span :=
  if a.seconds < b.seconds then none
  else if h : b.nanos ≤ a.nanos then
    some {
      seconds := a.seconds - b.seconds
      nanos := a.nanos - b.nanos
      seconds_lt := Nat.lt_of_le_of_lt (Nat.sub_le _ _) a.seconds_lt
      nanos_lt := Nat.lt_of_le_of_lt (Nat.sub_le _ _) a.nanos_lt }
  else if a.seconds = b.seconds then none
  else
    some {
      seconds := a.seconds - b.seconds - 1
      nanos := a.nanos + Time.second - b.nanos
      seconds_lt := Nat.lt_of_le_of_lt (Nat.le_trans (Nat.sub_le _ _) (Nat.sub_le _ _)) a.seconds_lt
      nanos_lt := by
        have hb := b.nanos_lt
        omega }

theorem total_pos {s : Span} (h : s ≠ zero) : 0 < s.total := by
  rcases s with ⟨seconds, nanos, hs, hn⟩
  have hne : ¬ (seconds = 0 ∧ nanos = 0) := fun ⟨h1, h2⟩ => h (by subst h1; subst h2; rfl)
  simp only [total, Time.second]
  omega

/-- What is left and what was taken off make up the whole. -/
theorem total_of_sub {a b s : Span} (h : a.sub b = some s) : s.total + b.total = a.total := by
  unfold sub at h
  split at h
  · cases h
  split at h
  · cases h
    simp only [total, Time.second]
    omega
  split at h
  · cases h
  · cases h
    have hb := b.nanos_lt
    simp only [total, Time.second] at hb ⊢
    omega

end Span

/-- What ends a call. -/
inductive Jam where
  /-- A sum of times is too long to be counted. -/
  | tooLong
  /-- A longer time was to be taken off a shorter one. -/
  | tooShort
  /-- There are too many periods. -/
  | tooMany
  deriving DecidableEq, Repr

/-- A period, and the time that is carried. -/
structure Stopwatch where
  period : Span
  carried : Span
  deriving DecidableEq, Repr

namespace Stopwatch

/-- The first count that takes more than thirty-two bits. -/
def countLimit : Nat := 4294967296

/-- A stopwatch that has seen no time pass. -/
def ofPeriod (period : Span) : Stopwatch := ⟨period, .zero⟩

/-- A stopwatch of `hz` cycles a second. -/
def ofHz (hz : Nat) : Stopwatch :=
  ofPeriod (.ofNanos (Clock.periodOf hz)
    (Nat.lt_of_le_of_lt (Nat.div_le_self Time.second hz) (by decide)))

/-- Forget the time carried. -/
def reset (w : Stopwatch) : Stopwatch := { w with carried := .zero }

/-- Take periods off what is carried for as long as there is a whole one, and
count them on from `count`. The answer comes with the time that is left. -/
def drain (period : Span) (h : period ≠ .zero) (carried : Span) (count : Nat) :
    Except Jam Nat × Span :=
  if carried < period then (.ok count, carried)
  else
    match hrest : carried.sub period with
    | none => (.error .tooShort, carried)
    | some rest =>
      if count + 1 < countLimit then drain period h rest (count + 1) else (.error .tooMany, rest)
termination_by carried.total
decreasing_by
  have hpos := Span.total_pos h
  have hrest := Span.total_of_sub hrest
  omega

/-- Let time pass. The answer is the number of periods that ended. -/
def elapse (w : Stopwatch) (elapsed : Span) : Except Jam Nat × Stopwatch :=
  if h : w.period = .zero then (.ok 0, w)
  else
    match w.carried.add elapsed with
    | none => (.error .tooLong, w)
    | some carried =>
      let left := drain w.period h carried 0
      (left.1, { w with carried := left.2 })

end Stopwatch
end ChipEight
