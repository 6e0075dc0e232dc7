/-
# Clocks

A clock turns elapsed time into whole cycles of a fixed period. What is left of
a period is carried to the next call, so slicing time differently changes no
total. All times are in nanoseconds. A clock of period zero never becomes due,
and carries nothing.

Time is counted in sixty-four bits of seconds and the nanoseconds below one
second. A clock that would carry more than that reports an overflow and keeps
what it had.

Key definitions: `Clock`, `Clock.ofHz`, `Clock.elapse`.
-/

namespace ChipEight

namespace Time

/-- Nanoseconds in one second. -/
def second : Nat := 1000000000

/-- The first number of seconds that takes more than sixty-four bits. -/
def secondsLimit : Nat := 18446744073709551616

/-- The first length of time that is too long to be counted. -/
def limit : Nat := secondsLimit * second

end Time

/-- A sum of times came out too long to be counted. -/
inductive Overflow where
  | duration
  deriving DecidableEq, Repr

/-- The words an overflow is reported in. -/
def Overflow.message : Overflow → String
  | .duration => "overflow when adding durations"

/-- A period, and the time since the last whole one ended, which is less than a
period. -/
structure Clock where
  period : Nat
  carried : Nat
  carried_lt : carried = 0 ∨ carried < period
  deriving DecidableEq, Repr

namespace Clock

/-- A clock that has seen no time pass. -/
def ofPeriod (period : Nat) : Clock := ⟨period, 0, .inl rfl⟩

/-- The length of one cycle at `hz` cycles a second, rounded down, and zero at
no cycles a second. -/
def periodOf (hz : Nat) : Nat := Time.second / hz

/-- A clock of `hz` cycles a second. -/
def ofHz (hz : Nat) : Clock := ofPeriod (periodOf hz)

/-- The clock of the timers: sixty cycles a second. -/
def timer : Clock := ofHz 60

/-- Forget the time carried. -/
def reset (c : Clock) : Clock := { c with carried := 0, carried_lt := .inl rfl }

/-- Let time pass. The answer is the number of periods that ended, and the
clock with the rest carried. -/
def elapse (c : Clock) (elapsed : Nat) : Except Overflow (Nat × Clock) :=
  if h : c.period = 0 then .ok (0, c)
  else if c.carried + elapsed < Time.limit then
    .ok ((c.carried + elapsed) / c.period,
      { c with
        carried := (c.carried + elapsed) % c.period
        carried_lt := .inr (Nat.mod_lt _ (Nat.pos_of_ne_zero h)) })
  else .error .duration

end Clock
end ChipEight
