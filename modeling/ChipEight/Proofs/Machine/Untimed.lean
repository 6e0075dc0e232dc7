/-
# Machines that leave the timers alone

A step that uses no timer does the same whatever the timers hold, so a tick can
come before or after it (`stepUntimed_tick`), and what a list of steps and ticks
comes to depends on how many of each it holds, not on their order
(`follow_perm`).

Key definitions: `Machine.follow`.
Key theorems: `Machine.stepUntimed_tick`, `Machine.follow_perm`.
-/
import ChipEight.Emulator.Elapse
import ChipEight.Proofs.Machine.Host

namespace ChipEight
namespace Machine

/-- The machine after a step that succeeds and uses no timer. -/
def stepUntimed (d : Dialect) (m : Machine) : Option Machine :=
  if m.usesTimers then none
  else
    match (m.step d).outcome with
    | .ok _ => some (m.step d).machine
    | .error _ => none

/-- The machine after steps and ticks as listed, if every step succeeds and
uses no timer. -/
def follow (d : Dialect) : List Due → Machine → Option Machine
  | [], m => some m
  | .tick :: plan, m => follow d plan m.tick.1
  | .step :: plan, m => (stepUntimed d m).bind (follow d plan)

theorem stepUntimed_eq_some {d : Dialect} {m m' : Machine} : stepUntimed d m = some m' ↔
    m.usesTimers = false ∧ (∃ s, (m.step d).outcome = .ok s) ∧ (m.step d).machine = m' := by
  unfold stepUntimed
  cases m.usesTimers <;> rcases (m.step d).outcome with f | s <;> simp

/-- A tick before such a step can as well come after it. -/
theorem stepUntimed_tick (d : Dialect) (m : Machine) :
    stepUntimed d m.tick.1 = (stepUntimed d m).map fun m => m.tick.1 := by
  have htick : m.tick.1 = m.withTimers m.timers.tick.1 := rfl
  cases h : m.usesTimers with
  | true =>
    have h' : m.tick.1.usesTimers = true := h
    simp only [stepUntimed, h, h', if_true, Option.map_none]
  | false =>
    have h' : (m.withTimers m.timers.tick.1).usesTimers = false := h
    have hkeep : (m.step d).machine.timers = m.timers := step_timers h
    rw [htick]
    simp only [stepUntimed, h, h', step_withTimers h, Reaction.withTimers, Bool.false_eq_true,
      if_false]
    rcases (m.step d).outcome with f | s
    · rfl
    · rw [Option.map_some, ← hkeep]
      rfl

theorem follow_append (d : Dialect) : ∀ (p q : List Due) (m : Machine),
    follow d (p ++ q) m = (follow d p m).bind (follow d q)
  | [], _, _ => rfl
  | .tick :: p, q, m => follow_append d p q m.tick.1
  | .step :: p, q, m => by
    rw [List.cons_append, follow, follow, Option.bind_assoc]
    exact congrArg _ (funext fun m' => follow_append d p q m')

theorem follow_swap (d : Dialect) (plan : List Due) (m : Machine) :
    follow d (.step :: .tick :: plan) m = follow d (.tick :: .step :: plan) m := by
  simp only [follow, stepUntimed_tick, Option.bind_map]
  rfl

/-- The order of the steps and ticks makes no difference. -/
theorem follow_perm (d : Dialect) {p q : List Due} (h : p.Perm q) (m : Machine) :
    follow d p m = follow d q m := by
  induction h generalizing m with
  | nil => rfl
  | cons due _ ih =>
    cases due with
    | tick => exact ih m.tick.1
    | step => exact congrArg _ (funext ih)
  | swap a b plan =>
    cases a <;> cases b
    · rfl
    · exact (follow_swap d plan m).symm
    · exact follow_swap d plan m
    · rfl
  | trans _ _ ih1 ih2 => exact (ih1 m).trans (ih2 m)

end Machine
end ChipEight
