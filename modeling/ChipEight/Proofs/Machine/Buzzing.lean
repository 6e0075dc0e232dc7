/-
# What changes the buzzer

The buzzer is brought in line with the sound timer by every tick and by the
instruction that starts that timer, and nothing else touches it. Both tell of a
change exactly if there is one (`tick_change`, `step_buzzing`). So along
calls one after the other, each change told is from one state of the buzzer to
the other (`changes_alternate`), and the last one told is the state at the end
(`getLastD_changes`).

Key definitions: `Call`, `Call.change`, `Machine.course`.
-/
import Mathlib.Data.List.Chain
import ChipEight.Proofs.Machine.Untimed

namespace ChipEight

/-- Once settled, the buzzer's state is told exactly if it is a new one. -/
theorem Timers.settle_change (t : Timers) : t.settle.2 =
    if t.settle.1.buzzing = t.buzzing then none else some t.settle.1.buzzing := by
  unfold settle
  simp only
  split
  · rw [if_pos rfl]
  · rfl

/-- A step or a tick, with the machine before and after it. -/
structure Call where
  due : Due
  before : Machine
  after : Machine

namespace Call

/-- The buzzer's new state, if the call changed it. -/
def change (c : Call) : Option Bool :=
  if c.after.timers.buzzing = c.before.timers.buzzing then none else some c.after.timers.buzzing

theorem change_eq_none {c : Call} :
    c.change = none ↔ c.after.timers.buzzing = c.before.timers.buzzing := by
  unfold change
  split <;> simp [*]

theorem change_eq_some {c : Call} {on : Bool} : c.change = some on ↔
    c.after.timers.buzzing = on ∧ on ≠ c.before.timers.buzzing := by
  unfold change
  split <;> grind

/-- Each call begins where the one before it ended, and the first at a given
machine. -/
def Linked : Machine → List Call → Prop
  | _, [] => True
  | m, c :: l => c.before = m ∧ Linked c.after l

/-- The machine after all calls. -/
def ending : Machine → List Call → Machine
  | m, [] => m
  | _, c :: l => ending c.after l

/-- The changes told of along linked calls alternate. -/
theorem changes_alternate : ∀ {l : List Call} {m : Machine}, Linked m l →
    (m.timers.buzzing :: l.filterMap change).IsChain (· ≠ ·)
  | [], _, _ => List.isChain_singleton _
  | c :: l, _, ⟨rfl, hl⟩ => by
    have ih := changes_alternate hl
    cases hc : c.change with
    | none =>
      rw [List.filterMap_cons_none hc, ← change_eq_none.mp hc]
      exact ih
    | some on =>
      obtain ⟨rfl, hne⟩ := change_eq_some.mp hc
      rw [List.filterMap_cons_some hc, List.isChain_cons_cons]
      exact ⟨hne.symm, ih⟩

/-- The last change told of along linked calls is the state they end in. -/
theorem getLastD_changes : ∀ {l : List Call} {m : Machine}, Linked m l →
    (l.filterMap change).getLastD m.timers.buzzing = (ending m l).timers.buzzing
  | [], _, _ => rfl
  | c :: l, _, ⟨rfl, hl⟩ => by
    have ih := getLastD_changes hl
    cases hc : c.change with
    | none =>
      rw [List.filterMap_cons_none hc, ← change_eq_none.mp hc]
      exact ih
    | some on =>
      obtain ⟨rfl, -⟩ := change_eq_some.mp hc
      rw [List.filterMap_cons_some hc, List.getLastD_cons]
      exact ih

end Call

namespace Machine

theorem tick_change (m : Machine) : m.tick.2 = (⟨.tick, m, m.tick.1⟩ : Call).change :=
  Timers.settle_change _

/-- Other instructions leave the buzzer alone, and do not tell of it. -/
theorem execute_buzzing (d : Dialect) (m : Machine) {i : Instruction}
    (hi : ∀ x, i ≠ .startSound x) : (m.execute d i).outcome ≠ .ok .sounded ∧
      (m.execute d i).machine.timers.buzzing = m.timers.buzzing := by
  cases i with
  | startSound x => exact absurd rfl (hi x)
  | ret =>
    simp only [execute, pop]
    cases m.calls <;> exact ⟨by rintro ⟨⟩, rfl⟩
  | call a =>
    simp only [execute, push]
    by_cases h : m.calls.length < callLimit
    · simp only [if_pos h]
      exact ⟨by rintro ⟨⟩, rfl⟩
    · simp only [if_neg h]
      exact ⟨by rintro ⟨⟩, rfl⟩
  | jumpPlus a =>
    simp only [execute]
    split <;> exact ⟨by rintro ⟨⟩, rfl⟩
  | skipIfByte x b | skipUnlessByte x b | skipIfSame x y | skipUnlessSame x y | skipIfKey x
  | skipUnlessKey x =>
    simp only [execute, done, signals]
    rw [skipIf_frame]
    exact ⟨by rintro ⟨⟩, rfl⟩
  | storeRegisters x | loadRegisters x =>
    simp only [execute, done, signals]
    rw [afterTransfer_frame]
    exact ⟨by rintro ⟨⟩, rfl⟩
  | _ => exact ⟨by rintro ⟨⟩, rfl⟩

/-- The instruction that starts the sound timer tells of a change exactly if
there is one. -/
theorem execute_startSound (d : Dialect) (m : Machine) (x : Reg) :
    (m.execute d (.startSound x)).outcome = .ok .sounded ↔
      (m.execute d (.startSound x)).machine.timers.buzzing ≠ m.timers.buzzing := by
  have hsettle : (m.timers.startSound (m.get x)).2 =
      if (m.timers.startSound (m.get x)).1.buzzing = m.timers.buzzing then none
      else some (m.timers.startSound (m.get x)).1.buzzing := Timers.settle_change _
  rw [execute_startSound_machine]
  simp only [execute]
  split
  · next timers on hs =>
    rw [hs] at hsettle ⊢
    have hne : timers.buzzing ≠ m.timers.buzzing := by
      intro h
      rw [if_pos h] at hsettle
      cases hsettle
    exact iff_of_true rfl hne
  · next timers hs =>
    rw [hs] at hsettle ⊢
    have heq : timers.buzzing = m.timers.buzzing := by
      by_contra h
      rw [if_neg h] at hsettle
      cases hsettle
    exact iff_of_false (by rintro ⟨⟩) (not_not_intro heq)

/-- A step changes the buzzer only if it starts the sound timer, and tells of a
change exactly if there is one. -/
theorem step_buzzing (d : Dialect) (m : Machine) :
    ((m.step d).outcome = .ok .sounded ↔ (m.step d).machine.timers.buzzing ≠ m.timers.buzzing) ∧
      ((∀ x, m.current ≠ some (.startSound x)) →
        (m.step d).machine.timers.buzzing = m.timers.buzzing) := by
  cases ha : m.awaiting with
  | some x =>
    rw [step_of_awaiting ha]
    unfold resume
    split <;> exact ⟨iff_of_false nofun (not_not_intro rfl), fun _ => rfl⟩
  | none =>
    cases hc : m.current with
    | none =>
      rcases step_of_stuck ha hc d with ⟨-, hs⟩ | ⟨-, -, hs⟩ <;> rw [hs] <;>
        exact ⟨iff_of_false nofun (not_not_intro rfl), fun _ => rfl⟩
    | some i =>
      rw [step_of_current hc]
      by_cases hi : ∃ x, i = .startSound x
      · obtain ⟨x, rfl⟩ := hi
        exact ⟨execute_startSound d m.skip x, fun h => absurd rfl (h x)⟩
      · obtain ⟨hquiet, hsame⟩ := execute_buzzing d m.skip (fun x hx => hi ⟨x, hx⟩)
        exact ⟨iff_of_false hquiet (not_not_intro hsame), fun _ => hsame⟩

/-- The calls that are made of those listed, which are all of them, or those up
to and with the first step that fails. -/
def course (d : Dialect) : List Due → Machine → List Call
  | [], _ => []
  | .tick :: plan, m => ⟨.tick, m, m.tick.1⟩ :: course d plan m.tick.1
  | .step :: plan, m =>
    ⟨.step, m, (m.step d).machine⟩ ::
      match (m.step d).outcome with
      | .ok _ => course d plan (m.step d).machine
      | .error _ => []

theorem course_step_ok {d : Dialect} {m : Machine} {s : Signal} (h : (m.step d).outcome = .ok s)
    (plan : List Due) : course d (.step :: plan) m =
      ⟨.step, m, (m.step d).machine⟩ :: course d plan (m.step d).machine := by
  simp only [course, h]

theorem course_step_error {d : Dialect} {m : Machine} {f : Failure}
    (h : (m.step d).outcome = .error f) (plan : List Due) :
    course d (.step :: plan) m = [⟨.step, m, (m.step d).machine⟩] := by
  simp only [course, h]

theorem linked_course (d : Dialect) : ∀ (plan : List Due) (m : Machine),
    Call.Linked m (course d plan m)
  | [], _ => trivial
  | .tick :: plan, m => ⟨rfl, linked_course d plan m.tick.1⟩
  | .step :: plan, m => by
    refine ⟨rfl, ?_⟩
    split
    · exact linked_course d plan (m.step d).machine
    · trivial

/-- Of the calls that are made, only ticks and steps that start the sound timer
change the buzzer. -/
theorem due_of_change {d : Dialect} {plan : List Due} {m : Machine} {c : Call} {on : Bool}
    (hc : c ∈ course d plan m) (hon : c.change = some on) :
    c.due = .tick ∨ ∃ x, c.before.current = some (.startSound x) := by
  induction plan generalizing m with
  | nil => cases hc
  | cons due plan ih =>
    cases due with
    | tick =>
      rcases List.mem_cons.mp hc with rfl | hc
      · exact .inl rfl
      · exact ih hc
    | step =>
      rcases List.mem_cons.mp hc with rfl | hc
      · right
        by_contra hx
        have hsame := (step_buzzing d m).2 fun x h => hx ⟨x, h⟩
        obtain ⟨rfl, hne⟩ := Call.change_eq_some.mp hon
        exact hne hsame
      · split at hc
        · exact ih hc
        · cases hc

end Machine
end ChipEight
