/-
# The changes of the buzzer in a batch

After a stretch of time, `buzzes` lists the changes of the buzzer that its steps
and ticks made, all of them, in order, and nothing else (`buzzes_are_changes`).
So they alternate, beginning with the opposite of the state before and ending
with the state after.
-/
import ChipEight.Proofs.Emulator.Acts
import ChipEight.Proofs.Emulator.Drive
import ChipEight.Proofs.Machine.Buzzing

namespace ChipEight
namespace Emulator

theorem step_change (e : Emulator) :
    e.step.change = (⟨.step, e.machine, e.step.emulator.machine⟩ : Call).change := by
  have hiff : e.step.outcome = .ok .sounded ↔
      e.step.emulator.machine.timers.buzzing ≠ e.machine.timers.buzzing :=
    (Machine.step_buzzing e.settings.dialect e.machine).1
  unfold Report.change Call.change
  split
  · next h => exact (if_neg (hiff.mp h)).symm
  · next h => exact (if_pos (by_contra fun hne => h (hiff.mpr hne))).symm

theorem changes_after (t : Driven) (due : Due) (events : Array Event) {c : Call} {l : List Call}
    (h : t.changes.toList = l.filterMap Call.change) :
    (t.after due events c.change).changes.toList = (c :: l).filterMap Call.change := by
  rw [Driven.after, Array.toList_append, h]
  cases hc : c.change with
  | none => rw [List.filterMap_cons_none hc]; rfl
  | some on => rw [List.filterMap_cons_some hc]; rfl

/-- Driving by hand makes the calls of the course, and is told of the changes
that these make. -/
theorem drive_course : ∀ (plan : List Due) (e : Emulator) (signal : Signal),
    (drive plan e signal).changes.toList =
        (e.machine.course e.settings.dialect plan).filterMap Call.change ∧
      (drive plan e signal).emulator.machine =
        Call.ending e.machine (e.machine.course e.settings.dialect plan)
  | [], _, _ => ⟨rfl, rfl⟩
  | .tick :: plan, e, signal => by
    obtain ⟨hchanges, hend⟩ := drive_course plan e.tick.2.1 signal
    refine ⟨?_, hend⟩
    have htick : e.tick.1 = (⟨.tick, e.machine, e.machine.tick.1⟩ : Call).change :=
      e.machine.tick_change
    rw [drive, htick]
    exact changes_after _ _ _ hchanges
  | .step :: plan, e, signal => by
    rcases hout : e.step.outcome with f | next
    · have hnone : (⟨.step, e.machine, e.step.emulator.machine⟩ : Call).change = none := by
        rw [← step_change, Report.change, hout]
      rw [drive_step_error hout, Machine.course_step_error hout]
      refine ⟨?_, rfl⟩
      exact (List.filterMap_cons_none (l := []) hnone).symm
    · obtain ⟨hchanges, hend⟩ := drive_course plan e.step.emulator next
      rw [drive_step_ok hout, Machine.course_step_ok hout, step_change]
      exact ⟨changes_after _ _ _ hchanges, hend⟩

/-- Calls by hand note nothing. -/
theorem acts_buzzes (e : Emulator) (l : List Act) : (e.acts l).buzzes = e.buzzes := by
  induction l using List.reverseRecOn with
  | nil => rfl
  | append_singleton l b ih =>
    rw [acts_snoc, ← ih]
    cases b <;> rfl

/-- A stretch of time makes the calls of a course and notes their changes, and
what was noted before does not matter. -/
theorem elapse_course {e : Emulator} {elapsed steps ticks : ℕ} {clock timer : Clock}
    (hs : e.clock.elapse elapsed = .ok (steps, clock))
    (ht : e.timer.elapse elapsed = .ok (ticks, timer)) :
    let made := e.machine.course e.settings.dialect (Batch.spread steps ticks)
    ∃ r : Report, r.emulator.machine = Call.ending e.machine made ∧
      r.emulator.buzzes.toList = made.filterMap Call.change ∧
      ∀ earlier, ({ e with buzzes := earlier } : Emulator).elapse elapsed = .ok r := by
  obtain ⟨hchanges, hend⟩ :=
    drive_course (Batch.spread steps ticks) (e.atBatch clock timer) .quiet
  exact ⟨_, hend, hchanges, fun earlier => elapse_eq_drive hs ht⟩

/-- The changes noted alternate, and lead from the buzzer's state before to its
state after. -/
theorem elapse_alternates {e : Emulator} {elapsed : ℕ} {r : Report}
    (h : e.elapse elapsed = .ok r) :
    (e.machine.timers.buzzing :: r.emulator.buzzes.toList).IsChain (· ≠ ·) ∧
      r.emulator.buzzes.toList.getLastD e.machine.timers.buzzing =
        r.emulator.machine.timers.buzzing := by
  obtain ⟨steps, clock, ticks, timer, hs, ht, -⟩ := elapse_eq_ok.mp h
  obtain ⟨r', hend, hbuzzes, helapse⟩ := elapse_course hs ht
  obtain rfl : r = r' := Except.ok.inj (h.symm.trans (helapse e.buzzes))
  have hlinked := Machine.linked_course e.settings.dialect (Batch.spread steps ticks) e.machine
  rw [hbuzzes, hend]
  exact ⟨Call.changes_alternate hlinked, Call.getLastD_changes hlinked⟩

/-- Let `steps` instructions and `ticks` ticks be due, and let `made` be the
calls of the batch, up to a step that fails if one does. Then `buzzes` lists the
changes of the buzzer that these calls made, in order; only ticks and
instructions that start the sound timer made one. So the list alternates,
beginning with the opposite of the buzzer's state before and ending with its
state after, and it is empty only if the two are the same. What was noted before
the batch does not matter, and calls by hand afterwards add nothing. -/
theorem buzzes_are_changes {e : Emulator} {elapsed steps ticks : ℕ} {clock timer : Clock}
    (hs : e.clock.elapse elapsed = .ok (steps, clock))
    (ht : e.timer.elapse elapsed = .ok (ticks, timer)) :
    let made := e.machine.course e.settings.dialect (Batch.spread steps ticks)
    ∃ r, e.elapse elapsed = .ok r ∧ r.emulator.machine = Call.ending e.machine made ∧
      r.emulator.buzzes.toList = made.filterMap Call.change ∧
      (∀ c ∈ made, ∀ on, c.change = some on →
        c.due = .tick ∨ ∃ x, c.before.current = some (.startSound x)) ∧
      (e.machine.timers.buzzing :: r.emulator.buzzes.toList).IsChain (· ≠ ·) ∧
      (∀ on, r.emulator.buzzes.toList.head? = some on → on = !e.machine.timers.buzzing) ∧
      (∀ on, r.emulator.buzzes.toList.getLast? = some on →
        on = r.emulator.machine.timers.buzzing) ∧
      (r.emulator.buzzes = #[] →
        r.emulator.machine.timers.buzzing = e.machine.timers.buzzing) ∧
      (∀ earlier, ({ e with buzzes := earlier } : Emulator).elapse elapsed = .ok r) ∧
      ∀ l, (r.emulator.acts l).buzzes = r.emulator.buzzes := by
  intro made
  obtain ⟨r, hend, hbuzzes, helapse⟩ := elapse_course hs ht
  obtain ⟨halternate, hlast⟩ := elapse_alternates (helapse e.buzzes)
  refine ⟨r, helapse e.buzzes, hend, hbuzzes, fun c hc on => Machine.due_of_change hc, halternate,
    fun on hon => ?_, fun on hon => ?_, fun hempty => ?_, helapse, acts_buzzes _⟩
  · obtain ⟨rest, hrest⟩ := List.head?_eq_some_iff.mp hon
    rw [hrest, List.isChain_cons_cons] at halternate
    exact Bool.eq_not_of_ne halternate.1.symm
  · rw [← hlast, List.getLastD_eq_getLast?, hon]
    rfl
  · rw [← hlast, hempty]
    rfl

/-- An emulator of a hundred instructions a second, with a program that starts
the sound timer again and again, from one. -/
def beeping : Emulator :=
  ((Emulator.new ⟨some 100, .modern, none⟩ (.ofWords [])).load
    [0x61, 1, 0xF1, 0x18, 0x62, 0, 0x12, 0x02]).2.1

/-- In fifty milliseconds the buzzer goes on, off with the next tick, and on again. -/
theorem beeping_changes :
    let timer : Clock := ⟨16666666, 2, .inr (by decide)⟩
    let made := beeping.machine.course beeping.settings.dialect (Batch.spread 5 3)
    beeping.clock.elapse 50000000 = .ok (5, .ofHz 100) ∧
      beeping.timer.elapse 50000000 = .ok (3, timer) ∧
      made.map Call.due = [.step, .tick, .step, .tick, .step, .step, .tick, .step] ∧
      ∃ r, beeping.elapse 50000000 = .ok r ∧ r.emulator.buzzes.toList = [true, false, true] ∧
        r.emulator.machine.timers.buzzing = true ∧
        ∀ l, (r.emulator.acts l).buzzes = r.emulator.buzzes := by
  intro timer made
  obtain ⟨hs, ht, hdue, hchanges⟩ : beeping.clock.elapse 50000000 = .ok (5, .ofHz 100) ∧
      beeping.timer.elapse 50000000 = .ok (3, timer) ∧
      made.map Call.due = [.step, .tick, .step, .tick, .step, .step, .tick, .step] ∧
      made.filterMap Call.change = [true, false, true] := by decide +kernel
  obtain ⟨r, hr, -, hbuzzes, -, -, -, hlast, -, -, hacts⟩ := buzzes_are_changes hs ht
  rw [hbuzzes] at hlast
  exact ⟨hs, ht, hdue, r, hr, hbuzzes.trans hchanges,
    (hlast true (by rw [hchanges]; rfl)).symm, hacts⟩

end Emulator
end ChipEight
