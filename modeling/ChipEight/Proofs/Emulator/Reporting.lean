/-
# One error for every failure but those of the stack

What holds of the errors of one step (`Machine.step_logged`) holds of a run of
instructions and of a stretch of time (`failures_logged`): all that comes before
a failure succeeded, and ticks report no errors. A failure of the stack ends a
step without a word (`returning_unlogged`).
-/
import ChipEight.Proofs.Emulator.Drive
import ChipEight.Proofs.Emulator.Failing
import ChipEight.Proofs.Machine.Reporting

namespace ChipEight
namespace Emulator

theorem step_logged (e : Emulator) : Logged e.step.outcome (errors e.step.events.toList) :=
  e.machine.step_logged e.settings.dialect

theorem errors_of_step {e : Emulator} {signal : Signal} (h : e.step.outcome = .ok signal) :
    errors e.step.events.toList = [] := by
  have hlogged := e.step_logged
  rw [h] at hlogged
  exact hlogged.eq_of_ok

theorem errors_of_buzzer : ∀ change : Option Bool, errors (buzzerEvents change).toList = []
  | none => rfl
  | some _ => rfl

theorem errors_of_tick (e : Emulator) : errors e.tick.2.2.toList = [] := errors_of_buzzer _

/-- A run reports what its last step does, after steps that succeeded. -/
theorem runFrom_logged : ∀ (n : ℕ) (e : Emulator) (signal : Signal) {events : Array Event},
    errors events.toList = [] → Logged (runFrom n e signal events).outcome
      (errors (runFrom n e signal events).events.toList)
  | 0, _, signal, events, hquiet => by
    simp only [runFrom, hquiet]
    exact .succeeded signal
  | n + 1, e, signal, events, hquiet => by
    have happend : errors (events ++ e.step.events).toList = errors e.step.events.toList := by
      rw [Array.toList_append, errors_append, hquiet, List.nil_append]
    unfold runFrom
    cases hout : e.step.outcome with
    | error f =>
      simp only [hout, happend]
      exact hout ▸ e.step_logged
    | ok next =>
      simp only [hout]
      exact runFrom_logged n e.step.emulator next (happend.trans (errors_of_step hout))

/-- So does a plan, whose ticks report no errors. -/
theorem drive_logged : ∀ (plan : List Due) (e : Emulator) (signal : Signal),
    Logged (drive plan e signal).outcome (errors (drive plan e signal).events.toList)
  | [], _, signal => .succeeded signal
  | .tick :: plan, e, signal => by
    simp only [drive, Driven.after, Array.toList_append, errors_append, errors_of_tick,
      List.nil_append]
    exact drive_logged plan e.tick.2.1 signal
  | .step :: plan, e, signal => by
    cases hout : e.step.outcome with
    | error f =>
      rw [drive_step_error hout]
      exact hout ▸ e.step_logged
    | ok next =>
      rw [drive_step_ok hout]
      simp only [Driven.after, Array.toList_append, errors_append, errors_of_step hout,
        List.nil_append]
      exact drive_logged plan e.step.emulator next

/-- In every state, a step that succeeds reports no error; one that fails for an
unknown word or an address reports exactly one, which names it; and one that
fails for the stack, where a return finds no address or a call no place for one,
reports none. Steps fail for nothing else. All of this holds of runs and of
stretches of time as well. -/
theorem failures_logged (e : Emulator) :
    Logged e.step.outcome (errors e.step.events.toList) ∧
      (∀ s, e.step.outcome = .ok s → errors e.step.events.toList = []) ∧
      (∀ f, e.step.outcome = .error f → (errors e.step.events.toList).length =
        if f = .stackOverflow ∨ f = .stackUnderflow then 0 else 1) ∧
      (∀ n, Logged (e.run n).outcome (errors (e.run n).events.toList)) ∧
      ∀ t r, e.elapse t = .ok r → Logged r.outcome (errors r.events.toList) := by
  refine ⟨e.step_logged, fun s => errors_of_step, fun f hf => ?_,
    fun n => runFrom_logged n e .quiet rfl, fun t r hr => ?_⟩
  · have hlogged := e.step_logged
    rw [hf] at hlogged
    exact hlogged.length_of_error
  · obtain ⟨steps, clock, ticks, timer, hs, ht, -⟩ := elapse_eq_ok.mp hr
    obtain rfl := Except.ok.inj (hr.symm.trans (elapse_eq_drive hs ht))
    exact drive_logged _ _ _

/-- An emulator whose program runs off its end after one instruction. -/
def straying : Emulator :=
  ((Emulator.new .unset (.ofWords [])).load [0x60, 1]).2.1

/-- Behind the program there is no instruction, and that is reported. -/
theorem straying_logged : (straying.run 2).outcome = .error (.invalidOpcode 0 0x202) ∧
    errors (straying.run 2).events.toList = [.unknownWord 0 0x202] ∧
    errors straying.step.events.toList = [] ∧
    ∃ r, straying.elapse 10000000 = .ok r ∧ r.outcome = .error (.invalidOpcode 0 0x202) ∧
      errors r.events.toList = [.unknownWord 0 0x202] := by
  obtain ⟨hrun, hstep, helapse⟩ : (straying.run 2).outcome = .error (.invalidOpcode 0 0x202) ∧
      straying.step.outcome = .ok .quiet ∧
      (straying.elapse 10000000).map Report.outcome = .ok (.error (.invalidOpcode 0 0x202)) := by
    decide +kernel
  obtain ⟨-, hok, -, hlogged, htime⟩ := failures_logged straying
  have hlast := hlogged 2
  rw [hrun] at hlast
  cases hr : straying.elapse 10000000 with
  | error o =>
    rw [hr] at helapse
    cases helapse
  | ok r =>
    rw [hr] at helapse
    have hout : r.outcome = .error (.invalidOpcode 0 0x202) := Except.ok.inj helapse
    have hpassed := htime _ r hr
    rw [hout] at hpassed
    exact ⟨hrun, hlast.eq_of_invalidOpcode, hok _ hstep, r, rfl, hout,
      hpassed.eq_of_invalidOpcode⟩

/-- An emulator whose program returns from nowhere. -/
def returning : Emulator :=
  ((Emulator.new .unset (.ofWords [])).load [0x00, 0xEE]).2.1

/-- Neither a return from nowhere nor a call too many reports an error. -/
theorem returning_unlogged :
    Reachable returning ∧ returning.step.outcome = .error .stackUnderflow ∧
      (errors returning.step.events.toList).length ≠ 1 ∧
    Reachable selfCalling ∧ selfCalling.step.outcome = .error .stackOverflow ∧
      (errors selfCalling.step.events.toList).length ≠ 1 := by
  have hreach : Reachable returning := .load _ (.new _ _)
  have hreach' : Reachable selfCalling := .run 16 (.load _ (.new _ _))
  obtain ⟨hunder, hnone, hover, hnone'⟩ : returning.step.outcome = .error .stackUnderflow ∧
      errors returning.step.events.toList = [] ∧
      selfCalling.step.outcome = .error .stackOverflow ∧
      errors selfCalling.step.events.toList = [] := by decide +kernel
  rw [hnone, hnone']
  exact ⟨hreach, hunder, nofun, hreach', hover, nofun⟩

end Emulator
end ChipEight
