/-
# When a step fails, and what it leaves

In every state an emulator gets into, the next step fails exactly if there is
an obstacle, and with that (`step_fails_iff`). A step that finds no instruction
changes nothing, so the next one fails in the same way; one whose instruction
cannot be carried out has moved the program counter past it, and that is all.
-/
import ChipEight.Proofs.Emulator.Safety
import ChipEight.Proofs.Machine.Failing

namespace ChipEight
namespace Emulator

/-- In every state an emulator gets into, a step fails exactly if there is an
obstacle, and with that: none while a key is awaited; else that no whole word
is left at the program counter, or that the word there, high byte first, fits
none of the thirty-four patterns; else that it is a return with nothing saved,
a call with sixteen addresses saved, or a jump out of memory. Every failure is
one that ends the program. In the first two cases nothing has changed, so a
further step fails in the same way; in the others the program counter has moved
past the instruction, and nothing else has changed. -/
theorem step_fails_iff {e : Emulator} (h : Reachable e) :
    let m := e.machine
    m.word.toNat = (m.memory.read m.pc).toNat * 256 + (m.memory.read (m.pc + 1)).toNat ∧
      (∀ f, e.step.outcome = .error f ↔ m.obstacle = some f) ∧
      ((∃ s, e.step.outcome = .ok s) ↔ m.obstacle = none) ∧
      ∀ f, e.step.outcome = .error f → f.isFatal = true ∧
        (m.unfetched = some f → e.step.emulator = e ∧ e.step.emulator.step.outcome = .error f) ∧
        (m.unfetched = none → m.undone = some f ∧
          e.step.emulator = { e with machine := m.goTo (m.pc + 2) }) := by
  intro m
  have hdepth : m.calls.length ≤ Machine.callLimit := (reachable_bounded h).depth_le
  cases ho : m.obstacle with
  | none =>
    obtain ⟨s, hs⟩ := Machine.step_of_obstacle_eq_none hdepth ho e.settings.dialect
    have hok : e.step.outcome = .ok s := hs
    rw [hok]
    exact ⟨m.toNat_word, fun f => iff_of_false nofun nofun, iff_of_true ⟨s, rfl⟩ rfl, nofun⟩
  | some g =>
    obtain ⟨hg, hframe⟩ := Machine.step_of_obstacle hdepth ho e.settings.dialect
    have herror : e.step.outcome = .error g := hg
    rw [herror]
    refine ⟨m.toNat_word, fun f => ?_, iff_of_false nofun nofun, fun f hf => ?_⟩
    · rw [Except.error.injEq, Option.some.injEq]
    · cases hf
      refine ⟨Machine.isFatal_of_obstacle ho, fun hu => ?_, fun hu => ?_⟩
      · rcases hframe with ⟨-, hsame⟩ | ⟨hnone, -⟩
        · have hstep : e.step.emulator = e := by rw [step, hsame]
          rw [hstep]
          exact ⟨rfl, herror⟩
        · rw [hu] at hnone
          cases hnone
      · rcases hframe with ⟨hsome, -⟩ | ⟨-, hun, hskip⟩
        · rw [hu] at hsome
          cases hsome
        · refine ⟨hun, ?_⟩
          rw [step, hskip]
          rfl

/-- An emulator whose program calls itself, when sixteen addresses are saved. -/
def selfCalling : Emulator :=
  (((Emulator.new .unset (.ofWords [])).load [0x22, 0x00]).2.1.run 16).emulator

/-- The next call fails and moves on, to a word that is no instruction. -/
theorem selfCalling_fails : Reachable selfCalling ∧
    selfCalling.step.outcome = .error .stackOverflow ∧
      selfCalling.step.emulator =
        { selfCalling with machine := selfCalling.machine.goTo 0x202 } ∧
      selfCalling.step.emulator.step.outcome = .error (.invalidOpcode 0 0x202) ∧
      selfCalling.step.emulator.step.emulator = selfCalling.step.emulator := by
  have hreach : Reachable selfCalling := .run 16 (.load [0x22, 0x00] (.new .unset (.ofWords [])))
  obtain ⟨hpc, hfull, hu, hthere, hinvalid⟩ : selfCalling.machine.pc = 0x200 ∧
      selfCalling.machine.obstacle = some .stackOverflow ∧
      selfCalling.machine.unfetched = none ∧
      selfCalling.step.emulator.machine.unfetched = some (.invalidOpcode 0 0x202) ∧
      selfCalling.step.emulator.machine.obstacle = some (.invalidOpcode 0 0x202) := by
    decide +kernel
  obtain ⟨-, hfails, -, hframe⟩ := step_fails_iff hreach
  have hover : selfCalling.step.outcome = .error .stackOverflow := (hfails _).mpr hfull
  have hmoved := ((hframe _ hover).2.2 hu).2
  rw [hpc] at hmoved
  obtain ⟨-, hfails', -, hframe'⟩ := step_fails_iff hreach.step
  have hbad := (hfails' _).mpr hinvalid
  exact ⟨hreach, hover, hmoved, hbad, ((hframe' _ hbad).2.1 hthere).1⟩

end Emulator
end ChipEight
