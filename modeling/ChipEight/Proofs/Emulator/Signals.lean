/-
# Signals a host can rely on

The signal of a step that succeeds tells what the step did: whether the machine
now stands still for a key, whether the buzzer changed, whether the instruction
was a jump, and whether the screen can have changed; and where the program
counter is can be told from the machine before the step (`signal_tells`).
-/
import ChipEight.Proofs.Machine.Signals

namespace ChipEight
namespace Emulator

open Instruction

/-- Let a step succeed. It tells of a wait exactly if a key is awaited
afterwards, of the buzzer exactly if that changed, and of a jump exactly if no
key was awaited and the word at the program counter is a jump, a call, a return
or a jump by `V0`. Unless it tells of a drawing, every pixel is as it was. While
a key is awaited the program counter stays; else, unless it tells of a jump, the
program counter has passed one instruction, and two if the word is a skip whose
condition held before. -/
theorem signal_tells {e : Emulator} {s : Signal} (h : e.step.outcome = .ok s) :
    let m := e.machine
    let m' := e.step.emulator.machine
    (s = .waiting ↔ m'.awaiting.isSome = true) ∧
      (s = .sounded ↔ m'.timers.buzzing ≠ m.timers.buzzing) ∧
      (s = .jumped ↔ m.awaiting = none ∧
        ∃ p ∈ ["1NNN", "2NNN", "00EE", "BNNN"], Fits m.word p) ∧
      (s ≠ .drew → ∀ x y, m'.screen.pixel x y = m.screen.pixel x y) ∧
      (m.awaiting.isSome = true → m'.pc = m.pc) ∧
      (m.awaiting = none → s ≠ .jumped → m'.pc = if m.SkipDue then m.pc + 4 else m.pc + 2) := by
  intro m m'
  have hs : (m.step e.settings.dialect).outcome = .ok s := h
  have hbuzz : s = .sounded ↔ m'.timers.buzzing ≠ m.timers.buzzing := by
    have hsounded := (m.step_buzzing e.settings.dialect).1
    rw [hs, Except.ok.injEq] at hsounded
    exact hsounded
  cases ha : m.awaiting with
  | some x =>
    have hstep : m.step e.settings.dialect = m.resume x := Machine.step_of_awaiting ha _
    have hm' : m' = (m.resume x).machine := congrArg Reaction.machine hstep
    rw [hstep] at hs
    rcases m.resume_tells x with ⟨hout, hsame⟩ | ⟨hout, hawaiting, hscreen, hpc⟩
    · obtain rfl := Except.ok.inj (hs.symm.trans hout)
      rw [hm', hsame] at hbuzz ⊢
      exact ⟨iff_of_true rfl (by rw [ha]; rfl), hbuzz, iff_of_false nofun (nomatch ·.1),
        fun _ _ _ => rfl, fun _ => rfl, nofun⟩
    · obtain rfl := Except.ok.inj (hs.symm.trans hout)
      rw [hm'] at hbuzz ⊢
      rw [hawaiting, hscreen, hpc]
      exact ⟨iff_of_false nofun nofun, hbuzz, iff_of_false nofun (nomatch ·.1),
        fun _ _ _ => rfl, fun _ => rfl, nofun⟩
  | none =>
    obtain ⟨i, hc⟩ := Machine.current_of_ok ha hs
    have htells : Machine.Tells s i m m' := Machine.step_tells hc hs
    have hi : decode m.word = some i := (Machine.current_eq_some.mp hc).2.2
    refine ⟨htells.waiting_iff, hbuzz, ?_, fun hs x y => ?_, nofun, fun _ hs => ?_⟩
    · rw [htells.jumped_iff, Machine.leaps_iff hi]
      exact (and_iff_right rfl).symm
    · rw [htells.screen_eq hs]
    · rw [htells.pc_eq hs]
      simp only [Machine.skipDue_iff hi]

/-- An emulator about to skip if the key in `V0` is down, while it is. -/
def pressing : Emulator :=
  (((Emulator.new .unset (.ofWords [])).load [0x60, 0x0F, 0xE0, 0x9E]).2.1.step.emulator).setKey
    (Fin.last 15) true

/-- The step tells of nothing, and passes over the next instruction. -/
theorem pressing_skips : pressing.step.outcome = .ok .quiet ∧ pressing.machine.SkipDue ∧
    pressing.step.emulator.machine.pc = pressing.machine.pc + 4 ∧
    pressing.step.emulator.machine.awaiting.isSome = false ∧
    pressing.step.emulator.machine.timers.buzzing = pressing.machine.timers.buzzing ∧
    ∀ x y, pressing.step.emulator.machine.screen.pixel x y =
      pressing.machine.screen.pixel x y := by
  obtain ⟨hout, hnone, hskip⟩ : pressing.step.outcome = .ok .quiet ∧
      pressing.machine.awaiting = none ∧ pressing.machine.SkipDue := by decide +kernel
  obtain ⟨hwaiting, hsounded, -, hscreen, -, hpc⟩ := signal_tells hout
  have hpassed := hpc hnone nofun
  rw [if_pos hskip] at hpassed
  exact ⟨hout, hskip, hpassed, Bool.eq_false_iff.mpr (hwaiting.not.mp nofun),
    not_not.mp (hsounded.not.mp nofun), hscreen nofun⟩

end Emulator
end ChipEight
