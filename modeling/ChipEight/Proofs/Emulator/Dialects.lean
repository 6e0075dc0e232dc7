/-
# The same program in two dialects

Two emulators that differ in their dialects alone can be driven by the same acts.
As long as the first carries out no instruction that the dialects take
differently, the second does the same, step for step (`acts_inDialect`). A single
transfer comes to the same but for `I` (`dialects_agree`).

Key definitions: `Emulator.inDialect`.
Key theorems: `Emulator.acts_inDialect`, `Emulator.dialects_agree`.
-/
import Mathlib.Data.List.Infix
import ChipEight.Proofs.Emulator.Acts
import ChipEight.Proofs.Machine.Dialects

namespace ChipEight
namespace Emulator

open Instruction

/-- The same emulator in another dialect. -/
def inDialect (e : Emulator) (d : Dialect) : Emulator :=
  { e with settings := { e.settings with dialect := d } }

theorem act_dialect (e : Emulator) (a : Act) :
    (e.act a).settings.dialect = e.settings.dialect := by
  cases a <;> rfl

/-- A step that does not tell the dialects apart. -/
theorem step_inDialect {e : Emulator} {d : Dialect}
    (h : ¬ e.machine.Parts e.settings.dialect d) :
    (e.inDialect d).step.outcome = e.step.outcome ∧
      (e.inDialect d).step.emulator = e.step.emulator.inDialect d := by
  have hstep : e.machine.step d = e.machine.step e.settings.dialect :=
    (Machine.step_of_not_parts h).symm
  have hother : (e.inDialect d).step = _ := step_of_reaction hstep
  rw [hother]
  exact ⟨rfl, rfl⟩

theorem acts_inDialect {d : Dialect} : ∀ {l : List Act} {e : Emulator},
    e.StepsFrom (fun m => ¬ m.Parts e.settings.dialect d) l →
    (e.inDialect d).acts l = (e.acts l).inDialect d ∧ (e.inDialect d).outcomes l = e.outcomes l
  | [], _, _ => ⟨rfl, rfl⟩
  | a :: l, e, h => by
    obtain ⟨hfirst, hrest⟩ := stepsFrom_cons.mp h
    rw [← act_dialect e a] at hrest
    obtain ⟨hacts, hout⟩ := acts_inDialect hrest
    cases a with
    | step =>
      obtain ⟨hstep, he⟩ := step_inDialect (hfirst rfl)
      have he : (e.inDialect d).act .step = (e.act .step).inDialect d := he
      constructor
      · calc (e.inDialect d).acts (.step :: l) = ((e.inDialect d).act .step).acts l := rfl
          _ = ((e.act .step).acts l).inDialect d := by rw [he, hacts]
      · rw [outcomes, outcomes, hstep, he, hout]
    | tick | key k pressed | clear => exact ⟨hacts, hout⟩

/-- Let the same acts drive two emulators that differ in their dialects alone.
If no step of the first carries out a shift of two different registers, where
the dialects differ in what shifts take, or a transfer, where they differ in
where it leaves `I`, then after every act the emulators are the same but for the
dialect, and the steps so far came to the same. A single transfer succeeds in
either dialect; it leaves `I` as it is in one and moves it behind the last byte
in the other, and all else is the same. -/
theorem dialects_agree (e : Emulator) (d : Dialect) :
    (∀ l, e.StepsFrom (fun m => ¬ m.Parts e.settings.dialect d) l → ∀ pre ∈ l.inits,
      (e.inDialect d).acts pre = (e.acts pre).inDialect d ∧
        (e.inDialect d).outcomes pre = e.outcomes pre) ∧
    (e.machine.Runs ["FX55", "FX65"] →
      let x := fieldX e.machine.word
      let still := (e.inDialect ⟨d.shiftReadsY, false⟩).step
      let moved := (e.inDialect ⟨d.shiftReadsY, true⟩).step
      still.outcome = .ok .quiet ∧ moved.outcome = .ok .quiet ∧
        still.emulator.machine.i = e.machine.i ∧
        moved.emulator.machine.i.val = (e.machine.i.val + x.val + 1) % 4096 ∧
        moved.emulator.machine =
          { still.emulator.machine with i := moved.emulator.machine.i }) := by
  refine ⟨fun l hl pre hpre => ?_, fun hruns => ?_⟩
  · obtain ⟨post, rfl⟩ := (List.mem_inits _ _).mp hpre
    exact acts_inDialect hl.of_append
  · intro x still moved
    obtain ⟨hstill, hmoved, hi, hm⟩ := Machine.step_of_transfer hruns
      ⟨d.shiftReadsY, false⟩ ⟨d.shiftReadsY, true⟩ rfl rfl
    have hm : moved.emulator.machine =
        still.emulator.machine.setI (e.machine.i.val + x.val + 1) := hm
    refine ⟨hstill, hmoved, hi, ?_, ?_⟩
    · rw [hm]
      rfl
    · rw [hm]
      rfl

/-- An emulator that shifts one register and stores two from the end of memory
on. -/
def shifting : Emulator :=
  ((Emulator.new .unset (.ofWords [])).load
    [0x61, 5, 0xAF, 0xFF, 0x81, 0x16, 0xF1, 0x55]).2.1

/-- With other shifts it does the same, and with other transfers it ends up with
another `I`. -/
theorem shifting_agrees :
    let l : List Act := [.step, .step, .key 3 true, .step, .tick, .step]
    let d : Dialect := ⟨true, false⟩
    let storing := shifting.acts (l.take 5)
    let still := (storing.inDialect ⟨d.shiftReadsY, false⟩).step
    let moved := (storing.inDialect ⟨d.shiftReadsY, true⟩).step
    (shifting.inDialect d).acts l = (shifting.acts l).inDialect d ∧
      (shifting.inDialect d).outcomes l = List.replicate 4 (.ok .quiet) ∧
      still.emulator.machine.i = storing.machine.i ∧ storing.machine.i.val = 0xFFF ∧
      moved.emulator.machine.i.val = 1 ∧
      moved.emulator.machine =
        { still.emulator.machine with i := moved.emulator.machine.i } := by
  intro l d storing still moved
  obtain ⟨hsteps, hout, hruns, hi, hx⟩ :
      shifting.StepsFrom (fun m => ¬ m.Parts shifting.settings.dialect d) l ∧
      shifting.outcomes l = List.replicate 4 (.ok .quiet) ∧
      storing.machine.Runs ["FX55", "FX65"] ∧ storing.machine.i.val = 0xFFF ∧
      (fieldX storing.machine.word).val = 1 := by decide +kernel
  have hend : l ∈ l.inits := (List.mem_inits l l).mpr List.prefix_rfl
  obtain ⟨hacts, hsame⟩ := (dialects_agree shifting d).1 l hsteps l hend
  obtain ⟨-, -, hstill, hmoved, hrest⟩ := (dialects_agree storing d).2 hruns
  refine ⟨hacts, hsame.trans hout, hstill, hi, ?_, hrest⟩
  calc moved.emulator.machine.i.val
      = (storing.machine.i.val + (fieldX storing.machine.word).val + 1) % 4096 := by
        -- both sides are numbers without variables, and would be run to compare them
        with_reducible exact hmoved
    _ = 1 := by rw [hi, hx]

end Emulator
end ChipEight
