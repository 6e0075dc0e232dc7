/-
# Calls and returns match

Whatever a host and a program do after a call, steps that fail included: while
more return addresses are saved than before the call, those that were saved
then stay below the new one (`saved_acts`). So the first act after which no more
are saved than before the call is a return, it goes back behind the call, and
the addresses saved are those from before (`call_returns`).
-/
import Mathlib.Data.List.Infix
import ChipEight.Proofs.Emulator.Acts
import ChipEight.Proofs.Machine.Calls

namespace ChipEight
namespace Emulator

/-- An act leaves the saved addresses alone, saves one more, or is a return
that takes the latest one back and goes there. -/
theorem act_calls (e : Emulator) (b : Act) :
    (e.act b).machine.calls = e.machine.calls ∨
      (∃ r, (e.act b).machine.calls = r :: e.machine.calls) ∨
      (b = .step ∧ e.machine.current = some .ret ∧ e.step.outcome = .ok .jumped ∧
        ∃ r, e.machine.calls = r :: (e.act b).machine.calls ∧
          (e.act b).machine.pc = r.toNat) := by
  cases b with
  | step =>
    rcases e.machine.step_calls e.settings.dialect with h | h | h
    · exact .inl h
    · exact .inr (.inl h)
    · exact .inr (.inr ⟨rfl, h⟩)
  | tick => exact .inl rfl
  | key k pressed => exact .inl rfl
  | clear => exact .inl rfl

/-- What is saved at the bottom stays there through an act after which as many
addresses are saved. -/
theorem saved_act {e : Emulator} {saved : List UInt16} (h : saved <:+ e.machine.calls) {b : Act}
    (hdepth : saved.length ≤ (e.act b).machine.calls.length) : saved <:+ (e.act b).machine.calls := by
  rcases e.act_calls b with hsame | ⟨r, hmore⟩ | ⟨-, -, -, r, hless, -⟩
  · rw [hsame]
    exact h
  · rw [hmore]
    exact h.trans (List.suffix_cons r _)
  · rw [hless] at h
    rcases List.suffix_cons_iff.mp h with rfl | hrest
    · -- the act would have taken one of them back
      rw [List.length_cons] at hdepth
      omega
    · exact hrest

theorem saved_acts {saved : List UInt16} : ∀ (l : List Act) {e : Emulator},
    saved <:+ e.machine.calls →
    (∀ pre ∈ l.inits, saved.length ≤ (e.acts pre).machine.calls.length) →
    saved <:+ (e.acts l).machine.calls
  | [], _, h, _ => h
  | b :: l, e, h, hdepth => by
    have hinits : ∀ pre ∈ l.inits, b :: pre ∈ (b :: l).inits := by
      intro pre hpre
      rw [List.mem_inits] at hpre ⊢
      exact (List.prefix_cons_inj b).mpr hpre
    have hfirst : saved <:+ (e.act b).machine.calls :=
      saved_act h (hdepth [b] (hinits [] ((List.mem_inits _ _).mpr List.nil_prefix)))
    exact saved_acts l hfirst fun pre hpre => hdepth (b :: pre) (hinits pre hpre)

/-- Let an emulator carry out a call while a place for the return address is
free, and let any acts follow, through all of which more addresses are saved
than before the call. If after one act more no more are saved than before, that
act is a step that carries out a return. It leads behind the call, and the
addresses saved afterwards are those from before the call. -/
theorem call_returns {e : Emulator} {a : Address} {l : List Act} {b : Act}
    (he : e.machine.current = some (.call a)) (hroom : e.machine.calls.length < 16)
    (hdeep : ∀ pre ∈ l.inits,
      e.machine.calls.length < (e.step.emulator.acts pre).machine.calls.length)
    (hback : (e.step.emulator.acts (l ++ [b])).machine.calls.length ≤ e.machine.calls.length) :
    let inner := e.step.emulator.acts l
    e.step.outcome = .ok .jumped ∧ b = .step ∧ inner.machine.current = some .ret ∧
      inner.step.outcome = .ok .jumped ∧
      inner.step.emulator.machine.pc = e.machine.pc + 2 ∧
      inner.step.emulator.machine.calls = e.machine.calls := by
  intro inner
  let r := UInt16.ofNat (e.machine.pc + 2)
  have hstep := step_of_reaction (Machine.step_call he hroom e.settings.dialect)
  have hcalls : e.step.emulator.machine.calls = r :: e.machine.calls := by rw [hstep]
  have hsaved : r :: e.machine.calls <:+ inner.machine.calls := by
    refine saved_acts l ?_ fun pre hpre => ?_
    · rw [hcalls]
    · rw [List.length_cons]
      exact hdeep pre hpre
  have hlen : e.machine.calls.length < inner.machine.calls.length := hsaved.length_le
  have hend : (inner.act b).machine.calls.length ≤ e.machine.calls.length := by
    rw [← acts_snoc]
    exact hback
  rcases inner.act_calls b with hsame | ⟨s, hmore⟩ | ⟨rfl, hret, hout, s, hless, hpc⟩
  · rw [hsame] at hend
    omega
  · rw [hmore, List.length_cons] at hend
    omega
  · -- the act takes the latest address back, and what is left is no longer than it was
    have hrest : r = s ∧ e.machine.calls = (inner.act .step).machine.calls := by
      rw [hless] at hsaved
      rcases List.suffix_cons_iff.mp hsaved with h | h
      · exact List.cons.inj h
      · have := h.length_le
        rw [List.length_cons] at this
        omega
    have hr : r.toNat = e.machine.pc + 2 := by
      have hpc : e.machine.pc + 1 < 4096 :=
        (Machine.inBounds_iff e.machine).mp (Machine.current_eq_some.mp he).2.1
      rw [UInt16.toNat_ofNat']
      omega
    refine ⟨congrArg Report.outcome hstep, rfl, hret, hout, ?_, hrest.2.symm⟩
    calc inner.step.emulator.machine.pc = s.toNat := hpc
      _ = r.toNat := by rw [hrest.1]
      _ = e.machine.pc + 2 := hr

/-- An emulator about to call a routine that calls another one, with a jump out
of memory between. -/
def nesting : Emulator :=
  ((Emulator.new .unset (.ofWords [])).load
    [0x22, 0x06, 0x12, 0x02, 0x00, 0xEE, 0x60, 0xFF, 0xBF, 0xFF, 0x22, 0x04, 0x00, 0xEE]).2.1

/-- Two calls and two returns, with a step between that fails. -/
theorem nesting_returns :
    let l : List Act := [.step, .tick, .step, .key 3 true, .step, .step]
    let inner := nesting.step.emulator.acts l
    nesting.machine.current = some (.call 0x206) ∧ inner.machine.calls = [0x202] ∧
      (nesting.step.emulator.act .step).step.outcome = .error (.addressOutOfRange 0x10FE) ∧
      inner.step.outcome = .ok .jumped ∧ inner.step.emulator.machine.pc = 0x202 ∧
      inner.step.emulator.machine.calls = [] := by
  intro l inner
  obtain ⟨he, hempty, hpc, hinner, hfail⟩ : nesting.machine.current = some (.call 0x206) ∧
      nesting.machine.calls = [] ∧ nesting.machine.pc = 0x200 ∧ inner.machine.calls = [0x202] ∧
      (nesting.step.emulator.act .step).step.outcome = .error (.addressOutOfRange 0x10FE) := by
    decide +kernel
  have hdeep : ∀ pre ∈ l.inits,
      nesting.machine.calls.length < (nesting.step.emulator.acts pre).machine.calls.length := by
    decide +kernel
  have hback : (nesting.step.emulator.acts (l ++ [.step])).machine.calls.length ≤
      nesting.machine.calls.length := by decide +kernel
  obtain ⟨-, -, -, hout, hbehind, hcalls⟩ := call_returns he (by rw [hempty]; decide) hdeep hback
  have hl : nesting.step.emulator.acts l = inner := rfl
  rw [hl] at hout hbehind hcalls
  rw [hpc] at hbehind
  rw [hempty] at hcalls
  exact ⟨he, hinner, hfail, hout, hbehind, hcalls⟩

end Emulator
end ChipEight
