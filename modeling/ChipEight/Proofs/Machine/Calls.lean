/-
# What a step does to the saved return addresses

A call saves the address behind itself (`step_call`), a return takes the latest
address back and goes there (`step_ret`), and no other step, failing ones
included, touches what is saved (`step_calls`).
-/
import Mathlib.Data.Nat.Notation
import ChipEight.Proofs.Machine.Step

namespace ChipEight
namespace Machine

/-- Only a call and a return touch the saved addresses. -/
theorem execute_calls (d : Dialect) (m : Machine) {i : Instruction} (hret : i ≠ .ret)
    (hcall : ∀ a, i ≠ .call a) : (m.execute d i).machine.calls = m.calls := by
  cases i with
  | ret => exact absurd rfl hret
  | call a => exact absurd rfl (hcall a)
  | jumpPlus a =>
    simp only [execute]
    split <;> rfl
  | skipIfByte x b | skipUnlessByte x b | skipIfSame x y | skipUnlessSame x y | skipIfKey x
  | skipUnlessKey x => simp only [execute, done, signals, skipIf_frame]
  | startSound x => rw [execute_startSound_machine]
  | storeRegisters x | loadRegisters x =>
    simp only [execute, done, signals]
    rw [afterTransfer_frame]
  | _ => rfl

variable {m : Machine}

theorem step_call {a : Address} (h : m.current = some (.call a)) (hroom : m.calls.length < callLimit)
    (d : Dialect) : m.step d = ⟨.ok .jumped,
      { m with pc := a.val, calls := UInt16.ofNat (m.pc + 2) :: m.calls },
      [.executing m.pc (.call a)]⟩ := by
  have hpush : m.skip.push (UInt16.ofNat m.skip.pc) =
      .ok { m.skip with calls := UInt16.ofNat (m.pc + 2) :: m.calls } := if_pos hroom
  rw [step_of_current h]
  simp only [execute, hpush]
  rfl

/-- A call for which no place is left has only moved the program counter. -/
theorem step_call_of_full {a : Address} (h : m.current = some (.call a))
    (hfull : ¬ m.calls.length < callLimit) (d : Dialect) : m.step d =
      ⟨.error .stackOverflow, m.skip, [.executing m.pc (.call a)]⟩ := by
  have hpush : m.skip.push (UInt16.ofNat m.skip.pc) = .error .stackOverflow := if_neg hfull
  rw [step_of_current h]
  simp only [execute, hpush]
  rfl

theorem step_ret {r : UInt16} {rest : List UInt16} (h : m.current = some .ret)
    (hcalls : m.calls = r :: rest) (d : Dialect) : m.step d = ⟨.ok .jumped,
      { m with pc := r.toNat, calls := rest }, [.executing m.pc .ret]⟩ := by
  have hpop : m.skip.pop = .ok (r, { m.skip with calls := rest }) := by
    have hskip : m.skip.calls = r :: rest := hcalls
    simp only [pop, hskip]
  rw [step_of_current h]
  simp only [execute, hpop]
  rfl

/-- A return from nowhere has only moved the program counter. -/
theorem step_ret_of_empty (h : m.current = some .ret) (hcalls : m.calls = []) (d : Dialect) :
    m.step d = ⟨.error .stackUnderflow, m.skip, [.executing m.pc .ret]⟩ := by
  have hpop : m.skip.pop = .error .stackUnderflow := by
    have hskip : m.skip.calls = [] := hcalls
    simp only [pop, hskip]
  rw [step_of_current h]
  simp only [execute, hpop]
  rfl

/-- A step leaves the saved addresses alone, saves one more, or is a return
that takes the latest one back and goes there. -/
theorem step_calls (m : Machine) (d : Dialect) :
    (m.step d).machine.calls = m.calls ∨ (∃ r, (m.step d).machine.calls = r :: m.calls) ∨
      (m.current = some .ret ∧ (m.step d).outcome = .ok .jumped ∧
        ∃ r, m.calls = r :: (m.step d).machine.calls ∧ (m.step d).machine.pc = r.toNat) := by
  cases ha : m.awaiting with
  | some x =>
    rw [step_of_awaiting ha]
    unfold resume
    split <;> exact .inl rfl
  | none =>
    cases hc : m.current with
    | none =>
      rcases step_of_stuck ha hc d with ⟨-, hs⟩ | ⟨-, -, hs⟩ <;> rw [hs] <;> exact .inl rfl
    | some i =>
      by_cases hret : i = .ret
      · subst hret
        cases hcalls : m.calls with
        | nil => rw [step_ret_of_empty hc hcalls]; exact .inl hcalls
        | cons r rest => rw [step_ret hc hcalls]; exact .inr (.inr ⟨rfl, rfl, r, rfl, rfl⟩)
      · by_cases hcall : ∃ a, i = .call a
        · obtain ⟨a, rfl⟩ := hcall
          by_cases hroom : m.calls.length < callLimit
          · rw [step_call hc hroom]
            exact .inr (.inl ⟨_, rfl⟩)
          · rw [step_call_of_full hc hroom]
            exact .inl rfl
        · have hcalls := execute_calls d m.skip hret (fun a ha => hcall ⟨a, ha⟩)
          rw [step_of_current hc]
          exact .inl hcalls

end Machine
end ChipEight
