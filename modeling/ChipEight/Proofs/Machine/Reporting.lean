/-
# Which failures are reported

A step that succeeds reports no error. One that fails reports exactly one, which
names what went wrong, unless it fails for the stack: then there is none
(`Logged`, `step_logged`).

Key definitions: `errors`, `Logged`.
-/
import ChipEight.Proofs.Machine.Failing

namespace ChipEight

/-- The events that are errors. -/
def errors (events : List Event) : List Event := events.filter fun event => event.level = .error

/-- The errors that belong to an outcome: none to a success or to a failure for the
stack, and to any other failure of a step the one that names it. No step fails
for a program file. -/
inductive Logged : Except Failure Signal → List Event → Prop
  | succeeded (signal : Signal) : Logged (.ok signal) []
  | stackOverflow : Logged (.error .stackOverflow) []
  | stackUnderflow : Logged (.error .stackUnderflow) []
  | unknownWord (word : UInt16) (pc : ℕ) :
    Logged (.error (.invalidOpcode word pc)) [.unknownWord word pc]
  | leftMemory (pc : ℕ) : Logged (.error (.addressOutOfRange pc)) [.leftMemory pc]
  | jumpOutOfRange (target : ℕ) :
    Logged (.error (.addressOutOfRange target)) [.jumpOutOfRange target]

theorem errors_append (a b : List Event) : errors (a ++ b) = errors a ++ errors b :=
  List.filter_append a b

namespace Logged

theorem eq_of_ok {signal : Signal} {es : List Event} (h : Logged (.ok signal) es) : es = [] := by
  cases h
  rfl

theorem eq_of_invalidOpcode {word : UInt16} {pc : ℕ} {es : List Event}
    (h : Logged (.error (.invalidOpcode word pc)) es) : es = [.unknownWord word pc] := by
  cases h
  rfl

/-- There is exactly one error, unless the failure is one of the stack. -/
theorem length_of_error {f : Failure} {es : List Event} (h : Logged (.error f) es) :
    es.length = if f = .stackOverflow ∨ f = .stackUnderflow then 0 else 1 := by
  cases h <;> rfl

end Logged

namespace Machine

theorem step_logged (d : Dialect) (m : Machine) :
    Logged (m.step d).outcome (errors (m.step d).events) := by
  cases ha : m.awaiting with
  | some x =>
    rw [step_of_awaiting ha]
    unfold resume
    split <;> exact .succeeded _
  | none =>
    cases hc : m.current with
    | none =>
      rcases step_of_stuck ha hc d with ⟨-, hstep⟩ | ⟨-, -, hstep⟩
      · rw [hstep]
        exact .leftMemory _
      · rw [hstep]
        exact .unknownWord _ _
    | some i =>
      cases i with
      | ret =>
        cases hcalls : m.calls with
        | nil =>
          rw [step_ret_of_empty hc hcalls]
          exact .stackUnderflow
        | cons r rest =>
          rw [step_ret hc hcalls]
          exact .succeeded _
      | call a =>
        by_cases hroom : m.calls.length < callLimit
        · rw [step_call hc hroom]
          exact .succeeded _
        · rw [step_call_of_full hc hroom]
          exact .stackOverflow
      | jumpPlus a =>
        by_cases hle : 4096 ≤ a.val + (m.get Reg.first).toNat
        · rw [step_jumpPlus_of_le hc hle]
          exact .jumpOutOfRange _
        · rw [step_jumpPlus hc (Nat.not_le.mp hle)]
          exact .succeeded _
      | startSound x =>
        rw [step_of_current hc]
        simp only [execute]
        split <;> exact .succeeded _
      | _ =>
        rw [step_of_current hc]
        exact .succeeded _

end Machine
end ChipEight
