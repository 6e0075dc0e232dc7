/-
# What the host touches between steps

Ticks change the timers between two steps, and keys change the keypad. An
instruction that uses neither does the same whatever they hold, and leaves them
as they are (`execute_refit`). So one that uses no timer does the same whatever
the timers hold, and one that uses no key whatever the keypad holds; and the same
is true of a whole step (`step_withTimers`, `step_withKeypad`).

Key definitions: `Instruction.usesTimers`, `Instruction.usesKeys`,
`Machine.withTimers`, `Machine.withKeypad`, `Machine.AsksKeys`.
Key theorems: `Machine.step_withTimers`, `Machine.step_withKeypad`.
-/
import ChipEight.Proofs.Machine.Footprint

namespace ChipEight

/-- Whether an instruction reads or starts a timer. -/
def Instruction.usesTimers : Instruction → Bool
  | .readDelay _ | .startDelay _ | .startSound _ => true
  | _ => false

/-- Whether an instruction looks at the keys or awaits one. -/
def Instruction.usesKeys : Instruction → Bool
  | .skipIfKey _ | .skipUnlessKey _ | .awaitKey _ => true
  | _ => false

/-- The machine with other timers and another keypad. -/
def Machine.refit (m : Machine) (t : Timers) (p : Keypad) : Machine :=
  { m with timers := t, keypad := p }

/-- The machine with other timers. -/
def Machine.withTimers (m : Machine) (t : Timers) : Machine := { m with timers := t }

/-- The machine with another keypad. -/
def Machine.withKeypad (m : Machine) (p : Keypad) : Machine := { m with keypad := p }

/-- The same with other timers and another keypad afterwards. -/
def Reaction.refit (r : Reaction) (t : Timers) (p : Keypad) : Reaction :=
  { r with machine := r.machine.refit t p }

/-- The same with other timers afterwards. -/
def Reaction.withTimers (r : Reaction) (t : Timers) : Reaction :=
  { r with machine := r.machine.withTimers t }

/-- The same with another keypad afterwards. -/
def Reaction.withKeypad (r : Reaction) (p : Keypad) : Reaction :=
  { r with machine := r.machine.withKeypad p }

namespace Machine

/-! ### Instructions that use neither -/

theorem afterTransfer_refit (d : Dialect) (m : Machine) (t : Timers) (p : Keypad) (x : Reg) :
    (m.refit t p).afterTransfer d x = (m.afterTransfer d x).refit t p := by
  unfold afterTransfer
  split <;> rfl

theorem push_refit (m : Machine) (t : Timers) (p : Keypad) (a : UInt16) :
    (m.refit t p).push a = (m.push a).map fun m => m.refit t p := by
  by_cases h : m.calls.length < callLimit
  · have h' : (m.refit t p).calls.length < callLimit := h
    rw [push, push, if_pos h, if_pos h']
    rfl
  · have h' : ¬ (m.refit t p).calls.length < callLimit := h
    rw [push, push, if_neg h, if_neg h']
    rfl

theorem pop_refit (m : Machine) (t : Timers) (p : Keypad) :
    (m.refit t p).pop = m.pop.map fun q => (q.1, q.2.refit t p) := by
  simp only [pop, refit]
  cases m.calls <;> rfl

theorem execute_refit (d : Dialect) (m : Machine) (t : Timers) (p : Keypad) {i : Instruction}
    (htimers : i.usesTimers = false) (hkeys : i.usesKeys = false) :
    (m.refit t p).execute d i = (m.execute d i).refit t p := by
  cases i with
  | readDelay x | startDelay x | startSound x => cases htimers
  | skipIfKey x | skipUnlessKey x | awaitKey x => cases hkeys
  | ret =>
    simp only [execute, pop_refit]
    rcases m.pop with f | ⟨a, m'⟩ <;> rfl
  | call a =>
    simp only [execute, show (m.refit t p).pc = m.pc from rfl, push_refit]
    rcases m.push (UInt16.ofNat m.pc) with f | m' <;> rfl
  | jumpPlus a =>
    by_cases h : a.val + (m.get Reg.first).toNat < Memory.size
    · have h' : a.val + ((m.refit t p).get Reg.first).toNat < Memory.size := h
      simp only [execute, if_pos h, if_pos h']
      rfl
    · have h' : ¬ a.val + ((m.refit t p).get Reg.first).toNat < Memory.size := h
      simp only [execute, if_neg h, if_neg h']
      rfl
  | skipIfByte x b | skipUnlessByte x b | skipIfSame x y | skipUnlessSame x y =>
    simp only [execute, skipIf_frame]
    rfl
  | storeRegisters x =>
    let memory := m.memory.writeAll m.i.val (m.v.toList.take (x.val + 1))
    exact congrArg done (afterTransfer_refit d { m with memory := memory } t p x)
  | loadRegisters x =>
    exact congrArg done (afterTransfer_refit d { m with v := m.loaded x } t p x)
  | _ => rfl

/-- Such an instruction leaves both as they are. -/
theorem execute_host (d : Dialect) (m : Machine) {i : Instruction} (htimers : i.usesTimers = false)
    (hkeys : i.usesKeys = false) : (m.execute d i).machine.timers = m.timers ∧
      (m.execute d i).machine.keypad = m.keypad := by
  have h : m.execute d i = (m.execute d i).refit m.timers m.keypad :=
    execute_refit d m m.timers m.keypad htimers hkeys
  rw [h]
  exact ⟨rfl, rfl⟩

/-- Where no instruction is found, the step fails the same way, whatever they
hold. -/
theorem step_refit_of_stuck {m : Machine} (ha : m.awaiting = none) (hc : m.current = none)
    (d : Dialect) (t : Timers) (p : Keypad) :
    (m.refit t p).step d = { m.step d with machine := m.refit t p } ∧ (m.step d).machine = m := by
  have ha' : (m.refit t p).awaiting = none := ha
  rcases step_of_stuck ha hc d with ⟨hb, hs⟩ | ⟨hb, hi, hs⟩
  · have hb' : (m.refit t p).inBounds = false := hb
    refine ⟨?_, by rw [hs]⟩
    rw [hs]
    simp only [step, ha', hb', Bool.false_eq_true, if_false]
    rfl
  · have hb' : (m.refit t p).inBounds = true := hb
    have hi' : Instruction.decode (m.refit t p).word = none := hi
    refine ⟨?_, by rw [hs]⟩
    rw [hs]
    simp only [step, ha', hb', hi', if_true]
    rfl

/-! ### Steps that use no timer -/

/-- Whether the next step carries out an instruction that uses a timer. -/
def usesTimers (m : Machine) : Bool := m.current.any Instruction.usesTimers

theorem execute_withTimers (d : Dialect) (m : Machine) (t : Timers) {i : Instruction}
    (hi : i.usesTimers = false) :
    (m.withTimers t).execute d i = (m.execute d i).withTimers t := by
  cases hkeys : i.usesKeys with
  | true =>
    cases i with
    | skipIfKey x | skipUnlessKey x =>
      simp only [execute, skipIf_frame]
      rfl
    | awaitKey x => rfl
    | _ => cases hkeys
  | false =>
    calc (m.withTimers t).execute d i = (m.execute d i).refit t m.keypad :=
          execute_refit d m t m.keypad hi hkeys
      _ = (m.execute d i).withTimers t := by
          rw [← (execute_host d m hi hkeys).2]
          rfl

theorem resume_withTimers (m : Machine) (t : Timers) (x : Reg) :
    (m.withTimers t).resume x = (m.resume x).withTimers t := by
  simp only [resume, withTimers]
  cases m.keypad.takeFresh <;> rfl

/-- A step that uses no timer does the same whatever the timers hold. -/
theorem step_withTimers {d : Dialect} {m : Machine} (h : m.usesTimers = false) (t : Timers) :
    (m.withTimers t).step d = (m.step d).withTimers t := by
  cases ha : m.awaiting with
  | some x =>
    rw [step_of_awaiting ha, step_of_awaiting (m := m.withTimers t) ha]
    exact resume_withTimers m t x
  | none =>
    cases hc : m.current with
    | some i =>
      have hi : i.usesTimers = false := by simpa only [usesTimers, hc, Option.any_some] using h
      have hexec : (m.withTimers t).skip.execute d i = (m.skip.execute d i).withTimers t :=
        execute_withTimers d m.skip t hi
      rw [step_of_current hc, step_of_current (m := m.withTimers t) hc, hexec]
      rfl
    | none =>
      obtain ⟨hstep, hm⟩ := step_refit_of_stuck ha hc d t m.keypad
      calc (m.withTimers t).step d = { m.step d with machine := m.withTimers t } := hstep
        _ = (m.step d).withTimers t := by rw [Reaction.withTimers, hm]

/-- Such a step leaves the timers alone. -/
theorem step_timers {d : Dialect} {m : Machine} (h : m.usesTimers = false) :
    (m.step d).machine.timers = m.timers := by
  have hs : m.step d = (m.step d).withTimers m.timers := step_withTimers h m.timers
  rw [hs]
  rfl

/-! ### Steps that ask for no key -/

/-- The next step looks for the key that is awaited, or carries out an
instruction that looks at the keys or awaits one. -/
def AsksKeys (m : Machine) : Prop :=
  m.awaiting.isSome = true ∨ m.Runs ["EX9E", "EXA1", "FX0A"]

instance : DecidablePred AsksKeys := fun _ => inferInstanceAs (Decidable (_ ∨ _))

theorem usesKeys_of_current {m : Machine} {i : Instruction} (h : ¬ m.AsksKeys)
    (hc : m.current = some i) : i.usesKeys = false := by
  by_contra hi
  refine h (.inr (runs_of_current hc ?_))
  cases i <;> simp [Instruction.usesKeys, Instruction.pattern] at hi ⊢

theorem execute_withKeypad (d : Dialect) (m : Machine) (p : Keypad) {i : Instruction}
    (hi : i.usesKeys = false) :
    (m.withKeypad p).execute d i = (m.execute d i).withKeypad p := by
  cases htimers : i.usesTimers with
  | true =>
    cases i with
    | readDelay x | startDelay x => rfl
    | startSound x =>
      have hsame : (m.withKeypad p).timers.startSound ((m.withKeypad p).get x) =
          m.timers.startSound (m.get x) := rfl
      simp only [execute, hsame]
      rcases m.timers.startSound (m.get x) with ⟨t, change | on⟩ <;> rfl
    | _ => cases htimers
  | false =>
    calc (m.withKeypad p).execute d i = (m.execute d i).refit m.timers p :=
          execute_refit d m m.timers p htimers hi
      _ = (m.execute d i).withKeypad p := by
          rw [← (execute_host d m htimers hi).1]
          rfl

/-- A step that asks for no key does the same whatever the keypad holds. -/
theorem step_withKeypad {d : Dialect} {m : Machine} (h : ¬ m.AsksKeys) (p : Keypad) :
    (m.withKeypad p).step d = (m.step d).withKeypad p := by
  cases ha : m.awaiting with
  | some x => exact absurd (.inl (by rw [ha]; rfl)) h
  | none =>
    cases hc : m.current with
    | some i =>
      have hexec : (m.withKeypad p).skip.execute d i = (m.skip.execute d i).withKeypad p :=
        execute_withKeypad d m.skip p (usesKeys_of_current h hc)
      rw [step_of_current hc, step_of_current (m := m.withKeypad p) hc, hexec]
      rfl
    | none =>
      obtain ⟨hstep, hm⟩ := step_refit_of_stuck ha hc d m.timers p
      calc (m.withKeypad p).step d = { m.step d with machine := m.withKeypad p } := hstep
        _ = (m.step d).withKeypad p := by rw [Reaction.withKeypad, hm]

/-- Such a step leaves the keypad alone. -/
theorem step_keypad {d : Dialect} {m : Machine} (h : ¬ m.AsksKeys) :
    (m.step d).machine.keypad = m.keypad := by
  have hs : m.step d = (m.step d).withKeypad m.keypad := step_withKeypad h m.keypad
  rw [hs]
  rfl

end Machine
end ChipEight
