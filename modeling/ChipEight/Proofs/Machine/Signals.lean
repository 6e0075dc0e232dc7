/-
# What a step tells its host

A step that succeeds tells the host one of five things. It tells of a wait if a
key is awaited afterwards, of a jump if it carried out one, and unless it tells
of a drawing the screen is as it was (`step_tells`); of the buzzer it tells
as `step_buzzing` says. Where it does not jump, the program counter moves past
the instruction, and past the next one too if the instruction is a skip whose
condition holds (`skipDue_iff`).

Key definitions: `Instruction.leaps`, `Machine.passes`, `Machine.SkipDue`.
-/
import ChipEight.Proofs.Machine.Failing
import ChipEight.Proofs.Machine.Buzzing

namespace ChipEight

/-- Whether an instruction goes somewhere else. -/
def Instruction.leaps : Instruction → Bool
  | .ret | .jump _ | .call _ | .jumpPlus _ => true
  | _ => false

namespace Machine

open Instruction

/-- Whether an instruction passes over the next one. -/
def passes (m : Machine) : Instruction → Bool
  | .skipIfByte x b => m.get x == b
  | .skipUnlessByte x b => m.get x != b
  | .skipIfSame x y => m.get x == m.get y
  | .skipUnlessSame x y => m.get x != m.get y
  | .skipIfKey x => m.keypad.isPressed (m.get x).toNat
  | .skipUnlessKey x => !m.keypad.isPressed (m.get x).toNat
  | _ => false

/-- The word at the program counter is a skip, and its condition holds. -/
def SkipDue (m : Machine) : Prop :=
  Fits m.word "3XNN" ∧ m.get (fieldX m.word) = fieldByte m.word ∨
  Fits m.word "4XNN" ∧ m.get (fieldX m.word) ≠ fieldByte m.word ∨
  Fits m.word "5XY0" ∧ m.get (fieldX m.word) = m.get (fieldY m.word) ∨
  Fits m.word "9XY0" ∧ m.get (fieldX m.word) ≠ m.get (fieldY m.word) ∨
  Fits m.word "EX9E" ∧ m.keypad.isPressed (m.get (fieldX m.word)).toNat = true ∨
  Fits m.word "EXA1" ∧ m.keypad.isPressed (m.get (fieldX m.word)).toNat = false

instance (m : Machine) : Decidable m.SkipDue := inferInstanceAs (Decidable (_ ∨ _))

theorem skipDue_iff {m : Machine} {i : Instruction} (h : decode m.word = some i) :
    m.SkipDue ↔ m.passes i = true := by
  have hfits : ∀ {p}, p ∈ patterns → (Fits m.word p ↔ i.pattern = p) := fits_iff h
  rw [SkipDue, hfits (by decide), hfits (by decide), hfits (by decide), hfits (by decide),
    hfits (by decide), hfits (by decide), ← encode_of_decode h]
  cases i <;>
    simp (disch := decide) [pattern, passes, encode, fieldX_wordXB, fieldByte_wordXB,
      fieldX_wordXYN, fieldY_wordXYN]

theorem leaps_iff {m : Machine} {i : Instruction} (h : decode m.word = some i) :
    (∃ p ∈ ["1NNN", "2NNN", "00EE", "BNNN"], Fits m.word p) ↔ i.leaps = true := by
  have hfits : ∀ {p}, p ∈ patterns → (Fits m.word p ↔ i.pattern = p) := fits_iff h
  simp only [List.exists_mem_cons_iff, List.not_mem_nil, false_and, exists_false, or_false]
  rw [hfits (by decide), hfits (by decide), hfits (by decide), hfits (by decide)]
  cases i <;> simp [pattern, leaps]

/-! ### One instruction -/

/-- A signal tells the truth of an instruction that led from one machine to
another. -/
structure Tells (s : Signal) (i : Instruction) (m m' : Machine) : Prop where
  waiting_iff : s = .waiting ↔ m'.awaiting.isSome = true
  jumped_iff : s = .jumped ↔ i.leaps = true
  screen_eq : s ≠ .drew → m'.screen = m.screen
  pc_eq : s ≠ .jumped → m'.pc = if m.passes i then m.pc + 4 else m.pc + 2

section Tells

variable {i : Instruction} {m m' : Machine}

theorem Tells.jumped (hawaiting : m'.awaiting = none) (hleaps : i.leaps = true)
    (hscreen : m'.screen = m.screen) : Tells .jumped i m m' where
  waiting_iff := iff_of_false nofun (by rw [hawaiting]; exact Bool.false_ne_true)
  jumped_iff := iff_of_true rfl hleaps
  screen_eq _ := hscreen
  pc_eq h := absurd rfl h

theorem Tells.drew (hawaiting : m'.awaiting = none) (hleaps : i.leaps = false)
    (hpc : m'.pc = if m.passes i then m.pc + 4 else m.pc + 2) : Tells .drew i m m' where
  waiting_iff := iff_of_false nofun (by rw [hawaiting]; exact Bool.false_ne_true)
  jumped_iff := iff_of_false nofun (by rw [hleaps]; exact Bool.false_ne_true)
  screen_eq h := absurd rfl h
  pc_eq _ := hpc

theorem Tells.still {s : Signal} (hs : s = .quiet ∨ s = .sounded) (hawaiting : m'.awaiting = none)
    (hleaps : i.leaps = false) (hscreen : m'.screen = m.screen)
    (hpc : m'.pc = if m.passes i then m.pc + 4 else m.pc + 2) : Tells s i m m' where
  waiting_iff := by
    rw [hawaiting]
    rcases hs with rfl | rfl <;> exact iff_of_false nofun Bool.false_ne_true
  jumped_iff := by
    rw [hleaps]
    rcases hs with rfl | rfl <;> exact iff_of_false nofun Bool.false_ne_true
  screen_eq _ := hscreen
  pc_eq _ := hpc

/-- Every instruction that is carried out tells the truth. -/
theorem step_tells {d : Dialect} {s : Signal} (hc : m.current = some i)
    (h : (m.step d).outcome = .ok s) : Tells s i m (m.step d).machine := by
  have ha : m.awaiting = none := (current_eq_some.mp hc).1
  have hstep := step_of_current hc d
  cases i with
  | clear | draw x y n =>
    rw [hstep] at h ⊢
    cases h
    exact .drew ha rfl rfl
  | ret =>
    cases hcalls : m.calls with
    | nil =>
      rw [step_ret_of_empty hc hcalls] at h
      cases h
    | cons r rest =>
      rw [step_ret hc hcalls] at h ⊢
      cases h
      exact .jumped ha rfl rfl
  | jump a =>
    rw [hstep] at h ⊢
    cases h
    exact .jumped ha rfl rfl
  | call a =>
    by_cases hroom : m.calls.length < callLimit
    · rw [step_call hc hroom] at h ⊢
      cases h
      exact .jumped ha rfl rfl
    · rw [step_call_of_full hc hroom] at h
      cases h
  | jumpPlus a =>
    by_cases hle : 4096 ≤ a.val + (m.get Reg.first).toNat
    · rw [step_jumpPlus_of_le hc hle] at h
      cases h
    · rw [step_jumpPlus hc (Nat.not_le.mp hle)] at h ⊢
      cases h
      exact .jumped ha rfl rfl
  | awaitKey x =>
    rw [hstep] at h ⊢
    cases h
    exact ⟨iff_of_true rfl rfl, iff_of_false nofun nofun, fun _ => rfl, fun _ => rfl⟩
  | skipIfByte x b | skipUnlessByte x b | skipIfSame x y | skipUnlessSame x y | skipIfKey x
  | skipUnlessKey x =>
    rw [hstep] at h ⊢
    cases h
    simp only [execute, done, signals, skipIf_frame]
    exact .still (.inl rfl) ha rfl rfl rfl
  | startSound x =>
    rw [hstep] at h ⊢
    rw [execute_startSound_machine]
    refine .still ?_ ha rfl rfl rfl
    simp only [execute] at h
    split at h
    · exact .inr (Except.ok.inj h).symm
    · exact .inl (Except.ok.inj h).symm
  | storeRegisters x | loadRegisters x =>
    rw [hstep] at h ⊢
    cases h
    simp only [execute, done, signals]
    rw [afterTransfer_frame]
    exact .still (.inl rfl) ha rfl rfl rfl
  | _ =>
    rw [hstep] at h ⊢
    cases h
    exact .still (.inl rfl) ha rfl rfl rfl

end Tells

/-- A step that succeeds without looking for a key carries out an
instruction. -/
theorem current_of_ok {m : Machine} {d : Dialect} {s : Signal} (ha : m.awaiting = none)
    (h : (m.step d).outcome = .ok s) : ∃ i, m.current = some i := by
  cases hc : m.current with
  | some i => exact ⟨i, rfl⟩
  | none =>
    rcases step_of_stuck ha hc d with ⟨-, hs⟩ | ⟨-, -, hs⟩ <;> rw [hs] at h <;> cases h

/-- A step that looks for a key goes on waiting, or finds one and waits no
more. -/
theorem resume_tells (m : Machine) (x : Reg) :
    (m.resume x).outcome = .ok .waiting ∧ (m.resume x).machine = m ∨
      (m.resume x).outcome = .ok .quiet ∧ (m.resume x).machine.awaiting = none ∧
        (m.resume x).machine.screen = m.screen ∧ (m.resume x).machine.pc = m.pc := by
  unfold resume
  split
  · exact .inr ⟨rfl, rfl, rfl, rfl⟩
  · exact .inl ⟨rfl, rfl⟩

end Machine
end ChipEight
