/-
# What stops a step

Whether a step fails, and with what, can be told from the machine before it
(`obstacle`): from the place of the program counter, from the word there, and
from how many return addresses are saved or where a jump leads. Where there is
no instruction, the step fails and changes nothing (`step_of_unfetched`); where
there is one, the step fails if that cannot be carried out and succeeds if it
can (`step_of_fetched`). So a step with an obstacle fails with it
(`step_of_obstacle`), and any other succeeds (`step_of_obstacle_eq_none`).

Key definitions: `Machine.unfetched`, `Machine.undone`, `Machine.obstacle`.
-/
import ChipEight.Proofs.Instruction.Table
import ChipEight.Proofs.Machine.Calls
import ChipEight.Proofs.Memory

namespace ChipEight
namespace Machine

open Instruction

/-- Where the word at the program counter leads, read as a jump by `V0`. -/
def target (m : Machine) : ℕ := m.word.toNat % 4096 + (m.get Reg.first).toNat

/-- Why there is no instruction at the program counter: no whole word lies
there, or the word fits no pattern. -/
def unfetched (m : Machine) : Option Failure :=
  if 4096 ≤ m.pc + 1 then some (.addressOutOfRange m.pc)
  else if ∀ p ∈ patterns, ¬ Fits m.word p then some (.invalidOpcode m.word m.pc)
  else none

/-- Why the instruction at the program counter cannot be carried out: it is a
return and nothing is saved, a call and sixteen addresses are saved, or a jump
out of memory. -/
def undone (m : Machine) : Option Failure :=
  if Fits m.word "00EE" ∧ m.calls.length = 0 then some .stackUnderflow
  else if Fits m.word "2NNN" ∧ m.calls.length = 16 then some .stackOverflow
  else if Fits m.word "BNNN" ∧ 4096 ≤ m.target then some (.addressOutOfRange m.target)
  else none

/-- What stops the next step. Nothing stops a machine that awaits a key. -/
def obstacle (m : Machine) : Option Failure :=
  if m.awaiting.isSome then none else m.unfetched.or m.undone

/-- The high byte of the word comes first. -/
theorem toNat_word (m : Machine) :
    m.word.toNat = (m.memory.read m.pc).toNat * 256 + (m.memory.read (m.pc + 1)).toNat :=
  m.memory.toNat_word m.pc

variable {m : Machine}

theorem current_of_fetched (ha : m.awaiting = none) (h : m.unfetched = none) :
    ∃ i, m.current = some i := by
  unfold unfetched at h
  split at h
  · cases h
  · next hpc =>
    split at h
    · cases h
    · next hfits =>
      cases hi : decode m.word with
      | none => exact absurd (decode_eq_none_iff.mp hi) hfits
      | some i => exact ⟨i, current_eq_some.mpr ⟨ha, (inBounds_iff m).mpr (by omega), hi⟩⟩

/-- Where no instruction is found, the step fails and changes nothing. -/
theorem step_of_unfetched {f : Failure} (ha : m.awaiting = none) (h : m.unfetched = some f)
    (d : Dialect) : (m.step d).outcome = .error f ∧ (m.step d).machine = m := by
  unfold unfetched at h
  split at h
  · next hpc =>
    cases h
    have hb : m.inBounds = false := by
      rw [← Bool.not_eq_true, inBounds_iff]
      omega
    simp only [step, ha, hb, Bool.false_eq_true, if_false, and_self]
  · next hpc =>
    split at h
    · next hfits =>
      cases h
      have hb : m.inBounds = true := (inBounds_iff m).mpr (by omega)
      simp only [step, ha, hb, if_true, decode_eq_none_iff.mpr hfits, and_self]
    · cases h

/-- What stops an instruction, by kind of instruction. -/
theorem undone_of_decode : ∀ {i : Instruction}, decode m.word = some i → m.undone =
    match i with
    | .ret => if m.calls.length = 0 then some .stackUnderflow else none
    | .call _ => if m.calls.length = 16 then some .stackOverflow else none
    | .jumpPlus _ => if 4096 ≤ m.target then some (.addressOutOfRange m.target) else none
    | _ => none := by
  intro i hi
  simp only [undone, fits_ret, fits_call, fits_jumpPlus, hi, Option.some.injEq]
  cases i <;> simp

theorem target_of_decode {a : Address} (hi : decode m.word = some (.jumpPlus a)) :
    m.target = a.val + (m.get Reg.first).toNat := by
  have ha : m.word.toNat % 4096 = a.val := by
    rw [← encode_of_decode hi]
    exact congrArg Fin.val (fieldAddress_wordA (by decide))
  rw [target, ha]

theorem step_jumpPlus {a : Address} (h : m.current = some (.jumpPlus a))
    (hlt : a.val + (m.get Reg.first).toNat < 4096) (d : Dialect) : m.step d =
      ⟨.ok .jumped, m.goTo (a.val + (m.get Reg.first).toNat), [.executing m.pc (.jumpPlus a)]⟩ := by
  have hin : a.val + (m.skip.get Reg.first).toNat < Memory.size := hlt
  rw [step_of_current h]
  simp only [execute, if_pos hin]
  rfl

/-- A jump out of memory has only moved the program counter. -/
theorem step_jumpPlus_of_le {a : Address} (h : m.current = some (.jumpPlus a))
    (hle : 4096 ≤ a.val + (m.get Reg.first).toNat) (d : Dialect) : m.step d =
      ⟨.error (.addressOutOfRange (a.val + (m.get Reg.first).toNat)), m.skip,
        [.executing m.pc (.jumpPlus a), .jumpOutOfRange (a.val + (m.get Reg.first).toNat)]⟩ := by
  have hout : ¬ a.val + (m.skip.get Reg.first).toNat < Memory.size := Nat.not_lt.mpr hle
  rw [step_of_current h]
  simp only [execute, if_neg hout]
  rfl

/-- Instructions other than calls, returns and jumps by `V0` succeed. -/
theorem execute_succeeds (d : Dialect) (m : Machine) {i : Instruction} (hret : i ≠ .ret)
    (hcall : ∀ a, i ≠ .call a) (hjump : ∀ a, i ≠ .jumpPlus a) :
    ∃ s, (m.execute d i).outcome = .ok s := by
  cases i with
  | ret => exact absurd rfl hret
  | call a => exact absurd rfl (hcall a)
  | jumpPlus a => exact absurd rfl (hjump a)
  | startSound x =>
    simp only [execute]
    split <;> exact ⟨_, rfl⟩
  | _ => exact ⟨_, rfl⟩

/-- An instruction that cannot be carried out has only moved the program
counter, and any other succeeds. -/
theorem step_of_fetched (hdepth : m.calls.length ≤ callLimit) (ha : m.awaiting = none)
    (hu : m.unfetched = none) (d : Dialect) :
    match m.undone with
    | some f => (m.step d).outcome = .error f ∧ (m.step d).machine = m.skip
    | none => ∃ s, (m.step d).outcome = .ok s := by
  obtain ⟨i, hc⟩ := current_of_fetched ha hu
  have hi : decode m.word = some i := (current_eq_some.mp hc).2.2
  rw [undone_of_decode hi]
  cases i with
  | ret =>
    cases hcalls : m.calls with
    | nil =>
      rw [step_ret_of_empty hc hcalls]
      exact ⟨rfl, rfl⟩
    | cons r rest =>
      rw [step_ret hc hcalls]
      exact ⟨_, rfl⟩
  | call a =>
    by_cases hroom : m.calls.length < callLimit
    · have hne : m.calls.length ≠ 16 := Nat.ne_of_lt hroom
      simp only [if_neg hne, step_call hc hroom]
      exact ⟨_, rfl⟩
    · have hfull : m.calls.length = 16 := Nat.le_antisymm hdepth (Nat.not_lt.mp hroom)
      simp only [if_pos hfull, step_call_of_full hc hroom, and_self]
  | jumpPlus a =>
    rw [target_of_decode hi]
    by_cases hle : 4096 ≤ a.val + (m.get Reg.first).toNat
    · simp only [if_pos hle, step_jumpPlus_of_le hc hle, and_self]
    · simp only [if_neg hle, step_jumpPlus hc (Nat.not_le.mp hle)]
      exact ⟨_, rfl⟩
  | _ =>
    rw [step_of_current hc]
    exact execute_succeeds d m.skip (by simp) (by simp) (by simp)

theorem resume_succeeds (m : Machine) (x : Reg) : ∃ s, (m.resume x).outcome = .ok s := by
  unfold resume
  split <;> exact ⟨_, rfl⟩

theorem obstacle_eq_some {f : Failure} : m.obstacle = some f ↔ m.awaiting = none ∧
    (m.unfetched = some f ∨ m.unfetched = none ∧ m.undone = some f) := by
  unfold obstacle
  cases m.awaiting <;> simp [Option.or_eq_some_iff]

/-- Every obstacle ends the program. -/
theorem isFatal_of_obstacle {f : Failure} (h : m.obstacle = some f) : f.isFatal = true := by
  obtain ⟨-, h | ⟨-, h⟩⟩ := obstacle_eq_some.mp h
  · unfold unfetched at h
    split_ifs at h <;> cases h <;> rfl
  · unfold undone at h
    split_ifs at h <;> cases h <;> rfl

/-- A step fails with what stops it. It has changed nothing if there is no
instruction, and moved the program counter if there is one. -/
theorem step_of_obstacle {f : Failure} (hdepth : m.calls.length ≤ callLimit)
    (h : m.obstacle = some f) (d : Dialect) : (m.step d).outcome = .error f ∧
      (m.unfetched = some f ∧ (m.step d).machine = m ∨
        m.unfetched = none ∧ m.undone = some f ∧ (m.step d).machine = m.skip) := by
  obtain ⟨ha, hu | ⟨hu, hun⟩⟩ := obstacle_eq_some.mp h
  · obtain ⟨hout, hsame⟩ := step_of_unfetched ha hu d
    exact ⟨hout, .inl ⟨hu, hsame⟩⟩
  · have hstep := step_of_fetched hdepth ha hu d
    rw [hun] at hstep
    exact ⟨hstep.1, .inr ⟨hu, hun, hstep.2⟩⟩

theorem step_of_obstacle_eq_none (hdepth : m.calls.length ≤ callLimit) (h : m.obstacle = none)
    (d : Dialect) : ∃ s, (m.step d).outcome = .ok s := by
  cases ha : m.awaiting with
  | some x =>
    rw [step_of_awaiting ha]
    exact resume_succeeds m x
  | none =>
    obtain ⟨hu, hun⟩ : m.unfetched = none ∧ m.undone = none := by
      simpa only [obstacle, ha, Option.isSome_none, Bool.false_eq_true, if_false,
        Option.or_eq_none_iff] using h
    have hstep := step_of_fetched hdepth ha hu d
    rw [hun] at hstep
    exact hstep

end Machine
end ChipEight
