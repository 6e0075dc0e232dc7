/-
# Arithmetic that loses nothing

Sums, differences and shifted bytes may not fit a register. The instructions that
make them leave the low eight bits in `Vx` and the rest of the account in `VF`, so
that the two together tell the operands' sum, difference or double, whichever
registers coincide (`execute_accounts`). The flag is written last: if `Vx` is `VF`,
the flag is what remains.

Key definitions: `Machine.Accounts`.
-/
import Mathlib.Data.Int.Notation
import ChipEight.Proofs.Machine.Footprint

namespace ChipEight

/-! ### Bytes and the bit that falls out -/

theorem byte_add (a b : UInt8) : (a.toNat + b.toNat : ℤ) =
    (a + b).toNat + 256 * (decide (256 ≤ a.toNat + b.toNat)).toNat := by
  have ha := a.toNat_lt
  have hb := b.toNat_lt
  rw [UInt8.toNat_add]
  by_cases h : 256 ≤ a.toNat + b.toNat
  · rw [decide_eq_true h, Bool.toNat_true]
    omega
  · rw [decide_eq_false h, Bool.toNat_false]
    omega

theorem byte_sub (a b : UInt8) : (a.toNat - b.toNat : ℤ) =
    (a - b).toNat - 256 * (1 - (decide (b ≤ a)).toNat) := by
  have ha := a.toNat_lt
  have hb := b.toNat_lt
  rw [UInt8.toNat_sub]
  by_cases h : b ≤ a
  · rw [decide_eq_true h, Bool.toNat_true]
    rw [UInt8.le_iff_toNat_le] at h
    omega
  · rw [decide_eq_false h, Bool.toNat_false]
    rw [UInt8.le_iff_toNat_le] at h
    omega

theorem byte_shiftRight (s : UInt8) : (s.toNat : ℤ) =
    2 * (s >>> 1).toNat + (decide (s.toNat % 2 = 1)).toNat := by
  have hhalf : (s >>> 1).toNat = s.toNat / 2 := by
    rw [UInt8.toNat_shiftRight]
    exact Nat.shiftRight_eq_div_pow s.toNat 1
  by_cases h : s.toNat % 2 = 1
  · rw [hhalf, decide_eq_true h, Bool.toNat_true]
    omega
  · rw [hhalf, decide_eq_false h, Bool.toNat_false]
    omega

theorem byte_shiftLeft (s : UInt8) : (2 * s.toNat : ℤ) =
    (s <<< 1).toNat + 256 * (decide (128 ≤ s.toNat)).toNat := by
  have hs := s.toNat_lt
  have hdouble : (s <<< 1).toNat = s.toNat * 2 % 256 := by
    rw [UInt8.toNat_shiftLeft]
    exact congrArg (· % 256) (Nat.shiftLeft_eq s.toNat 1)
  by_cases h : 128 ≤ s.toNat
  · rw [hdouble, decide_eq_true h, Bool.toNat_true]
    omega
  · rw [hdouble, decide_eq_false h, Bool.toNat_false]
    omega

namespace Machine

/-! ### A result and a flag -/

/-- What is left once a result was put in `Vx` and a condition in `VF`. The flag
tells the condition. Unless it took the place of the result, the two satisfy an
equation. No other register has changed. -/
structure Accounts (m m' : Machine) (x : Reg) (condition : Prop) (equation : ℤ → ℤ → Prop) :
    Prop where
  flag_of : condition → m'.get Reg.flag = 1
  flag_of_not : ¬ condition → m'.get Reg.flag = 0
  equation : x ≠ Reg.flag → equation (m'.get x).toNat (m'.get Reg.flag).toNat
  others : ∀ r, r ≠ x → r ≠ Reg.flag → m'.get r = m.get r

/-- Writing the result and then the flag leaves an account, if the equation holds
of what is written. -/
theorem accounts_of_written (m : Machine) (x : Reg) {result : UInt8} {on : Bool} {condition : Prop}
    {equation : ℤ → ℤ → Prop} (hon : on = true ↔ condition)
    (heq : equation result.toNat on.toNat) :
    m.Accounts ((m.setV x result).setFlag on) x condition equation := by
  have hflag : ((m.setV x result).setFlag on).get Reg.flag = if on then 1 else 0 := by
    rw [setFlag, get_setV, if_pos rfl]
  refine ⟨fun h => ?_, fun h => ?_, fun hx => ?_, fun r hrx hr => ?_⟩
  · rw [hflag, if_pos (hon.mpr h)]
  · rw [hflag, if_neg fun ht => h (hon.mp ht)]
  · have hresult : ((m.setV x result).setFlag on).get x = result := by
      rw [setFlag, get_setV, if_neg (Ne.symm hx), get_setV, if_pos rfl]
    have hbit : ((if on then 1 else 0) : UInt8).toNat = on.toNat := by cases on <;> rfl
    rw [hresult, hflag, hbit]
    exact heq
  · rw [setFlag, get_setV, if_neg (Ne.symm hr), get_setV, if_neg (Ne.symm hrx)]

/-! ### Each instruction -/

section Instructions

variable (d : Dialect) (m : Machine) (x y : Reg)

theorem accounts_add : m.Accounts (m.execute d (.add x y)).machine x
    (256 ≤ ((m.get x).toNat + (m.get y).toNat : ℤ))
    fun r f => (m.get x).toNat + (m.get y).toNat = r + 256 * f := by
  refine accounts_of_written m x ?_ (byte_add _ _)
  rw [decide_eq_true_iff]
  omega

theorem accounts_sub : m.Accounts (m.execute d (.sub x y)).machine x
    (((m.get y).toNat : ℤ) ≤ (m.get x).toNat)
    fun r f => (m.get x).toNat - (m.get y).toNat = r - 256 * (1 - f) := by
  refine accounts_of_written m x ?_ (byte_sub _ _)
  rw [decide_eq_true_iff, UInt8.le_iff_toNat_le, Int.ofNat_le]

theorem accounts_subFrom : m.Accounts (m.execute d (.subFrom x y)).machine x
    (((m.get x).toNat : ℤ) ≤ (m.get y).toNat)
    fun r f => (m.get y).toNat - (m.get x).toNat = r - 256 * (1 - f) := by
  refine accounts_of_written m x ?_ (byte_sub _ _)
  rw [decide_eq_true_iff, UInt8.le_iff_toNat_le, Int.ofNat_le]

theorem accounts_shiftRight : m.Accounts (m.execute d (.shiftRight x y)).machine x
    (((m.shiftOperand d x y).toNat : ℤ) % 2 = 1)
    fun r f => (m.shiftOperand d x y).toNat = 2 * r + f := by
  refine accounts_of_written m x ?_ (byte_shiftRight _)
  rw [decide_eq_true_iff]
  omega

theorem accounts_shiftLeft : m.Accounts (m.execute d (.shiftLeft x y)).machine x
    (128 ≤ ((m.shiftOperand d x y).toNat : ℤ))
    fun r f => 2 * (m.shiftOperand d x y).toNat = r + 256 * f := by
  refine accounts_of_written m x ?_ (byte_shiftLeft _)
  rw [decide_eq_true_iff]
  omega

/-- An instruction whose footprint is `Vx` leaves the other registers alone. -/
theorem get_execute_of_ne {i : Instruction} (hi : (i.footprint d).register = fun r => r == x)
    {r : Reg} (hr : r ≠ x) : (m.execute d i).machine.get r = m.get r := by
  by_contra hne
  have hwritten := (execute_covers d m i).register r hne
  rw [hi] at hwritten
  exact hr (eq_of_beq hwritten)

theorem setV_setV (a b : UInt8) : (m.setV x a).setV x b = m.setV x b := by
  simp only [setV, Vector.set_set]

/-- Copying `Vy` and then shifting `Vx` comes to the same as shifting `Vy` into `Vx`. -/
theorem shift_copied (shift : UInt8 → UInt8) (out : UInt8 → Bool) :
    let copied := m.setV x (m.get y)
    (copied.setV x (shift (copied.get x))).setFlag (out (copied.get x)) =
      (m.setV x (shift (m.get y))).setFlag (out (m.get y)) := by
  intro copied
  have hget : copied.get x = m.get y := by rw [get_setV, if_pos rfl]
  rw [hget, setV_setV]

end Instructions

/-! ### All of them -/

/-- Let `a` and `b` be in `Vx` and `Vy`, whichever registers these are, and let `s` be
the one that shifts take. A sum tells in the flag whether it reaches 256, a
difference whether it is not negative, and a shift which bit falls out. If `Vx` is
not the flag, it and the flag tell the whole sum, difference, half or double. No
other register changes. Copies, bitwise operations and the sum with a given byte
change `Vx` alone. A shift that takes `Vy` is a copy and then a shift that takes
`Vx`. -/
theorem execute_accounts (d : Dialect) (m : Machine) (x y : Reg) (k : UInt8) :
    let a : ℤ := (m.get x).toNat
    let b : ℤ := (m.get y).toNat
    let s : ℤ := if d.shiftReadsY then b else a
    let after := fun i => (m.execute d i).machine
    m.Accounts (after (.add x y)) x (256 ≤ a + b) (fun r f => a + b = r + 256 * f) ∧
      m.Accounts (after (.sub x y)) x (b ≤ a) (fun r f => a - b = r - 256 * (1 - f)) ∧
      m.Accounts (after (.shiftRight x y)) x (s % 2 = 1) (fun r f => s = 2 * r + f) ∧
      m.Accounts (after (.subFrom x y)) x (a ≤ b) (fun r f => b - a = r - 256 * (1 - f)) ∧
      m.Accounts (after (.shiftLeft x y)) x (128 ≤ s) (fun r f => 2 * s = r + 256 * f) ∧
      (∀ i ∈ [.copy x y, .or x y, .and x y, .xor x y, .addByte x k],
        ∀ r, r ≠ x → (after i).get r = m.get r) ∧
      (d.shiftReadsY = true →
        let plain := { d with shiftReadsY := false }
        let copied := after (.copy x y)
        (copied.execute plain (.shiftRight x y)).machine = after (.shiftRight x y) ∧
          (copied.execute plain (.shiftLeft x y)).machine = after (.shiftLeft x y)) := by
  intro a b s after
  have hs : s = (m.shiftOperand d x y).toNat := by
    unfold s shiftOperand
    split <;> rfl
  rw [hs]
  refine ⟨accounts_add d m x y, accounts_sub d m x y, accounts_shiftRight d m x y,
    accounts_subFrom d m x y, accounts_shiftLeft d m x y, fun i hi r hr => ?_, fun hd => ?_⟩
  · refine get_execute_of_ne d m x ?_ hr
    simp only [List.mem_cons, List.not_mem_nil, or_false] at hi
    rcases hi with rfl | rfl | rfl | rfl | rfl <;> rfl
  · intro plain copied
    have hy : m.shiftOperand d x y = m.get y := if_pos hd
    constructor
    · simp only [after, execute, hy]
      exact shift_copied m x y (· >>> 1) fun s => s.toNat % 2 = 1
    · simp only [after, execute, hy]
      exact shift_copied m x y (· <<< 1) fun s => 128 ≤ s.toNat

/-- A machine with 200 in `V0` and 100 in the flag register. -/
def laden : Machine :=
  ((initial .released (.ofWords [])).setV Reg.first 200).setV Reg.flag 100

/-- The sum of the two is 300, which takes both to tell. Added to itself, the flag
register only tells that 200 fits, and shifted into `V0` it leaves what a copy and a
shift of `V0` leave. -/
theorem laden_accounts :
    let sum := (laden.execute .modern (.add Reg.first Reg.flag)).machine
    let double := (laden.execute .modern (.add Reg.flag Reg.flag)).machine
    let copied := (laden.execute ⟨true, false⟩ (.copy Reg.first Reg.flag)).machine
    sum.get Reg.flag = 1 ∧
      (300 : ℤ) = (sum.get Reg.first).toNat + 256 * (sum.get Reg.flag).toNat ∧
      double.get Reg.flag = 0 ∧ double.get Reg.first = 200 ∧ copied.get Reg.flag = 100 ∧
      (copied.execute .modern (.shiftRight Reg.first Reg.flag)).machine =
        (laden.execute ⟨true, false⟩ (.shiftRight Reg.first Reg.flag)).machine := by
  intro sum double copied
  obtain ⟨hsum, -⟩ := execute_accounts .modern laden Reg.first Reg.flag 0
  obtain ⟨hdouble, -⟩ := execute_accounts .modern laden Reg.flag Reg.flag 0
  obtain ⟨-, -, -, -, -, hcopy, hshift⟩ :=
    execute_accounts ⟨true, false⟩ laden Reg.first Reg.flag 0
  have hfirst : laden.get Reg.first = 200 := by decide +kernel
  have hflag : laden.get Reg.flag = 100 := by decide +kernel
  have hne : Reg.first ≠ Reg.flag := by decide
  rw [hfirst, hflag] at hsum
  rw [hflag] at hdouble
  refine ⟨hsum.flag_of (by decide), hsum.equation hne, hdouble.flag_of_not (by decide), ?_, ?_,
    (hshift rfl).1⟩
  · exact (hdouble.others Reg.first hne hne).trans hfirst
  · exact (hcopy _ List.mem_cons_self Reg.flag (Ne.symm hne)).trans hflag

end Machine
end ChipEight
