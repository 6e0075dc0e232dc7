/-
# No bound is ever hit

Within its bounds a machine passes every test of the guarded step
(`Guarded.step_eq`): no index is past its end, no sum outgrows its word, the
return address keeps its value in sixteen bits, and no table is handed an
instruction that it does not hold. The guarded step then does what the step
does.

Masking makes most indices fit for any machine. What needs the bounds are the
places of the stack, the sums on the program counter and the return address.
-/
import Mathlib.Data.Nat.Notation
import ChipEight.Machine.Guarded
import ChipEight.Proofs.Machine.Bounds

namespace ChipEight
namespace Guarded

/-! ### Tests that are passed -/

@[simp] theorem ok_bind {ε α β : Type} (a : α) (f : α → Except ε β) :
    (Except.ok a >>= f) = f a := rfl

@[simp] theorem pure_eq_ok {ε α : Type} (a : α) : (pure a : Except ε α) = .ok a := rfl

theorem index_of_lt {size i : ℕ} (h : i < size) : index size i = .ok ⟨i, h⟩ := dif_pos h

theorem fit_of_lt {bits n : ℕ} (h : n < 1 <<< bits) : fit bits n = .ok n := if_pos h

/-- A sum of small numbers fits in sixty-four bits. -/
theorem fit_small {n : ℕ} (h : n < 65536) : fit 64 n = .ok n :=
  fit_of_lt (Nat.lt_trans h (by decide))

/-- A loop whose body passes its tests on the indices that it runs over. -/
theorem foldlM_ok {α β : Type} {f : β → α → Except Fault β} {g : β → α → β} :
    ∀ (l : List α) (b : β), (∀ a ∈ l, ∀ b, f b a = .ok (g b a)) → l.foldlM f b = .ok (l.foldl g b)
  | [], _, _ => rfl
  | a :: l, b, h => by
    rw [List.foldlM_cons, h a List.mem_cons_self, ok_bind, List.foldl_cons]
    exact foldlM_ok l _ fun x hx => h x (List.mem_cons_of_mem _ hx)

theorem mapM_ok {α β : Type} {f : α → Except Fault β} {g : α → β} :
    ∀ l : List α, (∀ a ∈ l, f a = .ok (g a)) → l.mapM f = .ok (l.map g)
  | [], _ => rfl
  | a :: l, h => by
    rw [List.mapM_cons, h a List.mem_cons_self, ok_bind,
      mapM_ok l fun x hx => h x (List.mem_cons_of_mem _ hx)]
    rfl

/-! ### Memory -/

theorem and_address (a : ℕ) : a &&& 0xFFF = a % 4096 := Nat.and_two_pow_sub_one_eq_mod a 12

@[simp] theorem read_eq (m : Memory) (a : ℕ) : read m a = .ok (m.read a) := by
  have h : a &&& 0xFFF < 4096 := and_address a ▸ Nat.mod_lt a (by decide)
  rw [read, index_of_lt h]
  simp only [ok_bind, pure_eq_ok, Memory.read, Address.wrap, and_address]

@[simp] theorem write_eq (m : Memory) (a : ℕ) (b : UInt8) : write m a b = .ok (m.write a b) := by
  have h : a &&& 0xFFF < 4096 := and_address a ▸ Nat.mod_lt a (by decide)
  rw [write, index_of_lt h]
  simp only [ok_bind, pure_eq_ok, Memory.write, Address.wrap, and_address]

theorem word_eq (m : Memory) {a : ℕ} (h : a < 4096) : word m a = .ok (m.word a) := by
  simp only [word, read_eq, ok_bind, fit_small (show a + 1 < 65536 by omega), pure_eq_ok,
    Memory.word]

theorem writeAll_eq : ∀ (bs : List UInt8) (m : Memory) (a k : ℕ), a + k + bs.length < 65536 →
    writeAll m a k bs = .ok (m.writeAll (a + k) bs)
  | [], _, _, _, _ => rfl
  | b :: bs, m, a, k, h => by
    rw [List.length_cons] at h
    simp only [writeAll, fit_small (show a + k < 65536 by omega), ok_bind, write_eq]
    exact writeAll_eq bs _ a (k + 1) (by omega)

/-! ### Registers and the stack -/

theorem and_register (x : Reg) : x.val &&& 0xF = x.val :=
  Nat.and_two_pow_sub_one_of_lt_two_pow (n := 4) x.isLt

@[simp] theorem get_eq (m : Machine) (x : Reg) : get m x.val = .ok (m.get x) := by
  have h : x.val &&& 0xF < 16 := Nat.lt_of_le_of_lt (Nat.le_of_eq (and_register x)) x.isLt
  rw [get, index_of_lt h]
  simp only [ok_bind, pure_eq_ok, Machine.get, and_register]

@[simp] theorem setV_eq (m : Machine) (x : Reg) (b : UInt8) :
    setV m x.val b = .ok (m.setV x b) := by
  have h : x.val &&& 0xF < 16 := Nat.lt_of_le_of_lt (Nat.le_of_eq (and_register x)) x.isLt
  rw [setV, index_of_lt h]
  simp only [ok_bind, pure_eq_ok, Machine.setV, and_register]

@[simp] theorem setFlag_eq (m : Machine) (on : Bool) : setFlag m on = .ok (m.setFlag on) :=
  setV_eq m Reg.flag _

theorem skipIf_eq {m : Machine} (h : m.pc ≤ 0x1000) (condition : Bool) :
    skipIf m condition = .ok (m.skipIf condition) := by
  cases condition with
  | true =>
    simp only [skipIf, if_true, fit_small (show m.pc + 2 < 65536 by omega), ok_bind, pure_eq_ok]
    rfl
  | false => rfl

@[simp] theorem push_eq (m : Machine) (a : UInt16) : push m a = .ok (m.push a) := by
  unfold push Machine.push
  split
  · next h => rw [index_of_lt h]; rfl
  · rfl

/-- The place of the latest return address exists while the stack is within
its limit. -/
theorem pop_eq {m : Machine} (h : m.calls.length ≤ Machine.callLimit) :
    pop m = .ok m.pop := by
  unfold pop Machine.pop
  split
  · next hc => rw [hc]; rfl
  · next a rest hc =>
    rw [hc, List.length_cons] at h
    rw [index_of_lt (show rest.length < Machine.callLimit by omega), hc]
    rfl

@[simp] theorem isPressed_eq (p : Keypad) (id : ℕ) : isPressed p id = .ok (p.isPressed id) := by
  unfold isPressed Keypad.isPressed Key.ofNat?
  split
  · next h => simp [index_of_lt h]
  · simp

@[simp] theorem shiftOperand_eq (d : Dialect) (m : Machine) (x y : Reg) :
    shiftOperand d m x y = .ok (m.shiftOperand d x y) := by
  unfold shiftOperand Machine.shiftOperand
  split <;> simp

theorem setI_wrap (m : Machine) (n : ℕ) : m.setI (n % 65536) = m.setI n := by
  have h : n % 65536 % 4096 = n % 4096 := by omega
  simp only [Machine.setI, Address.wrap, h]

@[simp] theorem afterTransfer_eq (d : Dialect) (m : Machine) (x : Reg) :
    afterTransfer d m x = .ok (m.afterTransfer d x) := by
  unfold afterTransfer Machine.afterTransfer
  split
  · rw [fit_of_lt (show x.val + 1 < 1 <<< 16 by omega), ok_bind, setI_wrap, Nat.add_assoc]
    rfl
  · rfl

/-! ### Loops over registers -/

/-- Byte by byte, the registers from `k` on go to memory. -/
theorem storing_eq (m : Machine) : ∀ (n k : ℕ) (memory : Memory), k + n ≤ 16 →
    (List.range' k n).foldl (fun memory k => memory.write (m.i.val + k) (m.get (Reg.wrap k))) memory =
      memory.writeAll (m.i.val + k) ((m.v.toList.drop k).take n)
  | 0, k, memory, _ => by simp [Memory.writeAll]
  | n + 1, k, memory, h => by
    have hk : k < m.v.toList.length := by simp; omega
    have hget : m.v.toList[k] = m.get (Reg.wrap k) := by
      have hmod : k % 16 = k := Nat.mod_eq_of_lt (by omega)
      simp [Machine.get, Reg.wrap, hmod]
    rw [List.range'_succ, List.foldl_cons, storing_eq m n (k + 1) _ (by omega),
      List.drop_eq_getElem_cons hk, List.take_succ_cons, Memory.writeAll, hget]
    rfl

theorem storeRegisters_eq (m : Machine) (x : Reg) :
    (List.range (x.val + 1)).foldlM (fun memory k => do
      write memory (← fit 64 (m.i.val + k)) (← get m k)) m.memory =
      .ok (m.memory.writeAll m.i.val (m.v.toList.take (x.val + 1))) := by
  have hbody : ∀ k ∈ List.range (x.val + 1), ∀ memory : Memory,
      (do write memory (← fit 64 (m.i.val + k)) (← get m k)) =
        Except.ok (memory.write (m.i.val + k) (m.get (Reg.wrap k))) := by
    intro k hk memory
    have hk16 : k < 16 := by have := List.mem_range.mp hk; omega
    have hget := get_eq m ⟨k, hk16⟩
    have hwrap : Reg.wrap k = ⟨k, hk16⟩ := Fin.ext (Nat.mod_eq_of_lt hk16)
    simp only [fit_small (show m.i.val + k < 65536 by omega), ok_bind, hget, write_eq, hwrap]
  rw [foldlM_ok _ _ hbody, List.range_eq_range', storing_eq m _ 0 _ (by omega)]
  rfl

/-- The registers once those below `n` have come from memory. -/
theorem loading_eq (m : Machine) : ∀ n ≤ 16,
    (List.range n).foldl (fun m k => m.setV (Reg.wrap k) (m.memory.read (m.i.val + k))) m =
      { m with v := Vector.ofFn fun k : Reg =>
          if k.val < n then m.memory.read (m.i.val + k.val) else m.get k }
  | 0, _ => by simp [Machine.get]
  | n + 1, h => by
    rw [List.range_succ, List.foldl_append, loading_eq m n (by omega)]
    have hmod : n % 16 = n := Nat.mod_eq_of_lt (by omega)
    simp only [List.foldl_cons, List.foldl_nil, Machine.setV, Reg.wrap, hmod]
    refine congrArg (fun v => { m with v := v }) (Vector.ext fun k hk => ?_)
    rw [Vector.getElem_set, Vector.getElem_ofFn, Vector.getElem_ofFn]
    by_cases hkn : n = k
    · subst hkn
      simp
    · have : k < n ↔ k < n + 1 := by omega
      simp [hkn, this]

theorem loadRegisters_eq (m : Machine) (x : Reg) :
    (List.range (x.val + 1)).foldlM (fun m k => do
      setV m k (← read m.memory (← fit 64 (m.i.val + k)))) m = .ok { m with v := m.loaded x } := by
  have hbody : ∀ k ∈ List.range (x.val + 1), ∀ m : Machine,
      (do setV m k (← read m.memory (← fit 64 (m.i.val + k)))) =
        Except.ok (m.setV (Reg.wrap k) (m.memory.read (m.i.val + k))) := by
    intro k hk m
    have hk16 : k < 16 := by have := List.mem_range.mp hk; omega
    have hset := setV_eq m ⟨k, hk16⟩
    have hwrap : Reg.wrap k = ⟨k, hk16⟩ := Fin.ext (Nat.mod_eq_of_lt hk16)
    simp only [fit_small (show m.i.val + k < 65536 by omega), ok_bind, hset, read_eq, hwrap]
  rw [foldlM_ok _ _ hbody, loading_eq m _ (by omega)]
  simp only [Machine.loaded, Fin.le_def, Nat.lt_succ_iff]

/-! ### Drawing -/

theorem and_column (n : ℕ) : n &&& 63 = n % 64 := Nat.and_two_pow_sub_one_eq_mod n 6

theorem and_row (n : ℕ) : n &&& 31 = n % 32 := Nat.and_two_pow_sub_one_eq_mod n 5

theorem drawRow_eq (x y : ℕ) (row : UInt8) (hx : x < 256) :
    ∀ (cs : List ℕ) (s : Screen) (erased : Bool), (∀ c ∈ cs, c < 8) →
      let cells := (cs.filter (Screen.rowBit row)).map fun c => Screen.cell (x + c) y
      drawRow x y row cs s erased = .ok ((s.flipAll cells).1, erased || (s.flipAll cells).2)
  | [], s, erased, _ => by simp [drawRow, Screen.flipAll]
  | c :: cs, s, erased, h => by
    have hc : c < 8 := h c List.mem_cons_self
    have hcs : ∀ c ∈ cs, c < 8 := fun d hd => h d (List.mem_cons_of_mem _ hd)
    rw [drawRow, List.filter_cons]
    by_cases hbit : Screen.rowBit row c = true
    · have hcell : (x + c &&& 63) + (y &&& 31) * 64 < 2048 := by
        rw [and_column, and_row]
        omega
      have hfin : (⟨_, hcell⟩ : Screen.Cell) = Screen.cell (x + c) y := by
        apply Fin.ext
        show (x + c &&& 63) + (y &&& 31) * 64 = (x + c) % 64 + y % 32 * 64
        rw [and_column, and_row]
      rw [if_pos hbit, if_pos hbit, fit_small (show x + c < 65536 by omega), ok_bind,
        index_of_lt hcell, ok_bind, hfin, drawRow_eq x y row hx cs _ _ hcs]
      simp only [List.map_cons, Screen.flipAll, Bool.or_assoc]
    · rw [if_neg hbit, if_neg hbit]
      exact drawRow_eq x y row hx cs s erased hcs

theorem drawRows_eq (x y : ℕ) (hx : x < 256) :
    ∀ (rows : List UInt8) (r : ℕ) (s : Screen) (erased : Bool), y + r + rows.length < 65536 →
      let drawn := s.flipAll (Screen.spriteCells x (y + r) rows)
      drawRows x y r rows s erased = .ok (drawn.1, erased || drawn.2)
  | [], r, s, erased, _ => by simp [drawRows, Screen.spriteCells, Screen.flipAll]
  | row :: rows, r, s, erased, h => by
    rw [List.length_cons] at h
    have hcols : ∀ c ∈ List.range 8, c < 8 := fun c hc => List.mem_range.mp hc
    simp only [drawRows, fit_small (show y + r < 65536 by omega), ok_bind,
      drawRow_eq x (y + r) row hx _ _ _ hcols,
      drawRows_eq x y hx rows (r + 1) _ _ (by omega), Screen.spriteCells, Screen.rowCells,
      Screen.flipAll_append, Bool.or_assoc, Nat.add_assoc]

theorem spriteRows_eq (m : Machine) (n : Fin 16) :
    ((List.range n.val).mapM fun r => do read m.memory (← fit 64 (m.i.val + r))) =
      .ok (m.memory.slice m.i.val n.val) := by
  refine mapM_ok _ fun r hr => ?_
  have : r < n.val := List.mem_range.mp hr
  simp only [fit_small (show m.i.val + r < 65536 by omega), ok_bind, read_eq]

/-! ### Instructions -/

/-- An instruction passes every test if the machine has moved past it, it lay
in memory, and the stack is within its limit. -/
theorem execute_eq (d : Dialect) {m : Machine} (hpc : m.pc ≤ 0x1000)
    (hd : m.calls.length ≤ Machine.callLimit) (i : Instruction) :
    execute d m i = .ok (m.execute d i) := by
  cases i with
  | clear | jump a | pointTo a => rfl
  | ret =>
    simp only [execute, pop_eq hd, ok_bind, Machine.execute]
    cases m.pop <;> rfl
  | call a =>
    simp only [execute, fit_of_lt (show m.pc < 1 <<< 16 by omega), ok_bind, push_eq, Machine.execute]
    cases m.push _ <;> rfl
  | skipIfByte x b | skipUnlessByte x b | skipIfSame x y | skipUnlessSame x y =>
    simp only [execute, get_eq, ok_bind, skipIf_eq hpc, pure_eq_ok, Machine.execute]
  | putByte x b | addByte x b | random x b =>
    simp only [execute, get_eq, setV_eq, ok_bind, pure_eq_ok, Machine.execute]
  | copy x y | or x y | and x y | xor x y | add x y | sub x y | shiftRight x y | subFrom x y
  | shiftLeft x y =>
    simp only [execute, executeMath, get_eq, shiftOperand_eq, setV_eq, setFlag_eq, ok_bind,
      pure_eq_ok, Machine.execute]
  | jumpPlus a =>
    have hsum : a.val + (m.get Reg.first).toNat < 65536 := by
      have := (m.get Reg.first).toNat_lt
      omega
    have hget : get m 0 = .ok (m.get Reg.first) := get_eq m Reg.first
    simp only [execute, hget, ok_bind, fit_small hsum, Machine.execute]
    split <;> rfl
  | draw x y n =>
    have hx : (m.get x).toNat < 256 := (m.get x).toNat_lt
    have hy : (m.get y).toNat < 256 := (m.get y).toNat_lt
    have hrows : (m.memory.slice m.i.val n.val).length = n.val := by simp [Memory.slice]
    have hdraw := drawRows_eq (m.get x).toNat (m.get y).toNat hx (m.memory.slice m.i.val n.val) 0
      m.screen false (by omega)
    simp only [execute, get_eq, ok_bind, index_of_lt (show n.val < 15 + 1 from n.isLt),
      spriteRows_eq, hdraw, setFlag_eq, pure_eq_ok, Machine.execute, Screen.draw, Bool.false_or,
      Nat.add_zero]
  | skipIfKey x | skipUnlessKey x =>
    simp only [execute, executeMisc, get_eq, isPressed_eq, ok_bind, skipIf_eq hpc, pure_eq_ok,
      Machine.execute]
  | readDelay x | startDelay x =>
    simp only [execute, executeMisc, get_eq, setV_eq, ok_bind, pure_eq_ok, Machine.execute]
  | startSound x =>
    simp only [execute, executeMisc, get_eq, ok_bind, pure_eq_ok, Machine.execute]
    rcases m.timers.startSound (m.get x) with ⟨timers, on | on⟩ <;> rfl
  | awaitKey x =>
    simp only [execute, executeMisc, index_of_lt x.isLt, ok_bind, pure_eq_ok, Machine.execute]
  | advance x =>
    simp only [execute, executeMisc, get_eq, ok_bind, pure_eq_ok, setI_wrap, Machine.execute]
  | pointToGlyph x =>
    have hfit : (m.get x).toNat % 16 * Memory.glyphHeight < 1 <<< 16 := by
      unfold Memory.glyphHeight
      omega
    simp only [execute, executeMisc, get_eq, ok_bind, fit_of_lt hfit, pure_eq_ok, Machine.execute]
  | storeDecimal x =>
    have hdigits := writeAll_eq (Machine.decimalDigits (m.get x)) m.memory m.i.val 0
      (by simp only [Machine.decimalDigits, List.length_cons, List.length_nil]; omega)
    simp only [execute, executeMisc, get_eq, ok_bind, hdigits, pure_eq_ok, Machine.execute,
      Nat.add_zero]
  | storeRegisters x =>
    simp only [execute, executeMisc, storeRegisters_eq, ok_bind, afterTransfer_eq, pure_eq_ok,
      Machine.execute]
  | loadRegisters x =>
    simp only [execute, executeMisc, loadRegisters_eq, ok_bind, afterTransfer_eq, pure_eq_ok,
      Machine.execute]

/-! ### Steps -/

theorem resume_eq (m : Machine) (x : Reg) : resume m x = .ok (m.resume x) := by
  unfold resume Machine.resume
  rcases m.keypad.takeFresh with _ | ⟨key, keypad⟩
  · rfl
  · simp only [index_of_lt key.isLt, ok_bind, setV_eq, pure_eq_ok]

/-- Within its bounds, a machine passes every test of a step, and the guarded
step does what the step does. -/
theorem step_eq (d : Dialect) {m : Machine} (h : m.Bounded) : step d m = .ok (m.step d) := by
  have hpc : m.pc ≤ 0x1002 := h.pc_le
  cases ha : m.awaiting with
  | some x => simp only [step, ha, resume_eq, Machine.step_of_awaiting ha]
  | none =>
    have hfit : fit 64 (m.pc + 1) = .ok (m.pc + 1) := fit_small (by omega)
    by_cases hin : m.pc + 1 < Memory.size
    · have hlt : m.pc + 1 < 4096 := hin
      have hb : m.inBounds = true := decide_eq_true hin
      have hw : word m.memory m.pc = .ok m.word := word_eq m.memory (by omega)
      cases hi : Instruction.decode m.word with
      | some i =>
        have hexec := execute_eq d (m := m.skip) (show m.pc + 2 ≤ 0x1000 by omega) h.depth_le i
        have hskip : m.goTo (m.pc + 2) = m.skip := rfl
        simp only [step, ha, hfit, hin, hw, hi, fit_small (show m.pc + 2 < 65536 by omega), hskip,
          hexec, ok_bind, pure_eq_ok, Machine.step, hb, if_true]
      | none =>
        simp only [step, ha, hfit, hin, hw, hi, fit_of_lt (show m.pc < 1 <<< 16 by omega), ok_bind,
          pure_eq_ok, Machine.step, hb, if_true]
    · have hb : m.inBounds = false := decide_eq_false hin
      simp only [step, ha, hfit, hin, ok_bind, pure_eq_ok, Machine.step, hb, if_false,
        Bool.false_eq_true]

end Guarded
end ChipEight
