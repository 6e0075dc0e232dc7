/-
# Storing and loading registers

A store puts `V0` to `Vx` in memory from `I` on, around its end, and a load takes
them from there. What was stored is loaded again, and what was loaded is stored
where it came from, so each undoes the other once `I` is back in its place
(`transfers_undo`).

Key definitions: `Machine.upTo`.
Key theorems: `Machine.slice_store`, `Machine.upTo_load`.
-/
import ChipEight.Proofs.Machine.Step
import ChipEight.Proofs.Memory

namespace ChipEight
namespace Machine

/-- The values of `V0` to `Vx`, in order. -/
def upTo (m : Machine) (x : Reg) : List UInt8 := m.v.toList.take (x.val + 1)

theorem length_upTo (m : Machine) (x : Reg) : (m.upTo x).length = x.val + 1 := by
  have hx := x.isLt
  rw [upTo, List.length_take, Vector.length_toList]
  omega

theorem getD_upTo (m : Machine) {x r : Reg} (h : r ≤ x) : (m.upTo x).getD r.val 0 = m.get r := by
  have hr : r.val < (m.upTo x).length := by
    rw [length_upTo]
    exact Nat.lt_succ_of_le h
  rw [List.getD_eq_getElem _ _ hr]
  simp only [upTo, get, List.getElem_take, Vector.getElem_toList, Fin.getElem_fin]

/-! ### One transfer -/

section Transfer

variable (d : Dialect) (m : Machine) (x : Reg)

/-- After a transfer `I` lies behind the last byte, or where it was. -/
theorem afterTransfer_i : (m.afterTransfer d x).i.val =
    if d.transferMovesI then (m.i.val + x.val + 1) % 4096 else m.i.val := by
  unfold afterTransfer
  split <;> rfl

/-- A store writes memory, and moves `I` in the dialects that do. -/
theorem execute_storeRegisters_machine : (m.execute d (.storeRegisters x)).machine = { m with
    memory := m.memory.writeAll m.i.val (m.upTo x), i := (m.afterTransfer d x).i } := by
  simp only [execute, done, signals, afterTransfer]
  split <;> rfl

/-- A load writes registers, and moves `I` in the dialects that do. -/
theorem execute_loadRegisters_machine : (m.execute d (.loadRegisters x)).machine =
    { m with v := m.loaded x, i := (m.afterTransfer d x).i } := by
  simp only [execute, done, signals, afterTransfer]
  split <;> rfl

/-- What was stored lies in memory from the old `I` on. -/
theorem slice_store : (m.execute d (.storeRegisters x)).machine.memory.slice m.i.val (x.val + 1) =
    m.upTo x := by
  have hfit : (m.upTo x).length ≤ 4096 := by
    have hx := x.isLt
    rw [length_upTo]
    omega
  rw [execute_storeRegisters_machine, ← length_upTo m x]
  exact Memory.slice_writeAll _ _ hfit

/-- What was loaded lies in memory from the old `I` on. -/
theorem upTo_load : (m.execute d (.loadRegisters x)).machine.upTo x =
    m.memory.slice m.i.val (x.val + 1) := by
  rw [execute_loadRegisters_machine]
  refine List.ext_getElem (by rw [length_upTo, Memory.length_slice]) fun k hk _ => ?_
  rw [length_upTo] at hk
  have hle : k ≤ x.val := Nat.le_of_lt_succ hk
  simp only [upTo, loaded, Fin.le_def, List.getElem_take, Vector.getElem_toList, Vector.getElem_ofFn,
    hle, ↓reduceIte, Memory.getElem_slice]

theorem get_load_of_lt {r : Reg} (h : x < r) :
    (m.execute d (.loadRegisters x)).machine.get r = m.get r := by
  rw [execute_loadRegisters_machine]
  simp only [get, loaded, Fin.getElem_fin, Vector.getElem_ofFn, Fin.eta, Fin.not_le.mpr h, ↓reduceIte]

end Transfer

/-! ### One after the other -/

/-- Store `V0` to `Vx`, change the registers to `v` and put `I` back: then a load
brings back `V0` to `Vx` and leaves the registers above as they were changed. Load
`V0` to `Vx` and put `I` back: then a store leaves memory as it was. In the dialects
that move it, `I` lies behind the last byte after either, around the end of memory,
and in the others it stays. -/
theorem transfers_undo (d : Dialect) (m : Machine) (x : Reg) (v : Vector UInt8 16) :
    let stored := (m.execute d (.storeRegisters x)).machine
    let changed := { stored with v := v, i := m.i }
    let restored := (changed.execute d (.loadRegisters x)).machine
    let loaded := (m.execute d (.loadRegisters x)).machine
    let written := ({ loaded with i := m.i }.execute d (.storeRegisters x)).machine
    let behind := if d.transferMovesI then (m.i.val + x.val + 1) % 4096 else m.i.val
    (∀ r, r ≤ x → restored.get r = m.get r) ∧ (∀ r, x < r → restored.get r = changed.get r) ∧
      written.memory = m.memory ∧ stored.i.val = behind ∧ loaded.i.val = behind := by
  intro stored changed restored loaded written behind
  have hstored : stored = _ := execute_storeRegisters_machine d m x
  have hloaded : loaded = _ := execute_loadRegisters_machine d m x
  refine ⟨fun r hr => ?_, fun r hr => get_load_of_lt d changed x hr, ?_, ?_, ?_⟩
  · have hsame : restored.upTo x = m.upTo x :=
      calc restored.upTo x = stored.memory.slice m.i.val (x.val + 1) := upTo_load d changed x
        _ = m.upTo x := slice_store d m x
    calc restored.get r = (restored.upTo x).getD r.val 0 := (getD_upTo restored hr).symm
      _ = (m.upTo x).getD r.val 0 := by rw [hsame]
      _ = m.get r := getD_upTo m hr
  · have hregisters : loaded.upTo x = m.memory.slice m.i.val (x.val + 1) := upTo_load d m x
    have hmemory : loaded.memory = m.memory := by rw [hloaded]
    have hwritten : written = _ := execute_storeRegisters_machine d { loaded with i := m.i } x
    calc written.memory = loaded.memory.writeAll m.i.val (loaded.upTo x) := by
          rw [hwritten]
          rfl
      _ = m.memory.writeAll m.i.val (m.memory.slice m.i.val (x.val + 1)) := by
          rw [hmemory, hregisters]
      _ = m.memory := Memory.writeAll_slice _ _ _
  · rw [hstored]
    exact afterTransfer_i d m x
  · rw [hloaded]
    exact afterTransfer_i d m x

/-- A machine with the numbers of its registers in them and `I` near the end of
memory. -/
def brimming : Machine :=
  { initial .released (.ofWords []) with
    v := Vector.ofFn fun k => UInt8.ofNat k.val
    i := Address.wrap 0xFFD }

/-- Eight registers go around the end of memory and come back, and the ninth keeps
what it was changed to. -/
theorem brimming_undone :
    let d : Dialect := ⟨false, true⟩
    let stored := (brimming.execute d (.storeRegisters 7)).machine
    let changed := { stored with v := .replicate 16 9, i := brimming.i }
    let restored := (changed.execute d (.loadRegisters 7)).machine
    restored.get 7 = 7 ∧ restored.get 8 = 9 ∧ stored.i.val = 5 := by
  intro d stored changed restored
  obtain ⟨hback, hkept, -, hi, -⟩ := transfers_undo d brimming 7 (.replicate 16 9)
  refine ⟨(hback 7 (Fin.le_refl 7)).trans (by decide +kernel), ?_, ?_⟩
  · exact (hkept 8 (by decide)).trans (by decide +kernel)
  · exact hi.trans (by decide +kernel)

end Machine
end ChipEight
