/-
# What a step writes

Every instruction moves the program counter. What else it may write is its
footprint: registers, bytes of memory from `I` on, or one of the other parts of
the machine. No instruction writes outside of it, whether it succeeds or fails
(`execute_covers`), and so no step does (`step_covers`). A step that looks for a
key writes only if it finds one. Which patterns of words write what can be told
from the table of footprints (`runs_of_footprint`, `runs_of_bytes`,
`register_of_decode`).

Key definitions: `Footprint`, `Instruction.footprint`, `Footprint.Covers`,
`Machine.footprint`, `Machine.Runs`.
-/
import ChipEight.Proofs.Instruction.Table
import ChipEight.Proofs.Keypad
import ChipEight.Proofs.Machine.Step
import ChipEight.Proofs.Memory

namespace ChipEight

/-- What may be written. -/
structure Footprint where
  register : Reg → Bool := fun _ => false
  /-- How many bytes of memory, from `I` on. -/
  bytes : ℕ := 0
  address : Bool := false
  calls : Bool := false
  delay : Bool := false
  /-- The sound timer and the buzzer. -/
  sound : Bool := false
  screen : Bool := false
  /-- One draw from the source of random bytes. -/
  random : Bool := false
  /-- The fresh keys and the register that awaits one. -/
  keys : Bool := false

/-- What an instruction may write. -/
def Instruction.footprint (d : Dialect) : Instruction → Footprint
  | .jump _ | .jumpPlus _ | .skipIfByte _ _ | .skipUnlessByte _ _ | .skipIfSame _ _
  | .skipUnlessSame _ _ | .skipIfKey _ | .skipUnlessKey _ => {}
  | .clear => { screen := true }
  | .ret | .call _ => { calls := true }
  | .putByte x _ | .addByte x _ | .copy x _ | .or x _ | .and x _ | .xor x _ | .readDelay x =>
    { register := fun r => r == x }
  | .add x _ | .sub x _ | .shiftRight x _ | .subFrom x _ | .shiftLeft x _ =>
    { register := fun r => r == x || r == Reg.flag }
  | .random x _ => { register := fun r => r == x, random := true }
  | .draw _ _ _ => { register := fun r => r == Reg.flag, screen := true }
  | .pointTo _ | .advance _ | .pointToGlyph _ => { address := true }
  | .awaitKey _ => { keys := true }
  | .startDelay _ => { delay := true }
  | .startSound _ => { sound := true }
  | .storeDecimal _ => { bytes := 3 }
  | .storeRegisters x => { bytes := x.val + 1, address := d.transferMovesI }
  | .loadRegisters x => { register := fun r => r ≤ x, address := d.transferMovesI }

/-- Where the second machine differs from the first, the footprint says so, the
program counter apart. -/
structure Footprint.Covers (f : Footprint) (m m' : Machine) : Prop where
  register : ∀ r, m'.get r ≠ m.get r → f.register r = true
  memory : ∀ a, m'.memory.read a ≠ m.memory.read a →
    ∃ k < f.bytes, a % 4096 = (m.i.val + k) % 4096
  address : m'.i ≠ m.i → f.address = true
  calls : m'.calls ≠ m.calls → f.calls = true
  delay : m'.timers.delay ≠ m.timers.delay → f.delay = true
  sound : m'.timers.sound ≠ m.timers.sound ∨ m'.timers.buzzing ≠ m.timers.buzzing →
    f.sound = true
  screen : m'.screen ≠ m.screen → f.screen = true
  random : m'.random = if f.random then m.random.next.2 else m.random
  keys : m'.keypad ≠ m.keypad ∨ m'.awaiting ≠ m.awaiting → f.keys = true

/-! ### One write -/

namespace Footprint.Covers

variable {f : Footprint} {m m' : Machine}

theorem refl (hf : f.random = false) (m : Machine) : f.Covers m m where
  register _ h := absurd rfl h
  memory _ h := absurd rfl h
  address h := absurd rfl h
  calls h := absurd rfl h
  delay h := absurd rfl h
  sound h := h.elim (absurd rfl) (absurd rfl)
  screen h := absurd rfl h
  random := by rw [hf]; rfl
  keys h := h.elim (absurd rfl) (absurd rfl)

theorem goTo (h : f.Covers m m') (a : ℕ) : f.Covers m (m'.goTo a) := { h with }

theorem skipIf (h : f.Covers m m') (condition : Bool) : f.Covers m (m'.skipIf condition) := by
  rw [Machine.skipIf_frame]
  exact h.goTo _

theorem setV (h : f.Covers m m') {x : Reg} (hx : f.register x = true) (b : UInt8) :
    f.Covers m (m'.setV x b) := by
  refine { h with register := fun r hr => ?_ }
  by_cases hval : x.val = r.val
  · rw [← Fin.ext hval]
    exact hx
  · have hget : (m'.setV x b).get r = m'.get r := by
      simp [Machine.get, Machine.setV, Vector.getElem_set_ne _ _ hval]
    rw [hget] at hr
    exact h.register r hr

theorem setFlag (h : f.Covers m m') (hx : f.register Reg.flag = true) (on : Bool) :
    f.Covers m (m'.setFlag on) :=
  h.setV hx _

theorem setI (h : f.Covers m m') (hf : f.address = true) (a : ℕ) : f.Covers m (m'.setI a) :=
  { h with address := fun _ => hf }

theorem afterTransfer (h : f.Covers m m') {d : Dialect} (hf : f.address = d.transferMovesI)
    (x : Reg) : f.Covers m (m'.afterTransfer d x) := by
  unfold Machine.afterTransfer
  split
  · next hd => exact h.setI (hf.trans hd) _
  · exact h

end Footprint.Covers

/-! ### One instruction -/

namespace Machine

open Footprint Instruction

theorem execute_covers (d : Dialect) (m : Machine) (i : Instruction) :
    (i.footprint d).Covers m (m.execute d i).machine := by
  cases i with
  | jump a => exact (Covers.refl rfl m).goTo _
  | jumpPlus a =>
    simp only [execute]
    split
    · exact (Covers.refl rfl m).goTo _
    · exact .refl rfl m
  | skipIfByte x b | skipUnlessByte x b | skipIfSame x y | skipUnlessSame x y | skipIfKey x
  | skipUnlessKey x => exact (Covers.refl rfl m).skipIf _
  | clear => exact { Covers.refl rfl m with screen := fun _ => rfl }
  | ret =>
    cases hcalls : m.calls with
    | nil =>
      simp only [execute, pop, hcalls]
      exact .refl rfl m
    | cons r rest =>
      simp only [execute, pop, hcalls]
      exact { Covers.refl (f := { calls := true }) rfl m with calls := fun _ => rfl }
  | call a =>
    by_cases hroom : m.calls.length < callLimit
    · simp only [execute, push, if_pos hroom]
      exact { Covers.refl (f := { calls := true }) rfl m with calls := fun _ => rfl }
    · simp only [execute, push, if_neg hroom]
      exact .refl rfl m
  | putByte x b | addByte x b | copy x y | or x y | and x y | xor x y | readDelay x =>
    exact (Covers.refl rfl m).setV (beq_self_eq_true x) _
  | add x y | sub x y | shiftRight x y | subFrom x y | shiftLeft x y =>
    have hresult : (x == x || x == Reg.flag) = true := by simp
    have hflag : (Reg.flag == x || Reg.flag == Reg.flag) = true := by simp
    exact ((Covers.refl rfl m).setV hresult _).setFlag hflag _
  | random x b =>
    have hdraw : (Instruction.footprint d (.random x b)).Covers m
        { m with random := m.random.next.2 } :=
      { Covers.refl (f := { register := fun r => r == x }) rfl m with random := rfl }
    exact hdraw.setV (beq_self_eq_true x) _
  | draw x y n =>
    let screen := (m.screen.draw (m.get x).toNat (m.get y).toNat (m.memory.slice m.i.val n.val)).1
    have hdraw : (Instruction.footprint d (.draw x y n)).Covers m { m with screen := screen } :=
      { Covers.refl rfl m with screen := fun _ => rfl }
    exact hdraw.setFlag (beq_self_eq_true Reg.flag) _
  | pointTo a => exact { Covers.refl rfl m with address := fun _ => rfl }
  | advance x | pointToGlyph x => exact (Covers.refl rfl m).setI rfl _
  | awaitKey x => exact { Covers.refl rfl m with keys := fun _ => rfl }
  | startDelay x => exact { Covers.refl rfl m with delay := fun _ => rfl }
  | startSound x =>
    rw [execute_startSound_machine]
    exact { Covers.refl rfl m with
      delay := fun h => absurd (Timers.settle_delay _) h
      sound := fun _ => rfl }
  | storeDecimal x =>
    exact { Covers.refl rfl m with
      memory := fun a h => Memory.place_of_writeAll (decimalDigits (m.get x)) h }
  | storeRegisters x =>
    let bytes := m.v.toList.take (x.val + 1)
    have hlen : bytes.length = x.val + 1 := by
      have hx := x.isLt
      rw [List.length_take, Vector.length_toList]
      omega
    have hwrite : (Instruction.footprint d (.storeRegisters x)).Covers m
        { m with memory := m.memory.writeAll m.i.val bytes } := by
      refine { Covers.refl rfl m with memory := fun a h => ?_ }
      have hplace := Memory.place_of_writeAll bytes h
      rw [hlen] at hplace
      exact hplace
    exact hwrite.afterTransfer rfl x
  | loadRegisters x =>
    have hread : (Instruction.footprint d (.loadRegisters x)).Covers m
        { m with v := m.loaded x } := by
      refine { Covers.refl rfl m with register := fun r h => decide_eq_true ?_ }
      by_contra hlt
      apply h
      simp [get, loaded, hlt]
    exact hread.afterTransfer rfl x

/-! ### One step -/

/-- What the next step may write. -/
def footprint (d : Dialect) (m : Machine) : Footprint :=
  match m.awaiting with
  | some x =>
    if m.keypad.takeFresh.isSome then { register := fun r => r == x, keys := true } else {}
  | none => (m.current.map (Instruction.footprint d)).getD {}

theorem footprint_of_current {d : Dialect} {m : Machine} {i : Instruction}
    (hc : m.current = some i) : m.footprint d = i.footprint d := by
  have ha : m.awaiting = none := (current_eq_some.mp hc).1
  simp only [footprint, ha, hc, Option.map_some, Option.getD_some]

/-- No step writes outside of its footprint. -/
theorem step_covers (d : Dialect) (m : Machine) : (m.footprint d).Covers m (m.step d).machine := by
  cases ha : m.awaiting with
  | some x =>
    rw [step_of_awaiting ha]
    simp only [footprint, ha, resume]
    rcases m.keypad.takeFresh with _ | ⟨k, keypad⟩
    · exact .refl rfl m
    · have hfound : Covers { register := fun r => r == x, keys := true } m
          { m with keypad := keypad, awaiting := none } :=
        { Covers.refl rfl m with keys := fun _ => rfl }
      exact hfound.setV (beq_self_eq_true x) _
  | none =>
    cases hc : m.current with
    | some i =>
      have hi := execute_covers d m.skip i
      rw [step_of_current hc, footprint_of_current hc]
      exact { hi with }
    | none =>
      simp only [footprint, ha, hc]
      rcases step_of_stuck ha hc d with ⟨-, hs⟩ | ⟨-, -, hs⟩ <;> rw [hs] <;> exact .refl rfl m

/-! ### Which words write what -/

/-- The next step carries out an instruction, and the word at the program counter
fits one of the patterns. -/
def Runs (m : Machine) (ps : List String) : Prop :=
  m.awaiting = none ∧ m.inBounds = true ∧ ∃ p ∈ ps, Fits m.word p

instance (m : Machine) (ps : List String) : Decidable (m.Runs ps) :=
  inferInstanceAs (Decidable (_ ∧ _ ∧ ∃ p ∈ ps, _))

theorem runs_of_current {m : Machine} {i : Instruction} (hc : m.current = some i)
    {ps : List String} (h : i.pattern ∈ ps) : m.Runs ps := by
  obtain ⟨ha, hb, hi⟩ := current_eq_some.mp hc
  exact ⟨ha, hb, i.pattern, h, fits_of_decode hi⟩

theorem runs_iff {m : Machine} {ps : List String} (hps : ∀ p ∈ ps, p ∈ patterns) :
    m.Runs ps ↔ ∃ i, m.current = some i ∧ i.pattern ∈ ps := by
  constructor
  · rintro ⟨ha, hb, p, hp, hfits⟩
    obtain ⟨i, hi⟩ := exists_of_fits p (hps p hp) hfits
    have hi : decode m.word = some i := decode_eq_some_iff.mpr hi
    have hpattern : i.pattern = p := (fits_iff hi (hps p hp)).mp hfits
    exact ⟨i, current_eq_some.mpr ⟨ha, hb, hi⟩, hpattern ▸ hp⟩
  · rintro ⟨i, hc, hi⟩
    exact runs_of_current hc hi

theorem runs_append {m : Machine} {ps qs : List String} :
    m.Runs (ps ++ qs) ↔ m.Runs ps ∨ m.Runs qs := by
  simp only [Runs, List.mem_append, or_and_right, exists_or, and_or_left]

/-- A part that only some instructions write is written only if one of their
patterns runs. -/
theorem runs_of_footprint {d : Dialect} {m : Machine} {ps : List String} (part : Footprint → Bool)
    (hnone : part {} = false)
    (hfound : ∀ x : Reg, part { register := fun r => r == x, keys := true } = false)
    (hi : ∀ i : Instruction, part (i.footprint d) = true → i.pattern ∈ ps)
    (h : part (m.footprint d) = true) : m.Runs ps := by
  cases ha : m.awaiting with
  | some x =>
    have hquiet : part (m.footprint d) = false := by
      simp only [footprint, ha]
      split
      · exact hfound x
      · exact hnone
    rw [hquiet] at h
    cases h
  | none =>
    cases hc : m.current with
    | some i =>
      rw [footprint_of_current hc] at h
      exact runs_of_current hc (hi i h)
    | none =>
      simp only [footprint, ha, hc, Option.map_none, Option.getD_none, hnone] at h
      cases h

section Parts

variable {d : Dialect} {m : Machine}

theorem runs_of_screen (h : (m.footprint d).screen = true) : m.Runs ["00E0", "DXYN"] := by
  refine runs_of_footprint Footprint.screen rfl (fun _ => rfl) (fun i => ?_) h
  cases i <;> simp [Instruction.footprint, pattern]

theorem runs_of_calls (h : (m.footprint d).calls = true) : m.Runs ["2NNN", "00EE"] := by
  refine runs_of_footprint Footprint.calls rfl (fun _ => rfl) (fun i => ?_) h
  cases i <;> simp [Instruction.footprint, pattern]

theorem runs_of_delay (h : (m.footprint d).delay = true) : m.Runs ["FX15"] := by
  refine runs_of_footprint Footprint.delay rfl (fun _ => rfl) (fun i => ?_) h
  cases i <;> simp [Instruction.footprint, pattern]

theorem runs_of_sound (h : (m.footprint d).sound = true) : m.Runs ["FX18"] := by
  refine runs_of_footprint Footprint.sound rfl (fun _ => rfl) (fun i => ?_) h
  cases i <;> simp [Instruction.footprint, pattern]

theorem runs_of_random (h : (m.footprint d).random = true) : m.Runs ["CXNN"] := by
  refine runs_of_footprint Footprint.random rfl (fun _ => rfl) (fun i => ?_) h
  cases i <;> simp [Instruction.footprint, pattern]

theorem random_of_runs (h : m.Runs ["CXNN"]) : (m.footprint d).random = true := by
  obtain ⟨i, hc, hi⟩ := (runs_iff (by decide)).mp h
  rw [footprint_of_current hc]
  cases i <;> simp [Instruction.footprint, pattern] at hi ⊢

theorem runs_of_address (h : (m.footprint d).address = true) :
    m.Runs ["ANNN", "FX1E", "FX29"] ∨ d.transferMovesI = true ∧ m.Runs ["FX55", "FX65"] := by
  by_cases hd : d.transferMovesI = true
  · have hruns : m.Runs (["ANNN", "FX1E", "FX29"] ++ ["FX55", "FX65"]) := by
      refine runs_of_footprint Footprint.address rfl (fun _ => rfl) (fun i => ?_) h
      cases i <;> simp [Instruction.footprint, pattern]
    rcases runs_append.mp hruns with hpoint | htransfer
    · exact .inl hpoint
    · exact .inr ⟨hd, htransfer⟩
  · left
    refine runs_of_footprint Footprint.address rfl (fun _ => rfl) (fun i => ?_) h
    cases i <;> simp [Instruction.footprint, pattern, hd]

/-- The bytes that may be written are the three decimal digits, or those of the
registers that are stored. -/
theorem runs_of_bytes {k : ℕ} (h : k < (m.footprint d).bytes) :
    m.Runs ["FX33"] ∧ k < 3 ∨ m.Runs ["FX55"] ∧ k ≤ (fieldX m.word).val := by
  cases ha : m.awaiting with
  | some x =>
    simp only [footprint, ha] at h
    split at h <;> cases h
  | none =>
    cases hc : m.current with
    | none =>
      simp only [footprint, ha, hc, Option.map_none, Option.getD_none] at h
      cases h
    | some i =>
      rw [footprint_of_current hc] at h
      have hi : decode m.word = some i := (current_eq_some.mp hc).2.2
      cases i with
      | storeDecimal x => exact .inl ⟨runs_of_current hc (by simp [pattern]), h⟩
      | storeRegisters x =>
        have hx : fieldX m.word = x := by
          rw [← encode_of_decode hi]
          exact fieldX_wordXB (by decide)
        exact .inr ⟨runs_of_current hc (by simp [pattern]), hx ▸ Nat.le_of_lt_succ h⟩
      | _ => cases h

/-- The registers that an instruction may write, as its word tells them. -/
theorem register_of_decode {i : Instruction} {w : UInt16} (hi : decode w = some i) {r : Reg}
    (h : (i.footprint d).register r = true) :
    r = fieldX w ∧ i.pattern ∈ ["6XNN", "7XNN", "8XY0", "8XY1", "8XY2", "8XY3", "8XY4", "8XY5",
        "8XY6", "8XY7", "8XYE", "CXNN", "FX07"] ∨
      r = Reg.flag ∧ i.pattern ∈ ["8XY4", "8XY5", "8XY6", "8XY7", "8XYE", "DXYN"] ∨
      r ≤ fieldX w ∧ i.pattern ∈ ["FX65"] := by
  rw [← encode_of_decode hi]
  cases i <;>
    simp (disch := decide) [Instruction.footprint, encode, fieldX_wordXB, fieldX_wordXYN,
      pattern] at h ⊢ <;> exact h

/-- Where no key is awaited, only the instruction that awaits one touches the
keys. -/
theorem runs_of_keys (ha : m.awaiting = none) (h : (m.footprint d).keys = true) :
    m.Runs ["FX0A"] := by
  cases hc : m.current with
  | none =>
    simp only [footprint, ha, hc, Option.map_none, Option.getD_none] at h
    cases h
  | some i =>
    rw [footprint_of_current hc] at h
    cases i with
    | awaitKey x => exact runs_of_current hc (by simp [pattern])
    | _ => cases h

end Parts

end Machine
end ChipEight
