/-
# What a step leaves alone

A step writes to memory, the screen, `I`, the stack, the timers, the source of
random bytes, the keypad and the registers only where the word it carries out
says so, or where it finds the key that is awaited (`step_writes`). The pieces
are what it does to the keys (`step_keys`) and to the registers
(`step_registers`); all else follows from its footprint.
-/
import ChipEight.Proofs.Emulator.KeyWait
import ChipEight.Proofs.Machine.Footprint

namespace ChipEight
namespace Machine

open Instruction

/-- The keys that are down stay so. All fresh keys are forgotten where a wait
begins, one of them where it ends, and none elsewhere. -/
theorem step_keys (d : Dialect) (m : Machine) :
    let m' := (m.step d).machine
    (∀ k, m'.keypad.isDown k = m.keypad.isDown k) ∧
      (m.Runs ["FX0A"] → ∀ k, m'.keypad.isFresh k = false) ∧
      (m.awaiting.isSome = true ∧ m'.awaiting = none → ∃ k, m.keypad.isFresh k = true ∧
        ∀ j, m'.keypad.isFresh j = (m.keypad.isFresh j && !decide (k = j))) ∧
      (¬ m.Runs ["FX0A"] → ¬ (m.awaiting.isSome = true ∧ m'.awaiting = none) →
        m'.keypad = m.keypad) := by
  intro m'
  cases ha : m.awaiting with
  | some x =>
    have hidle : ¬ m.Runs ["FX0A"] := by
      rintro ⟨hnone, -⟩
      rw [ha] at hnone
      cases hnone
    by_cases hfresh : ∃ k, m.keypad.isFresh k = true
    · obtain ⟨k, keypad, hk, -, hdown, hrest, hstep⟩ := step_of_struck ha hfresh d
      have hm' : m' = _ := congrArg Reaction.machine hstep
      rw [hm']
      refine ⟨hdown, fun h => absurd h hidle, fun _ => ⟨k, hk, hrest⟩, fun _ h => ?_⟩
      exact absurd ⟨rfl, rfl⟩ h
    · have hnone : ∀ k, m.keypad.isFresh k = false := fun k =>
        Bool.eq_false_iff.mpr fun hk => hfresh ⟨k, hk⟩
      have hm' : m' = m := congrArg Reaction.machine (step_of_unstruck ha hnone d)
      rw [hm', ha]
      exact ⟨fun _ => rfl, fun h => absurd h hidle, fun h => absurd h.2 (Option.some_ne_none x),
        fun _ _ => rfl⟩
  | none =>
    by_cases hruns : m.Runs ["FX0A"]
    · obtain ⟨i, hc, hi⟩ := (runs_iff (by decide)).mp hruns
      obtain ⟨x, rfl⟩ : ∃ x, i = .awaitKey x := by
        cases i <;> simp [pattern] at hi ⊢
      have hm' : m' = _ := congrArg Reaction.machine (step_awaitKey hc d)
      rw [hm']
      exact ⟨fun _ => rfl, fun _ => Keypad.isFresh_forget _, fun h => absurd h.1 Bool.false_ne_true,
        fun h => absurd hruns h⟩
    · have hsame : m'.keypad = m.keypad := by
        by_contra hne
        exact hruns (runs_of_keys ha ((step_covers d m).keys (.inl hne)))
      rw [hsame]
      exact ⟨fun _ => rfl, fun h => absurd h hruns, fun h => absurd h.1 Bool.false_ne_true,
        fun _ _ => rfl⟩

/-- A register changes where its word names it, where it is the flag and the word
sets that, where registers are loaded, and where the key it awaits is found. -/
theorem step_registers {d : Dialect} {m : Machine} {r : Reg}
    (h : (m.step d).machine.get r ≠ m.get r) :
    r = fieldX m.word ∧ m.Runs ["6XNN", "7XNN", "8XY0", "8XY1", "8XY2", "8XY3", "8XY4", "8XY5",
        "8XY6", "8XY7", "8XYE", "CXNN", "FX07"] ∨
      r = Reg.flag ∧ m.Runs ["8XY4", "8XY5", "8XY6", "8XY7", "8XYE", "DXYN"] ∨
      r ≤ fieldX m.word ∧ m.Runs ["FX65"] ∨
      m.awaiting = some r ∧ (m.step d).machine.awaiting = none := by
  have hwritten : (m.footprint d).register r = true := (step_covers d m).register r h
  cases ha : m.awaiting with
  | some x =>
    right; right; right
    by_cases hfresh : ∃ k, m.keypad.isFresh k = true
    · obtain ⟨k, keypad, -, -, -, -, hstep⟩ := step_of_struck ha hfresh d
      simp only [footprint, ha] at hwritten
      split at hwritten
      · have hr : r = x := eq_of_beq hwritten
        rw [hr, hstep]
        exact ⟨rfl, rfl⟩
      · cases hwritten
    · have hnone : ∀ k, m.keypad.isFresh k = false := fun k =>
        Bool.eq_false_iff.mpr fun hk => hfresh ⟨k, hk⟩
      rw [step_of_unstruck ha hnone] at h
      exact absurd rfl h
  | none =>
    cases hc : m.current with
    | none =>
      simp only [footprint, ha, hc, Option.map_none, Option.getD_none] at hwritten
      cases hwritten
    | some i =>
      rw [footprint_of_current hc] at hwritten
      rcases register_of_decode (current_eq_some.mp hc).2.2 hwritten with
        ⟨hr, hi⟩ | ⟨hr, hi⟩ | ⟨hr, hi⟩
      · exact .inl ⟨hr, runs_of_current hc hi⟩
      · exact .inr (.inl ⟨hr, runs_of_current hc hi⟩)
      · exact .inr (.inr (.inl ⟨hr, runs_of_current hc hi⟩))

end Machine

namespace Emulator

open Instruction

/-- What a step may change, by the word that it carries out, whose `X` names the
register `x`; `I` is that before the step. Memory changes at most at `I`, `I + 1`
and `I + 2` under `FX33`, and from `I` to `I + x` under `FX55`, around the end.
The screen changes only under `00E0` and `DXYN`, the stack only under `2NNN` and
`00EE`, the delay timer only under `FX15`, the sound timer and the buzzer only
under `FX18`; `I` only under `ANNN`, `FX1E` and `FX29`, and under `FX55` and `FX65`
in the dialects where these move it. Exactly one random byte is drawn under
`CXNN`, and none elsewhere. The keys that are down stay so; the fresh ones are
all forgotten under `FX0A`, one of them where a wait ends, and none elsewhere. Of
the registers, only those that the word names change, or that the wait ends for. -/
theorem step_writes (e : Emulator) :
    let m := e.machine
    let m' := e.step.emulator.machine
    let x := fieldX m.word
    let ended := m.awaiting.isSome = true ∧ m'.awaiting = none
    (∀ a < 4096, m'.memory.read a ≠ m.memory.read a →
        m.Runs ["FX33"] ∧ (∃ k < 3, a = (m.i.val + k) % 4096) ∨
        m.Runs ["FX55"] ∧ ∃ k ≤ x.val, a = (m.i.val + k) % 4096) ∧
      (m'.screen ≠ m.screen → m.Runs ["00E0", "DXYN"]) ∧
      (m'.i ≠ m.i → m.Runs ["ANNN", "FX1E", "FX29"] ∨
        e.settings.dialect.transferMovesI = true ∧ m.Runs ["FX55", "FX65"]) ∧
      (m'.calls ≠ m.calls → m.Runs ["2NNN", "00EE"]) ∧
      (m'.timers.delay ≠ m.timers.delay → m.Runs ["FX15"]) ∧
      (m'.timers.sound ≠ m.timers.sound ∨ m'.timers.buzzing ≠ m.timers.buzzing →
        m.Runs ["FX18"]) ∧
      m'.random = (if m.Runs ["CXNN"] then m.random.next.2 else m.random) ∧
      (∀ k, m'.keypad.isDown k = m.keypad.isDown k) ∧
      (m.Runs ["FX0A"] → ∀ k, m'.keypad.isFresh k = false) ∧
      (ended → ∃ k, m.keypad.isFresh k = true ∧
        ∀ j, m'.keypad.isFresh j = (m.keypad.isFresh j && !decide (k = j))) ∧
      (¬ m.Runs ["FX0A"] → ¬ ended → m'.keypad = m.keypad) ∧
      ∀ r, m'.get r ≠ m.get r →
        r = x ∧ m.Runs ["6XNN", "7XNN", "8XY0", "8XY1", "8XY2", "8XY3", "8XY4", "8XY5",
          "8XY6", "8XY7", "8XYE", "CXNN", "FX07"] ∨
        r = Reg.flag ∧ m.Runs ["8XY4", "8XY5", "8XY6", "8XY7", "8XYE", "DXYN"] ∨
        r ≤ x ∧ m.Runs ["FX65"] ∨
        m.awaiting = some r ∧ m'.awaiting = none := by
  intro m m' x ended
  have hcovers : (m.footprint e.settings.dialect).Covers m m' := m.step_covers e.settings.dialect
  obtain ⟨hdown, hforgotten, hended, hkeypad⟩ := m.step_keys e.settings.dialect
  refine ⟨fun a ha hne => ?_, fun hne => Machine.runs_of_screen (hcovers.screen hne),
    fun hne => Machine.runs_of_address (hcovers.address hne),
    fun hne => Machine.runs_of_calls (hcovers.calls hne),
    fun hne => Machine.runs_of_delay (hcovers.delay hne),
    fun hne => Machine.runs_of_sound (hcovers.sound hne), ?_, hdown, hforgotten, hended, hkeypad,
    fun r hne => Machine.step_registers hne⟩
  · obtain ⟨k, hk, hplace⟩ := hcovers.memory a hne
    rw [Nat.mod_eq_of_lt ha] at hplace
    rcases Machine.runs_of_bytes hk with ⟨hruns, hlt⟩ | ⟨hruns, hle⟩
    · exact .inl ⟨hruns, k, hlt, hplace⟩
    · exact .inr ⟨hruns, k, hle, hplace⟩
  · rw [hcovers.random]
    by_cases hruns : m.Runs ["CXNN"]
    · rw [if_pos hruns, if_pos (Machine.random_of_runs hruns)]
    · rw [if_neg hruns, if_neg fun h => hruns (Machine.runs_of_random h)]

/-- An emulator that is about to store four registers, from two bytes before the
end of memory. -/
def wrapping : Emulator :=
  (((Emulator.new .unset (.ofWords [])).load
    [0x60, 7, 0x61, 7, 0x62, 7, 0x63, 7, 0xAF, 0xFE, 0xF3, 0x55]).2.1.run 5).emulator

/-- The last two bytes change and the first two, and no others. -/
theorem wrapping_writes :
    (∀ a ∈ [0xFFE, 0xFFF, 0, 1],
      wrapping.step.emulator.machine.memory.read a ≠ wrapping.machine.memory.read a) ∧
    (∀ a, 2 ≤ a → a < 0xFFE →
      wrapping.step.emulator.machine.memory.read a = wrapping.machine.memory.read a) ∧
    wrapping.step.emulator.machine.screen = wrapping.machine.screen := by
  obtain ⟨hfour, hi, hx, hdecimal, hdraws⟩ :
      (∀ a ∈ [0xFFE, 0xFFF, 0, 1],
        wrapping.step.emulator.machine.memory.read a ≠ wrapping.machine.memory.read a) ∧
      wrapping.machine.i.val = 0xFFE ∧ (fieldX wrapping.machine.word).val = 3 ∧
      ¬ wrapping.machine.Runs ["FX33"] ∧ ¬ wrapping.machine.Runs ["00E0", "DXYN"] := by
    decide +kernel
  obtain ⟨hmemory, hscreen, -⟩ := step_writes wrapping
  refine ⟨hfour, fun a hlow hhigh => ?_, ?_⟩
  · by_contra hne
    rcases hmemory a (by omega) hne with ⟨hruns, -⟩ | ⟨-, k, hk, hplace⟩
    · exact hdecimal hruns
    · rw [hx] at hk
      rw [hi] at hplace
      omega
  · by_contra hne
    exact hdraws (hscreen hne)

end Emulator
end ChipEight
