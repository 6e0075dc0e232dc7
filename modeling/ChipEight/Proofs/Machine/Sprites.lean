/-
# Drawing a sprite

The instruction that draws takes at most fifteen rows from memory at `I`, around
its end, and a corner from two registers, of which either may be the flag. It
flips the pixels under the set bits, around the edges, and the flag tells whether
a pixel that was lit is dark afterwards (`sprite_drawn`).
-/
import ChipEight.Proofs.Machine.Step
import ChipEight.Proofs.Memory
import ChipEight.Proofs.Screen.Drawing

namespace ChipEight
namespace Machine

variable {m : Machine} {x y : Reg} {n : Fin 16}

theorem step_draw (h : m.current = some (.draw x y n)) (d : Dialect) :
    let drawn := m.screen.draw (m.get x).toNat (m.get y).toNat (m.memory.slice m.i.val n.val)
    m.step d = ⟨.ok .drew, { m with pc := m.pc + 2, screen := drawn.1 }.setFlag drawn.2,
      [.executing m.pc (.draw x y n)]⟩ :=
  step_of_current h d

/-- Let `X` and `Y` be in `Vx` and `Vy`. Drawing takes `n` rows from memory at `I`,
around its end. It flips the pixel in column `X + c` and row `Y + r`, around the
edges, if column `c` of row `r` is set, and no other pixel. The flag is 1 if a pixel
that was lit is dark afterwards, and else 0. No other register changes, and nothing
else but the program counter. -/
theorem sprite_drawn (h : m.current = some (.draw x y n)) (d : Dialect) :
    let X := (m.get x).toNat
    let Y := (m.get y).toNat
    let m' := (m.step d).machine
    let dark := ∃ (px : Fin 64) (py : Fin 32),
      m.screen.pixel px py = true ∧ m'.screen.pixel px py = false
    (m.step d).outcome = .ok .drew ∧
      (∀ (px : Fin 64) (py : Fin 32),
        (∀ r c : ℕ, r < n → c < 8 → px = (X + c) % 64 → py = (Y + r) % 32 →
          m'.screen.pixel px py = (m.screen.pixel px py ^^
            (m.memory.read ((m.i.val + r) % 4096)).toNat.testBit (7 - c))) ∧
        ((∀ r c : ℕ, r < n → c < 8 → ¬ (px = (X + c) % 64 ∧ py = (Y + r) % 32)) →
          m'.screen.pixel px py = m.screen.pixel px py)) ∧
      (dark → m'.get Reg.flag = 1) ∧ (¬ dark → m'.get Reg.flag = 0) ∧
      (∀ r, r ≠ Reg.flag → m'.get r = m.get r) ∧
      m' = { m with pc := m.pc + 2, v := m'.v, screen := m'.screen } := by
  intro X Y m' dark
  let rows := m.memory.slice m.i.val n.val
  have hlength : rows.length = n := Memory.length_slice _ _ _
  have hshort : rows.length ≤ 32 := by
    have hn := n.isLt
    omega
  have hstep := step_draw h d
  have hm' : m' = { m with pc := m.pc + 2, screen := (m.screen.draw X Y rows).1 }.setFlag
      (m.screen.draw X Y rows).2 := congrArg Reaction.machine hstep
  have hscreen : m'.screen = (m.screen.draw X Y rows).1 := by
    rw [hm']
    rfl
  have hdark : (m.screen.draw X Y rows).2 = true ↔ dark := by
    rw [Screen.draw_erases_iff hshort, ← hscreen]
  have hflag : m'.get Reg.flag = if (m.screen.draw X Y rows).2 then 1 else 0 := by
    rw [hm', setFlag, get_setV, if_pos rfl]
  refine ⟨congrArg Reaction.outcome hstep, fun px py => ⟨fun r c hr hc hx hy => ?_, fun hoff => ?_⟩,
    fun h1 => ?_, fun h0 => ?_, fun r hr => ?_, ?_⟩
  · have hr' : r < rows.length := hlength ▸ hr
    rw [hscreen, Screen.pixel_draw_under hshort m.screen hr' hc hx hy, Memory.getElem_slice,
      Memory.read_mod]
  · rw [hscreen]
    exact Screen.pixel_draw_beside hshort m.screen fun r hr c hc => hoff r c (hlength ▸ hr) hc
  · rw [hflag, if_pos (hdark.mpr h1)]
  · rw [hflag, if_neg fun h1 => h0 (hdark.mp h1)]
  · rw [hm', setFlag, get_setV, if_neg (Ne.symm hr)]
    rfl
  · rw [hm']
    rfl

/-- A machine about to draw two rows from the end of memory on, with the corner in
the last row of the screen and a column that the flag register holds. Two pixels
are lit. -/
def cornered : Machine :=
  let m := initial .released (.ofWords [])
  ({ m with
      pc := 0x200
      i := Address.wrap 0xFFF
      memory := m.memory.putProgram [0xDF, 0x02]
      screen := (m.screen.draw 0 0 [0xC0]).1 }.setV Reg.flag 62).setV Reg.first 31

/-- The second row is the first of the picture of a zero. It comes to lie in the top
row of the screen, half of it on the lit pixels. -/
theorem cornered_drawn :
    let m' := (cornered.step .modern).machine
    cornered.current = some (.draw Reg.flag Reg.first 2) ∧
      m'.screen.pixel (63 : Fin 64) (0 : Fin 32) = true ∧
      m'.screen.pixel (0 : Fin 64) (0 : Fin 32) = false ∧
      m'.screen.pixel (5 : Fin 64) (9 : Fin 32) = false ∧
      m'.get Reg.flag = 1 ∧ m'.get Reg.first = 31 ∧ m'.i.val = 0xFFF := by
  intro m'
  have hcurrent : cornered.current = some (.draw Reg.flag Reg.first 2) := by decide +kernel
  obtain ⟨-, hpixels, hset, -, hothers, hm'⟩ := sprite_drawn hcurrent .modern
  have hlit : m'.screen.pixel (63 : Fin 64) (0 : Fin 32) = true :=
    ((hpixels 63 0).1 1 1 (by decide) (by decide) (by decide +kernel) (by decide +kernel)).trans
      (by decide +kernel)
  have hdark : m'.screen.pixel (0 : Fin 64) (0 : Fin 32) = false :=
    ((hpixels 0 0).1 1 2 (by decide) (by decide) (by decide +kernel) (by decide +kernel)).trans
      (by decide +kernel)
  have hoff : m'.screen.pixel (5 : Fin 64) (9 : Fin 32) = false := by
    refine ((hpixels 5 9).2 fun r c hr _ => ?_).trans (by decide +kernel)
    have hcorner : (cornered.get Reg.first).toNat = 31 := by decide +kernel
    have hr : r < 2 := hr
    rintro ⟨-, hy⟩
    rw [hcorner, show (9 : Fin 32).val = 9 from rfl] at hy
    omega
  have hwas : cornered.screen.pixel (0 : Fin 64) (0 : Fin 32) = true := by decide +kernel
  have hfirst : m'.get Reg.first = 31 := (hothers Reg.first (by decide)).trans (by decide +kernel)
  have hm' : m' = _ := hm'
  have hi : m'.i.val = 0xFFF := by
    rw [hm']
    decide +kernel
  exact ⟨hcurrent, hlit, hdark, hoff, hset ⟨0, 0, hwas, hdark⟩, hfirst, hi⟩

end Machine
end ChipEight
