/-
# Pixels and the screens they make

A screen is the sum of its pixels: two that show the same in every column and
row are the same (`ext_pixel`).
-/
import ChipEight.Screen

namespace ChipEight
namespace Screen

/-- Every place is in some column and row. -/
theorem cell_surjective (c : Cell) : cell c.val (c.val / 64) = c := by
  apply Fin.ext
  have := c.isLt
  simp only [cell]
  omega

theorem ext_pixel {s t : Screen} (h : ∀ x y, s.pixel x y = t.pixel x y) : s = t := by
  cases s with | mk pixels =>
  cases t with | mk others =>
  congr 1
  apply Vector.ext
  intro i hi
  have hcell := h i (i / 64)
  rwa [pixel, pixel, cell_surjective ⟨i, hi⟩] at hcell

@[simp] theorem pixel_dark (x y : Nat) : dark.pixel x y = false := lit_dark _

end Screen
end ChipEight
