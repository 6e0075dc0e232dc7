/-
# What drawing does

A sprite covers a pixel as often as it has set bits there, which is more than
once if the sprite is taller than the screen (`hits`). Drawing flips a pixel if it
is covered an odd number of times, and a lit pixel goes dark on the way exactly if
some pixel is lit and covered, or covered twice (`draw_exact`). Both depend on how
often each pixel is covered, not on the order (`flipAll_perm`), so drawings can be
exchanged, undone and joined (`draw_algebra`). A sprite that is no taller than the
screen covers no pixel twice (`hits_le_one`), so what was lit before and what is lit
in the end tell whether a pixel went dark (`draw_erases_iff`).

Key definitions: `Screen.hits`.
Key theorems: `Screen.lit_flipAll`, `Screen.went_dark_iff`,
`Screen.count_spriteCells`, `Screen.hits_le_one`.
-/
import Mathlib.Algebra.BigOperators.Fin
import Mathlib.Algebra.Ring.Parity
import Mathlib.Data.Fintype.BigOperators
import ChipEight.Proofs.Screen

namespace ChipEight
namespace Screen

/-! ### Flipping a list of places -/

theorem ext_lit {s t : Screen} (h : ∀ c, s.lit c = t.lit c) : s = t :=
  ext_pixel fun x y => h (cell x y)

/-- A place is flipped once for each time it is listed. -/
theorem lit_flipAll (s : Screen) (cs : List Cell) (d : Cell) :
    (s.flipAll cs).1.lit d = (s.lit d ^^ decide (Odd (cs.count d))) := by
  induction cs generalizing s with
  | nil => simp [flipAll]
  | cons c cs ih =>
    simp only [flipAll, ih, lit_flip]
    by_cases h : c = d
    · subst h
      by_cases hodd : Odd (cs.count c) <;> cases s.lit c <;> simp [Nat.odd_add_one, hodd]
    · rw [List.count_cons_of_ne h]
      simp [h]

/-- Once a dark place has been flipped it is lit, and listed once less. -/
theorem weight_flip {s : Screen} {c : Cell} (hc : s.lit c = false) (cs : List Cell) (d : Cell) :
    ((s.flip c).lit d).toNat + cs.count d = (s.lit d).toNat + (c :: cs).count d := by
  rw [lit_flip]
  by_cases h : c = d
  · subst h
    rw [hc, List.count_cons_self]
    simp [Nat.add_comm]
  · rw [List.count_cons_of_ne h]
    simp [h]

/-- A lit place goes dark exactly if one that is lit is listed, or one that is
not is listed twice. -/
theorem went_dark_iff (s : Screen) (cs : List Cell) :
    (s.flipAll cs).2 = true ↔ ∃ d, 2 ≤ (s.lit d).toNat + cs.count d := by
  induction cs generalizing s with
  | nil =>
    simp only [flipAll, Bool.false_eq_true, List.count_nil, false_iff, not_exists]
    intro d
    have := (s.lit d).toNat_le
    omega
  | cons c cs ih =>
    cases hc : s.lit c with
    | true =>
      refine iff_of_true (by simp [flipAll, hc]) ⟨c, ?_⟩
      rw [hc, List.count_cons_self, Bool.toNat_true]
      omega
    | false =>
      simp only [flipAll, hc, Bool.false_or, ih, weight_flip hc]

/-- The order in which places are flipped makes no difference. -/
theorem flipAll_perm {cs ds : List Cell} (h : cs.Perm ds) (s : Screen) :
    s.flipAll cs = s.flipAll ds := by
  apply Prod.ext
  · apply ext_lit
    intro d
    rw [lit_flipAll, lit_flipAll, h.count_eq]
  · rw [Bool.eq_iff_iff, went_dark_iff, went_dark_iff]
    simp only [h.count_eq]

/-- Flipped twice, every place is as before, and one has gone dark if any was
flipped. -/
theorem flipAll_twice (s : Screen) (cs : List Cell) :
    (s.flipAll (cs ++ cs)).1 = s ∧ ((s.flipAll (cs ++ cs)).2 = true ↔ cs ≠ []) := by
  constructor
  · apply ext_lit
    intro d
    have heven : ¬ Odd ((cs ++ cs).count d) := by
      rw [List.count_append, Nat.not_odd_iff_even]
      exact Even.add_self _
    rw [lit_flipAll, decide_eq_false heven, Bool.xor_false]
  · rw [went_dark_iff]
    constructor
    · rintro ⟨d, hd⟩ rfl
      have := (s.lit d).toNat_le
      rw [List.append_nil, List.count_nil] at hd
      omega
    · intro hne
      obtain ⟨c, hc⟩ := List.exists_mem_of_ne_nil cs hne
      have hpos : 0 < cs.count c := List.count_pos_iff.mpr hc
      refine ⟨c, ?_⟩
      rw [List.count_append]
      omega

/-! ### The places under a sprite -/

theorem cell_eq_cell {x y : ℕ} {px : Fin 64} {py : Fin 32} :
    cell x y = cell px py ↔ x % 64 = px ∧ y % 32 = py := by
  have hx := px.isLt
  have hy := py.isLt
  rw [cell, cell, Fin.mk.injEq]
  omega

theorem exists_cell (c : Cell) : ∃ (px : Fin 64) (py : Fin 32), cell px py = c := by
  let px : Fin 64 := ⟨c.val % 64, Nat.mod_lt _ (by decide)⟩
  let py : Fin 32 := ⟨c.val / 64, Nat.div_lt_of_lt_mul c.isLt⟩
  refine ⟨px, py, ?_⟩
  calc cell px py = cell c.val (c.val / 64) :=
        (cell_eq_cell.mpr ⟨rfl, Nat.mod_eq_of_lt py.isLt⟩).symm
    _ = c := cell_surjective c

/-- How many set bits of a sprite with its corner at `(x, y)` come to lie on the
pixel in column `px` and row `py`. Columns are counted from the highest bit. -/
def hits (x y : ℕ) (rows : List UInt8) (px : Fin 64) (py : Fin 32) : ℕ :=
  (Finset.univ.filter fun p : Fin rows.length × Fin 8 =>
    rows[p.1].toNat.testBit (7 - p.2) = true ∧ (x + p.2) % 64 = px ∧ (y + p.1) % 32 = py).card

/-- How many set bits of one row at column `x` come to lie in column `px`. -/
def rowHits (x : ℕ) (row : UInt8) (px : Fin 64) : ℕ :=
  (Finset.univ.filter fun k : Fin 8 =>
    row.toNat.testBit (7 - k) = true ∧ (x + k) % 64 = px).card

theorem hits_cons (x y : ℕ) (row : UInt8) (rows : List UInt8) (px : Fin 64) (py : Fin 32) :
    hits x y (row :: rows) px py =
      (if y % 32 = py then rowHits x row px else 0) + hits x (y + 1) rows px py := by
  simp only [hits, rowHits, Finset.card_filter, Fintype.sum_prod_type, List.length_cons]
  rw [Fin.sum_univ_succ]
  refine congrArg₂ (· + ·) ?_ ?_
  · by_cases hy : y % 32 = py
    · rw [if_pos hy]
      refine Finset.sum_congr rfl fun k _ => ?_
      simp only [Fin.val_zero, Nat.add_zero, hy, and_true]
      rfl
    · rw [if_neg hy]
      exact Finset.sum_eq_zero fun k _ => if_neg fun h => hy h.2.2
  · refine Finset.sum_congr rfl fun r _ => ?_
    have hbelow : y + r.succ.val = y + 1 + r.val := Nat.add_right_comm y r.val 1
    simp only [hbelow]
    rfl

theorem countP_range (p : ℕ → Bool) (n : ℕ) :
    (List.range n).countP p = ∑ k : Fin n, if p k = true then 1 else 0 := by
  induction n with
  | zero => rfl
  | succ n ih =>
    rw [List.range_succ, List.countP_append, ih, Fin.sum_univ_castSucc]
    simp

theorem count_rowCells (x y : ℕ) (row : UInt8) (px : Fin 64) (py : Fin 32) :
    (rowCells x y row).count (cell px py) = if y % 32 = py then rowHits x row px else 0 := by
  simp only [rowCells, List.count, List.countP_map, List.countP_filter, countP_range, rowHits,
    Finset.card_filter]
  by_cases hy : y % 32 = py
  · simp [cell_eq_cell, rowBit, hy, and_comm]
  · simp [cell_eq_cell, hy]

theorem count_spriteCells (x : ℕ) (px : Fin 64) (py : Fin 32) : ∀ (y : ℕ) (rows : List UInt8),
    (spriteCells x y rows).count (cell px py) = hits x y rows px py
  | y, [] => by simp [hits, spriteCells]
  | y, row :: rows => by
    rw [spriteCells, List.count_append, count_rowCells, count_spriteCells x px py (y + 1) rows,
      hits_cons]

/-- The rows of a sprite that is put below another one go on where that ends. -/
theorem spriteCells_append (x : ℕ) (below : List UInt8) : ∀ (y : ℕ) (rows : List UInt8),
    spriteCells x y (rows ++ below) =
      spriteCells x y rows ++ spriteCells x (y + rows.length) below
  | y, [] => rfl
  | y, row :: rows => by
    have hlen : y + (row :: rows).length = y + 1 + rows.length := by
      rw [List.length_cons]
      omega
    rw [List.cons_append, spriteCells, spriteCells, spriteCells_append x below (y + 1) rows, hlen,
      List.append_assoc]

theorem rowCells_ne_nil (x y : ℕ) (row : UInt8) :
    rowCells x y row ≠ [] ↔ ∃ k < 8, row.toNat.testBit k = true := by
  simp only [rowCells, ne_eq, List.map_eq_nil_iff, List.filter_eq_nil_iff, List.mem_range, rowBit,
    not_forall, exists_prop, not_not]
  -- columns are counted from the left, bits from the right
  constructor
  · rintro ⟨k, hk, hbit⟩
    exact ⟨7 - k, by omega, hbit⟩
  · rintro ⟨k, hk, hbit⟩
    refine ⟨7 - k, by omega, ?_⟩
    rw [Nat.sub_sub_self (Nat.le_of_lt_succ hk)]
    exact hbit

theorem spriteCells_ne_nil (x : ℕ) : ∀ (y : ℕ) (rows : List UInt8), spriteCells x y rows ≠ [] ↔
    ∃ row ∈ rows, ∃ k < 8, row.toNat.testBit k = true
  | y, [] => by simp [spriteCells]
  | y, row :: rows => by
    rw [spriteCells, ne_eq, List.append_eq_nil_iff, Classical.not_and_iff_not_or_not,
      List.exists_mem_cons_iff, ← rowCells_ne_nil x y row, ← spriteCells_ne_nil x (y + 1) rows]

theorem exists_of_hits_pos {x y : ℕ} {rows : List UInt8} {px : Fin 64} {py : Fin 32}
    (h : 0 < hits x y rows px py) :
    ∃ r < rows.length, ∃ c < 8, (x + c) % 64 = px ∧ (y + r) % 32 = py := by
  obtain ⟨⟨r, c⟩, hmem⟩ := Finset.card_pos.mp h
  exact ⟨r, r.isLt, c, c.isLt, (Finset.mem_filter.mp hmem).2.2⟩

/-! ### Sprites no taller than the screen -/

/-- No two of the places under such a sprite fall together. -/
theorem place_unique {x y r r' c c' : ℕ} (hr : r < 32) (hr' : r' < 32) (hc : c < 8) (hc' : c' < 8)
    (hx : (x + c) % 64 = (x + c') % 64) (hy : (y + r) % 32 = (y + r') % 32) : r = r' ∧ c = c' := by
  omega

section Short

variable {rows : List UInt8} (hshort : rows.length ≤ 32)
include hshort

theorem hits_le_one (x y : ℕ) (px : Fin 64) (py : Fin 32) : hits x y rows px py ≤ 1 := by
  refine Finset.card_le_one.mpr ?_
  rintro ⟨r, c⟩ hrc ⟨r', c'⟩ hrc'
  obtain ⟨-, hx, hy⟩ := (Finset.mem_filter.mp hrc).2
  obtain ⟨-, hx', hy'⟩ := (Finset.mem_filter.mp hrc').2
  obtain ⟨hrow, hcolumn⟩ := place_unique (Nat.lt_of_lt_of_le r.isLt hshort)
    (Nat.lt_of_lt_of_le r'.isLt hshort) c.isLt c'.isLt (hx.trans hx'.symm) (hy.trans hy'.symm)
  rw [Fin.ext hrow, Fin.ext hcolumn]

/-- The one bit of the sprite that comes to lie on a pixel decides whether it is
covered. -/
theorem hits_pos_iff_bit {x y r c : ℕ} {px : Fin 64} {py : Fin 32} (hr : r < rows.length)
    (hc : c < 8) (hx : px = (x + c) % 64) (hy : py = (y + r) % 32) :
    0 < hits x y rows px py ↔ rows[r].toNat.testBit (7 - c) = true := by
  rw [hits, Finset.card_pos]
  constructor
  · rintro ⟨⟨r', c'⟩, hmem⟩
    obtain ⟨hbit, hx', hy'⟩ := (Finset.mem_filter.mp hmem).2
    obtain ⟨rfl, rfl⟩ := place_unique (Nat.lt_of_lt_of_le hr hshort)
      (Nat.lt_of_lt_of_le r'.isLt hshort) hc c'.isLt (hx.symm.trans hx'.symm)
      (hy.symm.trans hy'.symm)
    exact hbit
  · intro hbit
    exact ⟨(⟨r, hr⟩, ⟨c, hc⟩), Finset.mem_filter.mpr ⟨Finset.mem_univ _, hbit, hx.symm, hy.symm⟩⟩

theorem pixel_draw (s : Screen) (x y : ℕ) (px : Fin 64) (py : Fin 32) :
    (s.draw x y rows).1.pixel px py = (s.pixel px py ^^ decide (0 < hits x y rows px py)) := by
  have hle := hits_le_one hshort x y px py
  have hodd : Odd (hits x y rows px py) ↔ 0 < hits x y rows px py := by
    rw [Nat.odd_iff]
    omega
  rw [draw, pixel, lit_flipAll, count_spriteCells, decide_eq_decide.mpr hodd, pixel]

/-- A pixel under the sprite is flipped if the bit over it is set. -/
theorem pixel_draw_under (s : Screen) {x y r c : ℕ} {px : Fin 64} {py : Fin 32}
    (hr : r < rows.length) (hc : c < 8) (hx : px = (x + c) % 64) (hy : py = (y + r) % 32) :
    (s.draw x y rows).1.pixel px py = (s.pixel px py ^^ rows[r].toNat.testBit (7 - c)) := by
  have hbit : decide (0 < hits x y rows px py) = rows[r].toNat.testBit (7 - c) := by
    rw [Bool.eq_iff_iff, decide_eq_true_iff]
    exact hits_pos_iff_bit hshort hr hc hx hy
  rw [pixel_draw hshort, hbit]

theorem pixel_draw_beside (s : Screen) {x y : ℕ} {px : Fin 64} {py : Fin 32}
    (h : ∀ r < rows.length, ∀ c < 8, ¬ (px = (x + c) % 64 ∧ py = (y + r) % 32)) :
    (s.draw x y rows).1.pixel px py = s.pixel px py := by
  have hnone : ¬ 0 < hits x y rows px py := by
    intro hpos
    obtain ⟨r, hr, c, hc, hx, hy⟩ := exists_of_hits_pos hpos
    exact h r hr c hc ⟨hx.symm, hy.symm⟩
  rw [pixel_draw hshort, decide_eq_false hnone, Bool.xor_false]

/-- A lit pixel went dark on the way exactly if one is dark in the end. -/
theorem draw_erases_iff (s : Screen) (x y : ℕ) : (s.draw x y rows).2 = true ↔
    ∃ (px : Fin 64) (py : Fin 32),
      s.pixel px py = true ∧ (s.draw x y rows).1.pixel px py = false := by
  have hdark : ∀ (px : Fin 64) (py : Fin 32),
      2 ≤ (s.lit (cell px py)).toNat + (spriteCells x y rows).count (cell px py) ↔
        s.pixel px py = true ∧ (s.draw x y rows).1.pixel px py = false := by
    intro px py
    have hle := hits_le_one hshort x y px py
    rw [pixel_draw hshort, count_spriteCells, pixel]
    cases s.lit (cell px py) <;> simp <;> omega
  rw [draw, went_dark_iff]
  constructor
  · rintro ⟨d, hd⟩
    obtain ⟨px, py, rfl⟩ := exists_cell d
    exact ⟨px, py, (hdark px py).mp hd⟩
  · rintro ⟨px, py, h⟩
    exact ⟨cell px py, (hdark px py).mpr h⟩

end Short

/-! ### Drawings -/

/-- Drawing flips a pixel exactly if an odd number of set bits lie on it. A lit
pixel went dark exactly if some pixel was lit and has a set bit on it, or was
dark and has two. -/
theorem draw_exact (s : Screen) (x y : ℕ) (rows : List UInt8) :
    (∀ (px : Fin 64) (py : Fin 32), (s.draw x y rows).1.pixel px py =
        (s.pixel px py ^^ decide (Odd (hits x y rows px py)))) ∧
      ((s.draw x y rows).2 = true ↔
        ∃ (px : Fin 64) (py : Fin 32), 2 ≤ (s.pixel px py).toNat + hits x y rows px py) := by
  constructor
  · intro px py
    rw [draw, pixel, lit_flipAll]
    simp only [count_spriteCells, pixel]
  · rw [draw, went_dark_iff]
    constructor
    · rintro ⟨d, hd⟩
      obtain ⟨px, py, rfl⟩ := exists_cell d
      rw [count_spriteCells] at hd
      exact ⟨px, py, hd⟩
    · rintro ⟨px, py, h⟩
      rw [← count_spriteCells] at h
      exact ⟨cell px py, h⟩

/-- Two drawings, one after the other, are one pass over the places of both. -/
theorem draw_draw (s : Screen) (x₁ y₁ x₂ y₂ : ℕ) (A B : List UInt8) :
    s.flipAll (spriteCells x₁ y₁ A ++ spriteCells x₂ y₂ B) =
      (((s.draw x₁ y₁ A).1.draw x₂ y₂ B).1,
        (s.draw x₁ y₁ A).2 || ((s.draw x₁ y₁ A).1.draw x₂ y₂ B).2) :=
  flipAll_append s _ _

/-- Two drawings come to the same in either order, and a lit pixel goes dark in
one of the two either way. A drawing that is made twice leaves the screen as it
was, and a lit pixel goes dark in one of the two exactly if the sprite has a set
bit. A sprite below another one can be drawn with it or after it. -/
theorem draw_algebra (s : Screen) (x₁ y₁ x₂ y₂ : ℕ) (A B : List UInt8) :
    let a := s.draw x₁ y₁ A
    let b := s.draw x₂ y₂ B
    let ab := a.1.draw x₂ y₂ B
    let ba := b.1.draw x₁ y₁ A
    let again := a.1.draw x₁ y₁ A
    let below := a.1.draw x₁ (y₁ + A.length) B
    let joined := s.draw x₁ y₁ (A ++ B)
    (ab.1 = ba.1 ∧ (a.2 || ab.2) = (b.2 || ba.2)) ∧
      (again.1 = s ∧
        ((a.2 || again.2) = true ↔ ∃ row ∈ A, ∃ k < 8, row.toNat.testBit k = true)) ∧
      joined.1 = below.1 ∧ joined.2 = (a.2 || below.2) := by
  intro a b ab ba again below joined
  refine ⟨?_, ?_, ?_⟩
  · have hswap : (ab.1, a.2 || ab.2) = (ba.1, b.2 || ba.2) :=
      calc (ab.1, a.2 || ab.2) = s.flipAll (spriteCells x₁ y₁ A ++ spriteCells x₂ y₂ B) :=
            (draw_draw s x₁ y₁ x₂ y₂ A B).symm
        _ = s.flipAll (spriteCells x₂ y₂ B ++ spriteCells x₁ y₁ A) :=
            flipAll_perm List.perm_append_comm s
        _ = (ba.1, b.2 || ba.2) := draw_draw s x₂ y₂ x₁ y₁ B A
    exact Prod.mk.inj hswap
  · have htwice := draw_draw s x₁ y₁ x₁ y₁ A A
    have hsame := flipAll_twice s (spriteCells x₁ y₁ A)
    rw [htwice, spriteCells_ne_nil] at hsame
    exact hsame
  · have hjoined : joined = (below.1, a.2 || below.2) :=
      calc joined = s.flipAll (spriteCells x₁ y₁ A ++ spriteCells x₁ (y₁ + A.length) B) :=
            congrArg s.flipAll (spriteCells_append x₁ B y₁ A)
        _ = (below.1, a.2 || below.2) := draw_draw s x₁ y₁ x₁ (y₁ + A.length) A B
    exact Prod.mk.inj hjoined

end Screen
end ChipEight
