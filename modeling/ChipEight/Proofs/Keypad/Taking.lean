/-
# Taking one fresh key after another

Taking gives the lowest fresh key (`take_fst_eq_some`), which is the number of zeros
below the lowest bit of the fresh ones (`take_fst_eq_ctz`). Taking again and again
gives the fresh keys in ascending order, and nothing after them (`takes_eq`).

Key definitions: `Keypad.take`, `Keypad.takes`.
-/
import Mathlib.Data.List.Sort
import ChipEight.Proofs.Keypad

namespace ChipEight
namespace Keypad

/-- Take the lowest fresh key, if there is one. -/
def take (p : Keypad) : Option Key × Keypad :=
  match p.takeFresh with
  | some (k, q) => (some k, q)
  | none => (none, p)

/-- What `n` takings give, in order. -/
def takes : ℕ → Keypad → List (Option Key)
  | 0, _ => []
  | n + 1, p => p.take.1 :: takes n p.take.2

variable {p : Keypad} {k : Key}

theorem take_fst_eq_none : p.take.1 = none ↔ ∀ k, p.isFresh k = false := by
  rw [← takeFresh_eq_none, take]
  rcases p.takeFresh with _ | ⟨k, q⟩ <;> simp

theorem take_fst_eq_some :
    p.take.1 = some k ↔ p.isFresh k = true ∧ ∀ j, p.isFresh j = true → k ≤ j := by
  rcases h : p.takeFresh with _ | ⟨i, q⟩
  · have hnone := takeFresh_eq_none.mp h
    simp [take, h, hnone]
  · obtain ⟨hi, hbelow, -⟩ := takeFresh_eq_some h
    have hle : ∀ j, p.isFresh j = true → i ≤ j := by
      intro j hj
      by_contra hlt
      rw [hbelow j (Nat.lt_of_not_le hlt)] at hj
      cases hj
    simp only [take, h, Option.some.injEq]
    constructor
    · rintro rfl
      exact ⟨hi, hle⟩
    · rintro ⟨hk, hmin⟩
      exact Fin.le_antisymm (hle k hk) (hmin i hi)

theorem take_snd_of_none (h : p.take.1 = none) : p.take.2 = p := by
  rcases hfresh : p.takeFresh with _ | ⟨k, q⟩
  · simp only [take, hfresh]
  · simp only [take, hfresh] at h
    cases h

theorem isDown_take (p : Keypad) (k : Key) : p.take.2.isDown k = p.isDown k := by
  rcases h : p.takeFresh with _ | ⟨i, q⟩
  · simp only [take, h]
  · simp only [take, h]
    exact (takeFresh_eq_some h).2.2.1 k

theorem isFresh_take (p : Keypad) (k : Key) :
    p.take.2.isFresh k = (p.isFresh k && !decide (p.take.1 = some k)) := by
  rcases h : p.takeFresh with _ | ⟨i, q⟩
  · simp [take, h]
  · simp only [take, h, Option.some.injEq]
    exact (takeFresh_eq_some h).2.2.2 k

/-- The key that is taken, read off the word that holds the fresh ones. -/
theorem take_fst_eq_ctz (p : Keypad) :
    p.take.1.map Fin.val = if p.fresh = 0#16 then none else some p.fresh.ctz.toNat := by
  split
  · next h =>
    rw [take_fst_eq_none.mpr fun k => by simp [isFresh, h], Option.map_none]
  · next h =>
    have hlt : p.fresh.ctz.toNat < 16 := BitVec.ctz_lt_iff_ne_zero.mpr h
    have htake : p.take.1 = some ⟨p.fresh.ctz.toNat, hlt⟩ := by
      refine take_fst_eq_some.mpr ⟨BitVec.getLsbD_true_ctz_of_ne_zero h, fun j hj => ?_⟩
      by_contra hbelow
      have hzero : p.fresh.getLsbD j.val = false :=
        BitVec.getLsbD_false_of_lt_ctz (Nat.lt_of_not_le hbelow)
      have hone : p.fresh.getLsbD j.val = true := hj
      rw [hzero] at hone
      cases hone
    rw [htake, Option.map_some]

/-! ### All fresh keys -/

theorem mem_freshKeys : k ∈ p.freshKeys ↔ p.isFresh k = true := by
  simp [freshKeys, allKeys]

theorem freshKeys_pairwise (p : Keypad) : p.freshKeys.Pairwise (· < ·) :=
  (List.pairwise_lt_finRange 16).filter _

/-- The key that is taken comes first among the fresh ones, and the others stay. -/
theorem freshKeys_take (h : p.take.1 = some k) : p.freshKeys = k :: p.take.2.freshKeys := by
  obtain ⟨hk, hmin⟩ := take_fst_eq_some.mp h
  have hrest : ∀ j, j ∈ p.take.2.freshKeys ↔ p.isFresh j = true ∧ k ≠ j := by
    intro j
    simp [mem_freshKeys, isFresh_take, h]
  have hsorted : (k :: p.take.2.freshKeys).Pairwise (· < ·) := by
    refine List.pairwise_cons.mpr ⟨fun j hj => ?_, freshKeys_pairwise _⟩
    obtain ⟨hj, hne⟩ := (hrest j).mp hj
    exact lt_of_le_of_ne (hmin j hj) hne
  refine p.freshKeys_pairwise.sortedLT.eq_of_mem_iff hsorted.sortedLT fun j => ?_
  rw [mem_freshKeys, List.mem_cons, hrest]
  by_cases hjk : j = k
  · simp [hjk, hk]
  · simp [hjk, Ne.symm hjk]

theorem takes_eq : ∀ (n : ℕ) (p : Keypad), p.takes n = (List.range n).map (p.freshKeys[·]?)
  | 0, _ => rfl
  | n + 1, p => by
    rw [takes, takes_eq n, List.range_succ_eq_map, List.map_cons, List.map_map]
    cases h : p.take.1 with
    | none =>
      have hkeys : p.freshKeys = [] := by
        refine List.eq_nil_iff_forall_not_mem.mpr fun k hk => ?_
        rw [mem_freshKeys, take_fst_eq_none.mp h] at hk
        cases hk
      rw [take_snd_of_none h, hkeys]
      rfl
    | some k =>
      rw [freshKeys_take h]
      rfl

end Keypad
end ChipEight
