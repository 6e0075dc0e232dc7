/-
# Setting keys and taking the lowest fresh one

A number that is set concerns the key it stands for and no other, and none if it
stands for no key (`isDown_set`, `isFresh_set`). What is taken from a keypad is the
lowest of its fresh keys, and that key alone is no longer fresh afterwards
(`takeFresh_eq_some`). Nothing is taken exactly if no key is fresh
(`takeFresh_eq_none`).
-/
import Mathlib.Data.Nat.Notation
import ChipEight.Keypad

namespace ChipEight

theorem Key.ofNat?_val (k : Key) : Key.ofNat? k.val = some k := dif_pos k.isLt

namespace Keypad

theorem set_val (p : Keypad) (k : Key) (pressed : Bool) :
    p.set k.val pressed = if pressed then p.press k else p.release k := by
  rw [set, Key.ofNat?_val]

/-- The number stands for no key. -/
theorem set_of_le {id : ℕ} (h : 16 ≤ id) (p : Keypad) (pressed : Bool) : p.set id pressed = p := by
  rw [set, Key.ofNat?, dif_neg (Nat.not_lt.mpr h)]

theorem isDown_set_val (p : Keypad) (k j : Key) (pressed : Bool) :
    (p.set k.val pressed).isDown j = if k = j then pressed else p.isDown j := by
  rw [set_val]
  by_cases h : k = j <;> cases pressed <;> simp [h]

theorem isFresh_set_val (p : Keypad) (k j : Key) (pressed : Bool) :
    (p.set k.val pressed).isFresh j =
      (p.isFresh j || (decide (k = j) && pressed && !p.isDown j)) := by
  rw [set_val]
  by_cases h : k = j <;> cases pressed <;> simp [h]

theorem isDown_set (p : Keypad) (id : ℕ) (pressed : Bool) (k : Key) :
    (p.set id pressed).isDown k = if id = k.val then pressed else p.isDown k := by
  rcases Nat.lt_or_ge id 16 with hid | hid
  · simpa only [Fin.ext_iff] using isDown_set_val p ⟨id, hid⟩ k pressed
  · rw [set_of_le hid, if_neg (Nat.ne_of_gt (Nat.lt_of_lt_of_le k.isLt hid))]

theorem isFresh_set (p : Keypad) (id : ℕ) (pressed : Bool) (k : Key) :
    (p.set id pressed).isFresh k =
      (p.isFresh k || (decide (id = k.val) && pressed && !p.isDown k)) := by
  rcases Nat.lt_or_ge id 16 with hid | hid
  · simpa only [Fin.ext_iff] using isFresh_set_val p ⟨id, hid⟩ k pressed
  · have hne : id ≠ k.val := Nat.ne_of_gt (Nat.lt_of_lt_of_le k.isLt hid)
    rw [set_of_le hid, decide_eq_false hne, Bool.false_and, Bool.false_and, Bool.or_false]

theorem takeFresh_eq_none {p : Keypad} : p.takeFresh = none ↔ ∀ k, p.isFresh k = false := by
  have hfind : p.takeFresh = none ↔ allKeys.find? p.isFresh = none := by
    unfold takeFresh
    split <;> simp_all
  rw [hfind, List.find?_eq_none]
  constructor
  · intro h k
    exact Bool.eq_false_iff.mpr (h k (List.mem_finRange k))
  · intro h k _
    exact Bool.eq_false_iff.mp (h k)

/-- The keys below the one that is taken are not fresh. -/
theorem find_fresh {p : Keypad} {k : Key} (h : allKeys.find? p.isFresh = some k) :
    p.isFresh k = true ∧ ∀ j < k, p.isFresh j = false := by
  obtain ⟨hk, i, hi, rfl, hbefore⟩ := List.find?_eq_some_iff_getElem.mp h
  refine ⟨hk, fun j hj => ?_⟩
  have hlt : j.val < i := by simpa [allKeys] using Fin.lt_def.mp hj
  simpa [allKeys] using hbefore j.val hlt

theorem takeFresh_eq_some {p q : Keypad} {k : Key} (h : p.takeFresh = some (k, q)) :
    p.isFresh k = true ∧ (∀ j < k, p.isFresh j = false) ∧
      (∀ j, q.isDown j = p.isDown j) ∧ ∀ j, q.isFresh j = (p.isFresh j && !decide (k = j)) := by
  unfold takeFresh at h
  split at h
  · next k' hfind =>
    cases h
    obtain ⟨hk, hbelow⟩ := find_fresh hfind
    exact ⟨hk, hbelow, fun j => rfl, fun j => by simp [isFresh, getElem_only]⟩
  · cases h

end Keypad
end ChipEight
