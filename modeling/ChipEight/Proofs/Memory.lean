/-
# What memory holds

Bytes that are put in memory one after another are read back by how far they
lie behind the first, counted around the end, and every other byte stays as it
was (`read_writeAll`). So a program that was just taken is in its place, the
pictures of the digits are in theirs, and there are zeros elsewhere
(`read_putProgram`). Bytes that were put are found again (`slice_writeAll`), and
bytes that are put where they came from change nothing (`writeAll_slice`).

Key definitions: `Memory.distance`, `Memory.imageByte`.
-/
import Mathlib.Data.List.GetD
import ChipEight.Memory

namespace ChipEight
namespace Memory

/-- How far address `c` lies behind address `a`, counted around the end. -/
def distance (a c : ℕ) : ℕ := (c + (4096 - a % 4096)) % 4096

theorem distance_of_le {a c : ℕ} (h : a ≤ c) (hc : c < 4096) : distance a c = c - a := by
  unfold distance
  omega

theorem le_distance_of_lt {a c : ℕ} (h : c < a) : 4096 - a ≤ distance a c := by
  unfold distance
  omega

/-- The bytes that were put are there, and the others are as they were. -/
theorem read_writeAll : ∀ (bs : List UInt8) (m : Memory) (a c : ℕ), bs.length ≤ 4096 →
    (m.writeAll a bs).read c = bs.getD (distance a c) (m.read c)
  | [], _, _, _, _ => rfl
  | b :: bs, m, a, c, h => by
    rw [List.length_cons] at h
    rw [writeAll, read_writeAll bs (m.write a b) (a + 1) c (Nat.le_of_succ_le h), read_write]
    by_cases hac : a % 4096 = c % 4096
    · -- the bytes behind the first do not come around to it
      have hfirst : distance a c = 0 := by unfold distance; omega
      have hlast : bs.length ≤ distance (a + 1) c := by unfold distance; omega
      rw [if_pos hac, hfirst, List.getD_cons_zero, List.getD_eq_default _ _ hlast]
    · have hnext : distance a c = distance (a + 1) c + 1 := by unfold distance; omega
      rw [if_neg hac, hnext, List.getD_cons_succ]

/-- A byte that is not as it was lies in one of the places that were written. -/
theorem place_of_writeAll : ∀ (bs : List UInt8) {m : Memory} {a c : ℕ},
    (m.writeAll a bs).read c ≠ m.read c → ∃ k < bs.length, c % 4096 = (a + k) % 4096
  | [], _, _, _, h => absurd rfl h
  | b :: bs, m, a, c, h => by
    by_cases hlater : ((m.write a b).writeAll (a + 1) bs).read c = (m.write a b).read c
    · have hfirst : (m.write a b).read c ≠ m.read c := fun heq => h (hlater.trans heq)
      rw [read_write] at hfirst
      split at hfirst
      · next hac => exact ⟨0, Nat.succ_pos _, hac.symm⟩
      · exact absurd rfl hfirst
    · obtain ⟨k, hk, hc⟩ := place_of_writeAll bs hlater
      refine ⟨k + 1, Nat.succ_lt_succ hk, ?_⟩
      rw [hc, Nat.add_assoc, Nat.add_comm 1 k]

/-- Memories that read the same everywhere are the same. -/
theorem ext_read {m n : Memory} (h : ∀ a < 4096, m.read a = n.read a) : m = n := by
  cases m with | mk bytes =>
  cases n with | mk other =>
  congr 1
  apply Vector.ext
  intro a ha
  simpa [read, Nat.mod_eq_of_lt ha] using h a ha

/-! ### Several bytes -/

/-- The high byte of a word comes first. -/
theorem toNat_word (m : Memory) (a : ℕ) :
    (m.word a).toNat = (m.read a).toNat * 256 + (m.read (a + 1)).toNat := by
  have hhigh := (m.read a).toNat_lt
  have hlow := (m.read (a + 1)).toNat_lt
  rw [word, UInt16.toNat_ofNat']
  omega

@[simp] theorem length_slice (m : Memory) (a n : ℕ) : (m.slice a n).length = n := by
  simp [slice]

@[simp] theorem getElem_slice (m : Memory) (a n k : ℕ) (h : k < (m.slice a n).length) :
    (m.slice a n)[k] = m.read (a + k) := by
  simp [slice]

theorem slice_add_two (m : Memory) (a n : ℕ) :
    m.slice a (n + 2) = m.slice a n ++ [m.read (a + n), m.read (a + n + 1)] := by
  simp [slice, List.range_succ, Nat.add_assoc]

theorem take_slice (m : Memory) (a : ℕ) {k n : ℕ} (h : k ≤ n) :
    (m.slice a n).take k = m.slice a k := by
  rw [slice, ← List.map_take, List.take_range, Nat.min_eq_left h, slice]

theorem slice_writeAll (m : Memory) (a : ℕ) {bs : List UInt8} (h : bs.length ≤ 4096) :
    (m.writeAll a bs).slice a bs.length = bs := by
  refine List.ext_getElem (length_slice _ _ _) fun k _ hk => ?_
  have hdistance : distance a (a + k) = k := by
    unfold distance
    omega
  rw [getElem_slice, read_writeAll bs m a (a + k) h, hdistance, List.getD_eq_getElem _ _ hk]

theorem write_read (m : Memory) (a : ℕ) : m.write a (m.read a) = m := by
  apply ext_read
  intro c _
  rw [read_write]
  split
  · next h => rw [← read_mod m a, h, read_mod]
  · rfl

theorem writeAll_slice (m : Memory) : ∀ n a : ℕ, m.writeAll a (m.slice a n) = m
  | 0, _ => rfl
  | n + 1, a => by
    have hslice : m.slice a (n + 1) = m.read a :: m.slice (a + 1) n := by
      simp [slice, List.range_succ_eq_map, Nat.add_assoc, Nat.add_comm 1, Function.comp_def]
    rw [hslice, writeAll, write_read, writeAll_slice m n (a + 1)]

/-! ### Once a program was taken -/

/-- The byte at an address once a program was taken: the pictures of the digits
at the bottom, the program in its place, and zeros elsewhere. -/
def imageByte (program : List UInt8) (a : ℕ) : UInt8 :=
  if a < 80 then glyphs.getD a 0
  else if a < 0x200 then 0
  else program.getD (a - 0x200) 0

theorem read_withGlyphs {a : ℕ} (ha : a < 4096) : withGlyphs.read a = glyphs.getD a 0 := by
  rw [withGlyphs, drawGlyphs, read_writeAll _ _ _ _ (by decide), read_blank,
    distance_of_le (Nat.zero_le a) ha, Nat.sub_zero]

theorem read_putProgram {program : List UInt8} (hfit : program.length ≤ 3584) {a : ℕ}
    (ha : a < 4096) : (withGlyphs.putProgram program).read a = imageByte program a := by
  have hlen : glyphs.length = 80 := by decide
  rw [putProgram, read_writeAll _ _ _ _ (Nat.le_trans hfit (by decide)), read_withGlyphs ha,
    imageByte]
  by_cases hlow : a < 0x200
  · -- below the program, whose bytes do not come around
    have hpast : program.length ≤ distance programStart a :=
      Nat.le_trans hfit (le_distance_of_lt hlow)
    rw [List.getD_eq_default _ _ hpast]
    by_cases hglyph : a < 80
    · rw [if_pos hglyph]
    · rw [if_neg hglyph, if_pos hlow, List.getD_eq_default _ _ (by omega)]
  · have hstart : programStart ≤ a := Nat.le_of_not_lt hlow
    rw [if_neg (by omega), if_neg hlow, distance_of_le hstart ha,
      List.getD_eq_default glyphs _ (by omega)]
    rfl

end Memory
end ChipEight
