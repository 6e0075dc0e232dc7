/-
# Reading hexadecimal columns

A number is read back from the column it is written in, however far that is
padded (`value?_upperDigits`), and a byte from two digits of it
(`bytes?_upperDigits`). A column grows at its end: the digits of a number are
those of its sixteenth part and one more (`upperDigits_succ`), so a word is
written as its two bytes are (`upperDigits_append`).

Key definitions: `Hex.digit?`, `Hex.value?`, `Hex.bytes?`.
-/
import Mathlib.Data.Nat.Notation
import ChipEight.Text.Hex

namespace ChipEight
namespace Hex

/-- The sixteen upper-case digits. -/
def digits : List Char :=
  ['0', '1', '2', '3', '4', '5', '6', '7', '8', '9', 'A', 'B', 'C', 'D', 'E', 'F']

/-- What a digit stands for: its place among the sixteen. -/
def digit? (c : Char) : Option ℕ := digits.idxOf? c

/-- The number that is written in these digits, the highest first. -/
def value? (cs : List Char) : Option ℕ :=
  cs.foldlM (fun n c => (digit? c).map (16 * n + ·)) 0

/-- The bytes that are written in these digits, two for each, the higher first. -/
def bytes? : List Char → Option (List UInt8)
  | [] => some []
  | [_] => none
  | c :: d :: cs => (value? [c, d]).bind fun n => (bytes? cs).map (UInt8.ofNat n :: ·)

/-- The digit that stands for a number below sixteen. -/
def upperDigit (n : ℕ) : Char := n.digitChar.toUpper

theorem digit?_upperDigit : ∀ n < 16, digit? (upperDigit n) = some n := by decide

theorem mem_of_digit? {c : Char} {n : ℕ} (h : digit? c = some n) : c ∈ digits := by
  apply List.isSome_idxOf?.mp
  rw [← digit?, h]
  rfl

theorem value?_append_singleton {cs : List Char} {c : Char} {n d : ℕ} (hcs : value? cs = some n)
    (hc : digit? c = some d) : value? (cs ++ [c]) = some (16 * n + d) := by
  rw [value?] at hcs ⊢
  rw [List.foldlM_append, hcs]
  simp [hc]

/-- Only digits are read. -/
theorem mem_of_value? {cs : List Char} {n : ℕ} (h : value? cs = some n) :
    ∀ c ∈ cs, c ∈ digits := by
  unfold value? at h
  generalize 0 = start at h
  induction cs generalizing start with
  | nil => simp
  | cons c cs ih =>
    rw [List.foldlM_cons] at h
    obtain ⟨next, hnext, hrest⟩ := Option.bind_eq_some_iff.mp h
    obtain ⟨d, hd, -⟩ := Option.map_eq_some_iff.mp hnext
    exact List.forall_mem_cons.mpr ⟨mem_of_digit? hd, ih _ hrest⟩

/-! ### Columns -/

theorem upperDigits_of_lt {n : ℕ} (h : n < 16) (width : ℕ) :
    upperDigits (width + 1) n = List.replicate width '0' ++ [upperDigit n] := by
  rw [upperDigits, Nat.toDigits_of_lt_base h]
  rfl

theorem upperDigits_of_le {n : ℕ} (h : 16 ≤ n) (width : ℕ) :
    upperDigits (width + 1) n = upperDigits width (n / 16) ++ [upperDigit (n % 16)] := by
  rw [upperDigits, Nat.toDigits_of_base_le (by decide) h]
  simp [upperDigits, List.leftpad, upperDigit]

/-- There is a digit at least. -/
theorem upperDigits_zero (n : ℕ) : upperDigits 0 n = upperDigits 1 n := by
  have hlength : 1 - (Nat.toDigits 16 n).length = 0 :=
    Nat.sub_eq_zero_of_le Nat.length_toDigits_pos
  simp [upperDigits, List.leftpad, hlength]

theorem upperDigits_succ {width : ℕ} (h : 0 < width) (n : ℕ) :
    upperDigits (width + 1) n = upperDigits width (n / 16) ++ [upperDigit (n % 16)] := by
  rcases Nat.lt_or_ge n 16 with hn | hn
  · obtain ⟨width, rfl⟩ := Nat.exists_eq_succ_of_ne_zero (Nat.ne_of_gt h)
    rw [upperDigits_of_lt hn, Nat.div_eq_of_lt hn, Nat.mod_eq_of_lt hn,
      upperDigits_of_lt (by decide), List.replicate_succ']
    rfl
  · exact upperDigits_of_le hn width

theorem upperDigits_one {n : ℕ} (h : n < 16) : upperDigits 1 n = [upperDigit n] := by
  rw [upperDigits_of_lt h, List.replicate_zero, List.nil_append]

theorem upperDigits_two {n : ℕ} (h : n < 256) :
    upperDigits 2 n = [upperDigit (n / 16), upperDigit (n % 16)] := by
  rw [upperDigits_succ (by decide), upperDigits_one (by omega)]
  rfl

/-- A byte more takes two digits more. -/
theorem upperDigits_append {width low : ℕ} (h : 0 < width) (hlow : low < 256) (high : ℕ) :
    upperDigits (width + 2) (high * 256 + low) = upperDigits width high ++ upperDigits 2 low := by
  have hhigh : (high * 256 + low) / 16 / 16 = high := by omega
  have hdigit : (high * 256 + low) / 16 % 16 = low / 16 := by omega
  have hlast : (high * 256 + low) % 16 = low % 16 := by omega
  rw [upperDigits_succ (Nat.succ_pos width), upperDigits_succ h, hhigh, hdigit, hlast,
    upperDigits_two hlow, List.append_assoc]
  rfl

theorem le_length_upperDigits (width n : ℕ) : width ≤ (upperDigits width n).length := by
  rw [upperDigits, List.length_leftpad]
  exact Nat.le_max_left _ _

theorem value?_zeros : ∀ width, value? (List.replicate width '0') = some 0
  | 0 => rfl
  | width + 1 => by
    rw [List.replicate_succ', value?_append_singleton (value?_zeros width) (d := 0) rfl]

/-- A number is read back from the column it is written in. -/
theorem value?_upperDigits (width n : ℕ) : value? (upperDigits width n) = some n := by
  -- the column grows at its end, where the number has its lowest digit
  induction n using Nat.strongRecOn generalizing width with
  | ind n ih =>
    have hsucc : ∀ width, value? (upperDigits (width + 1) n) = some n := by
      intro width
      rcases Nat.lt_or_ge n 16 with hn | hn
      · rw [upperDigits_of_lt hn,
          value?_append_singleton (value?_zeros width) (digit?_upperDigit n hn), Nat.mul_zero,
          Nat.zero_add]
      · have hdigit := digit?_upperDigit (n % 16) (Nat.mod_lt n (by decide))
        have hrest := ih (n / 16) (by omega) width
        rw [upperDigits_of_le hn, value?_append_singleton hrest hdigit, Nat.div_add_mod]
    cases width with
    | zero =>
      rw [upperDigits_zero]
      exact hsucc 0
    | succ width => exact hsucc width

theorem not_mem_upperDigits {c : Char} (h : c ∉ digits) (width n : ℕ) :
    c ∉ upperDigits width n :=
  fun hc => h (mem_of_value? (value?_upperDigits width n) c hc)

/-! ### Bytes -/

theorem bytes?_append {cs : List Char} {bs : List UInt8} (h : bytes? cs = some bs)
    (ds : List Char) : bytes? (cs ++ ds) = (bytes? ds).map (bs ++ ·) := by
  induction cs using bytes?.induct generalizing bs with
  | case1 =>
    cases h
    simp
  | case2 => cases h
  | case3 c d cs ih =>
    obtain ⟨n, hn, hrest⟩ := Option.bind_eq_some_iff.mp h
    obtain ⟨rest, hcs, rfl⟩ := Option.map_eq_some_iff.mp hrest
    simp [bytes?, hn, ih hcs, Function.comp_def]

/-- A byte is read back from its two digits. -/
theorem bytes?_upperDigits (b : UInt8) : bytes? (upperDigits 2 b.toNat) = some [b] := by
  have hvalue := value?_upperDigits 2 b.toNat
  rw [upperDigits_two b.toNat_lt] at hvalue ⊢
  simp [bytes?, hvalue]

end Hex
end ChipEight
