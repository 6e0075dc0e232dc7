/-
# Reading listings

A listing is written two bytes at a time, from the program's start until the bytes
that were asked for are passed (`Listing.write`). Read as text, it has exactly the
lines of `Listing.lines` (`textLines_write`). The blanks in a line tell apart the
address, the bytes and the mnemonic (`words_chars`), so all three are read back from
it (`shows_chars`), and the bytes of all lines together are those of memory
(`bytes?_columns`).

Key definitions: `textLines`, `Listing.write`, `Listing.words`, `Listing.Shows`.
-/
import ChipEight.Listing
import ChipEight.Proofs.Instruction.Mnemonic
import ChipEight.Proofs.Memory

namespace ChipEight

/-- The lines of a text, each of which ends with a line end. -/
def textLines (text : List Char) : List (List Char) := (text.splitOn '\n').dropLast

theorem textLines_flatMap : ∀ {ls : List (List Char)}, (∀ l ∈ ls, '\n' ∉ l) →
    textLines (ls.flatMap (· ++ ['\n'])) = ls
  | [], _ => rfl
  | l :: ls, h => by
    obtain ⟨hl, hls⟩ := List.forall_mem_cons.mp h
    have hrest : (ls.flatMap (· ++ ['\n'])).splitOn '\n' ≠ [] := List.splitOn_ne_nil _ _
    have hsplit : (l :: ls).flatMap (· ++ ['\n']) = l ++ '\n' :: ls.flatMap (· ++ ['\n']) := by
      simp
    rw [textLines, hsplit, List.splitOn_append_cons_self_of_not_mem hl,
      List.dropLast_cons_of_ne_nil hrest, ← textLines, textLines_flatMap hls]

namespace Listing

/-! ### Writing -/

/-- The line for two bytes, up to and with its end. -/
def writeLine (a : ℕ) (high low : UInt8) : List Char :=
  Hex.upperDigits 4 a ++ ':' :: ' ' ::
    (Hex.upperDigits 2 high.toNat ++ Hex.upperDigits 2 low.toNat ++
      match Instruction.decode (UInt16.ofNat (high.toNat * 256 + low.toNat)) with
      | some i => ' ' :: i.mnemonic.chars ++ ['\n']
      | none => ['\n'])

/-- The lines for the bytes from an address on, until another is reached. -/
def writeFrom (m : Memory) (a stop : ℕ) : List Char :=
  if a < stop then writeLine a (m.read a) (m.read (a + 1)) ++ writeFrom m (a + 2) stop else []
termination_by stop - a

/-- The text of the first `count` bytes from the program's start on. -/
def write (m : Memory) (count : ℕ) : List Char :=
  writeFrom m Memory.programStart (Memory.programStart + count)

/-- A word is written as its two bytes are. -/
theorem upperDigits_word (m : Memory) (a : ℕ) : Hex.upperDigits 4 (m.word a).toNat =
    Hex.upperDigits 2 (m.read a).toNat ++ Hex.upperDigits 2 (m.read (a + 1)).toNat := by
  rw [Memory.toNat_word]
  exact Hex.upperDigits_append (by decide) (m.read (a + 1)).toNat_lt _

theorem writeLine_eq (m : Memory) (a : ℕ) :
    writeLine a (m.read a) (m.read (a + 1)) = (Line.mk a (m.word a)).chars ++ ['\n'] := by
  unfold writeLine Line.chars Line.mnemonic Line.instruction
  rw [upperDigits_word, ← Memory.word]
  cases Instruction.decode (m.word a) <;> simp

/-- What is written from an address on is a line for every two bytes. -/
theorem writeFrom_eq (m : Memory) (a stop : ℕ) : writeFrom m a stop =
    (List.range ((stop - a + 1) / 2)).flatMap fun k =>
      (Line.mk (a + 2 * k) (m.word (a + 2 * k))).chars ++ ['\n'] := by
  fun_induction writeFrom m a stop with
  | case1 a h ih =>
    have hcount : (stop - a + 1) / 2 = (stop - (a + 2) + 1) / 2 + 1 := by omega
    rw [ih, writeLine_eq, hcount, List.range_succ_eq_map, List.flatMap_cons, List.flatMap_map]
    simp only [Nat.mul_zero, Nat.add_zero, Nat.mul_succ, Nat.add_assoc, Nat.add_comm 2]
  | case2 a h =>
    have hcount : (stop - a + 1) / 2 = 0 := by omega
    rw [hcount]
    rfl

theorem lineEnd_not_mem_chars (l : Line) : '\n' ∉ l.chars := by
  have haddress : '\n' ∉ Hex.upperDigits 4 l.address := Hex.not_mem_upperDigits (by decide) _ _
  have hword : '\n' ∉ Hex.upperDigits 4 l.word.toNat := Hex.not_mem_upperDigits (by decide) _ _
  have hmnemonic : '\n' ∉ l.mnemonic := by
    unfold Line.mnemonic
    cases l.instruction with
    | none => exact List.not_mem_nil
    | some i => exact List.not_mem_cons_of_ne_of_not_mem (by decide) i.lineEnd_not_mem_chars
  simp [Line.chars, haddress, hword, hmnemonic]

/-- The text has the lines that the listing has, and no others. -/
theorem textLines_write (m : Memory) (count : ℕ) :
    textLines (write m count) = (lines m count).map Line.chars := by
  have hwrite : write m count = ((lines m count).map Line.chars).flatMap (· ++ ['\n']) := by
    rw [write, writeFrom_eq, lines, Nat.add_sub_cancel_left, List.map_map, List.flatMap_map]
    rfl
  rw [hwrite]
  refine textLines_flatMap fun cs hcs => ?_
  obtain ⟨l, -, rfl⟩ := List.mem_map.mp hcs
  exact lineEnd_not_mem_chars l

/-! ### Reading -/

/-- The words of a line: the address with its colon, the bytes, and those of the
mnemonic, if there is one. -/
def words (line : List Char) : List (List Char) := line.splitOn ' '

/-- The bytes in a line, as they are written. -/
def bytesColumn (line : List Char) : List Char := (words line).getD 1 []

/-- The mnemonic in a line, if there is one. -/
def mnemonicColumn (line : List Char) : Option (List Char) :=
  if 2 < (words line).length then some ([' '].intercalate ((words line).drop 2)) else none

/-- The line without the bytes. -/
def withoutBytes (line : List Char) : List Char := [' '].intercalate ((words line).eraseIdx 1)

/-- The line is about address `a`: it has that address in four digits at least, the
two bytes from there on, around the end of memory if need be, and the mnemonic of
their word exactly if that is an instruction. -/
structure Shows (m : Memory) (a : ℕ) (line : List Char) : Prop where
  address : ∃ digits, (words line).head? = some (digits ++ [':']) ∧ 4 ≤ digits.length ∧
    Hex.value? digits = some a
  bytes : Hex.bytes? (bytesColumn line) = some [m.read (a % 4096), m.read ((a + 1) % 4096)]
  mnemonic : mnemonicColumn line = (Instruction.decode (m.word a)).map fun i => i.mnemonic.chars

theorem words_chars (l : Line) : words l.chars =
    (Hex.upperDigits 4 l.address ++ [':']) :: Hex.upperDigits 4 l.word.toNat ::
      match l.instruction with
      | some i => words i.mnemonic.chars
      | none => [] := by
  have hblank : ∀ n, ' ' ∉ Hex.upperDigits 4 n := Hex.not_mem_upperDigits (by decide) 4
  have haddress : ' ' ∉ Hex.upperDigits 4 l.address ++ [':'] := by simp [hblank]
  have hsplit : l.chars = (Hex.upperDigits 4 l.address ++ [':']) ++ ' ' ::
      (Hex.upperDigits 4 l.word.toNat ++ l.mnemonic) := by simp [Line.chars]
  rw [words, hsplit, List.splitOn_append_cons_self_of_not_mem haddress, Line.mnemonic]
  cases l.instruction with
  | none => rw [List.append_nil, List.splitOn_eq_singleton (hblank _)]
  | some i =>
    simp only [List.splitOn_append_cons_self_of_not_mem (hblank _)]
    rfl

theorem bytesColumn_chars (l : Line) : bytesColumn l.chars = Hex.upperDigits 4 l.word.toNat := by
  rw [bytesColumn, words_chars]
  rfl

theorem mnemonicColumn_chars (l : Line) :
    mnemonicColumn l.chars = l.instruction.map fun i => i.mnemonic.chars := by
  rw [mnemonicColumn, words_chars]
  cases l.instruction with
  | none => rfl
  | some i => simp [words, List.intercalate_splitOn]

theorem withoutBytes_chars {l : Line} {i : Instruction} (h : l.instruction = some i) :
    withoutBytes l.chars = Hex.upperDigits 4 l.address ++ ':' :: ' ' :: i.mnemonic.chars := by
  have hsome : words i.mnemonic.chars ≠ [] := List.splitOn_ne_nil _ _
  rw [withoutBytes, words_chars, h]
  simp only [List.eraseIdx_cons_succ, List.eraseIdx_cons_zero,
    List.intercalate_cons_of_ne_nil hsome]
  simp [words, List.intercalate_splitOn]

theorem bytes?_bytesColumn (m : Memory) (a : ℕ) :
    Hex.bytes? (bytesColumn (Line.mk a (m.word a)).chars) = some [m.read a, m.read (a + 1)] := by
  rw [bytesColumn_chars, upperDigits_word, Hex.bytes?_append (Hex.bytes?_upperDigits _),
    Hex.bytes?_upperDigits]
  rfl

theorem shows_chars (m : Memory) (a : ℕ) : Shows m a (Line.mk a (m.word a)).chars where
  address := ⟨Hex.upperDigits 4 a, by rw [words_chars]; rfl, Hex.le_length_upperDigits 4 a,
    Hex.value?_upperDigits 4 a⟩
  bytes := by rw [bytes?_bytesColumn, Memory.read_mod, Memory.read_mod]
  mnemonic := mnemonicColumn_chars _

theorem length_textLines_write (m : Memory) (count : ℕ) :
    (textLines (write m count)).length = (count + 1) / 2 := by
  rw [textLines_write, lines, List.length_map, List.length_map, List.length_range]

theorem getElem?_textLines_write (m : Memory) {count k : ℕ} (h : 2 * k < count) :
    (textLines (write m count))[k]? =
      some (Line.mk (0x200 + 2 * k) (m.word (0x200 + 2 * k))).chars := by
  have hk : k < (count + 1) / 2 := by omega
  rw [textLines_write, lines, List.getElem?_map, List.getElem?_map, List.getElem?_range hk]
  rfl

/-- The bytes in all lines are those of memory, in their order. -/
theorem bytes?_columns (m : Memory) (count : ℕ) :
    Hex.bytes? ((textLines (write m count)).flatMap bytesColumn) =
      some (m.slice Memory.programStart (2 * ((count + 1) / 2))) := by
  rw [textLines_write, lines]
  generalize (count + 1) / 2 = n
  induction n with
  | zero => rfl
  | succ n ih =>
    rw [List.range_succ, List.map_append, List.map_append, List.flatMap_append,
      Hex.bytes?_append ih, Nat.mul_succ, Memory.slice_add_two]
    simp [bytes?_bytesColumn]

end Listing
end ChipEight
