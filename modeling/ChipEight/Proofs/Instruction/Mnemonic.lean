/-
# Reading mnemonics

The text of an instruction is read back, word by word: the name, then the
operands (`ofChars?_chars`), and a name with operands as an instruction
(`instruction?_mnemonic`). What is read is the instruction that was written, or,
for a shift, the one that shifts `Vx` in place, since `Vy` is not in the text
(`Instruction.asWritten`). So two instructions have one text exactly if they
differ in nothing else (`text_eq_iff`).

Key definitions: `Operand.ofChars?`, `Mnemonic.ofChars?`,
`Mnemonic.instruction?`, `Instruction.asWritten`.
-/
import ChipEight.Instruction.Mnemonic
import ChipEight.Proofs.Instruction.Table
import ChipEight.Proofs.Text.Hex

namespace ChipEight

/-! ### Operands -/

namespace Operand

/-- The operand that is written so. -/
def ofChars? (cs : List Char) : Option Operand :=
  if cs.all Char.isDigit then some (.number (Nat.ofDigitChars 10 cs 0))
  else match cs with
    | ['I'] => some .index
    | ['[', 'I', ']'] => some .pointed
    | ['D', 'T'] => some .delay
    | ['S', 'T'] => some .sound
    | ['K'] => some .key
    | ['F'] => some .glyph
    | ['B'] => some .decimal
    | 'v' :: ds => (Hex.value? ds).map fun n => .register (Reg.wrap n)
    | '0' :: 'x' :: ds => (Hex.value? ds).map fun n => .address (Address.wrap n)
    | _ => none

/-- An operand is read back from its text. -/
theorem ofChars?_text (o : Operand) : ofChars? o.text = some o := by
  cases o with
  | register x =>
    simp [text, ofChars?, Hex.value?_upperDigits, Reg.wrap, Nat.mod_eq_of_lt x.isLt]
  | number n =>
    have hdigits : (Nat.toDigits 10 n).all Char.isDigit = true :=
      List.all_eq_true.mpr fun c hc => Nat.isDigit_of_mem_toDigits (by decide) (by decide) hc
    unfold text ofChars?
    rw [if_pos hdigits, Nat.ofDigitChars_ten_toDigits]
  | address a =>
    simp [text, ofChars?, Hex.value?_upperDigits, Address.wrap, Nat.mod_eq_of_lt a.isLt]
  | index | pointed | delay | sound | key | glyph | decimal => rfl

/-- No operand is written with a blank, a comma or a line end. -/
theorem not_mem_text {c : Char} (h : c ∈ [' ', ',', '\n']) (o : Operand) : c ∉ o.text := by
  have hc : c = ' ' ∨ c = ',' ∨ c = '\n' := by simpa using h
  obtain ⟨hhex, hdigit, hv, hzero, hx⟩ :
      c ∉ Hex.digits ∧ c.isDigit = false ∧ c ≠ 'v' ∧ c ≠ '0' ∧ c ≠ 'x' := by
    rcases hc with rfl | rfl | rfl <;> decide
  cases o with
  | register x =>
    exact List.not_mem_cons_of_ne_of_not_mem hv (Hex.not_mem_upperDigits hhex 1 x.val)
  | number n =>
    intro hmem
    rw [Nat.isDigit_of_mem_toDigits (by decide) (by decide) hmem] at hdigit
    cases hdigit
  | address a =>
    exact List.not_mem_cons_of_ne_of_not_mem hzero
      (List.not_mem_cons_of_ne_of_not_mem hx (Hex.not_mem_upperDigits hhex 3 a.val))
  | index | pointed | delay | sound | key | glyph | decimal =>
    rcases hc with rfl | rfl | rfl <;> decide

theorem takeWhile_text (o : Operand) (rest : List Char) :
    (o.text ++ rest).takeWhile (· ≠ ',') = o.text ++ rest.takeWhile (· ≠ ',') := by
  refine List.takeWhile_append_of_pos fun c hc => decide_eq_true ?_
  rintro rfl
  exact o.not_mem_text (by decide) hc

end Operand

/-! ### Names with operands -/

namespace Mnemonic

/-- The mnemonic that is written so: the first word is its name, and each further
word an operand, up to a comma if there is one. -/
def ofChars? (cs : List Char) : Option Mnemonic :=
  match cs.splitOn ' ' with
  | [] => none
  | name :: words =>
    (words.mapM fun w => Operand.ofChars? (w.takeWhile (· ≠ ','))).map (⟨String.ofList name, ·⟩)

/-- The operands are read back, each from the word it is in. -/
theorem mapM_words : ∀ (os : List Operand) (o : Operand),
    ((o.text ++ moreOperands os).splitOn ' ').mapM
      (fun w => Operand.ofChars? (w.takeWhile (· ≠ ','))) = some (o :: os)
  | [], o => by
    have hblank : ' ' ∉ o.text ++ [] := by simpa using o.not_mem_text (by decide)
    rw [moreOperands, List.splitOn_eq_singleton hblank, List.mapM_cons, o.takeWhile_text,
      List.takeWhile_nil, List.append_nil, o.ofChars?_text]
    rfl
  | p :: os, o => by
    have hblank : ' ' ∉ o.text ++ [','] := by simpa using o.not_mem_text (by decide)
    have hsplit : o.text ++ moreOperands (p :: os) =
        (o.text ++ [',']) ++ ' ' :: (p.text ++ moreOperands os) := by simp [moreOperands]
    have hcomma : [','].takeWhile (· ≠ ',') = [] := rfl
    rw [hsplit, List.splitOn_append_cons_self_of_not_mem hblank, List.mapM_cons,
      o.takeWhile_text, hcomma, List.append_nil, o.ofChars?_text, mapM_words os p]
    rfl

/-- A mnemonic is read back from its text. -/
theorem ofChars?_chars {m : Mnemonic} (h : ' ' ∉ m.name.toList) : ofChars? m.chars = some m := by
  obtain ⟨name, operands⟩ := m
  unfold ofChars? chars
  cases operands with
  | nil =>
    simp only [List.splitOn_eq_singleton h, String.ofList_toList]
    rfl
  | cons o os =>
    simp only [List.append_assoc, List.cons_append,
      List.splitOn_append_cons_self_of_not_mem h, mapM_words os o, String.ofList_toList]
    rfl

theorem lineEnd_not_mem_moreOperands : ∀ os : List Operand, '\n' ∉ moreOperands os
  | [] => List.not_mem_nil
  | o :: os => by
    have ho : '\n' ∉ o.text := o.not_mem_text (by decide)
    simp [moreOperands, ho, lineEnd_not_mem_moreOperands os]

theorem lineEnd_not_mem_chars {m : Mnemonic} (h : '\n' ∉ m.name.toList) : '\n' ∉ m.chars := by
  unfold chars
  cases m.operands with
  | nil => exact h
  | cons o os =>
    have ho : '\n' ∉ o.text := o.not_mem_text (by decide)
    simp [h, ho, lineEnd_not_mem_moreOperands os]

/-- The instruction with this name and these operands. A shift is taken to
shift in place. -/
def instruction? (m : Mnemonic) : Option Instruction :=
  match m.name, m.operands with
  | "CLS", [] => some .clear
  | "RET", [] => some .ret
  | "JP", [.address a] => some (.jump a)
  | "JP", [.register _, .address a] => some (.jumpPlus a)
  | "CALL", [.address a] => some (.call a)
  | "SE", [.register x, .number n] => some (.skipIfByte x (UInt8.ofNat n))
  | "SE", [.register x, .register y] => some (.skipIfSame x y)
  | "SNE", [.register x, .number n] => some (.skipUnlessByte x (UInt8.ofNat n))
  | "SNE", [.register x, .register y] => some (.skipUnlessSame x y)
  | "ADD", [.register x, .number n] => some (.addByte x (UInt8.ofNat n))
  | "ADD", [.register x, .register y] => some (.add x y)
  | "ADD", [.index, .register x] => some (.advance x)
  | "OR", [.register x, .register y] => some (.or x y)
  | "AND", [.register x, .register y] => some (.and x y)
  | "XOR", [.register x, .register y] => some (.xor x y)
  | "SUB", [.register x, .register y] => some (.sub x y)
  | "SUBN", [.register x, .register y] => some (.subFrom x y)
  | "SHR", [.register x] => some (.shiftRight x x)
  | "SHL", [.register x] => some (.shiftLeft x x)
  | "RND", [.register x, .number n] => some (.random x (UInt8.ofNat n))
  | "DRW", [.register x, .register y, .number n] =>
    some (.draw x y (Instruction.fieldN (UInt16.ofNat n)))
  | "SKP", [.register x] => some (.skipIfKey x)
  | "SKNP", [.register x] => some (.skipUnlessKey x)
  | "LD", [.register x, .number n] => some (.putByte x (UInt8.ofNat n))
  | "LD", [.register x, .register y] => some (.copy x y)
  | "LD", [.index, .address a] => some (.pointTo a)
  | "LD", [.register x, .delay] => some (.readDelay x)
  | "LD", [.register x, .key] => some (.awaitKey x)
  | "LD", [.delay, .register x] => some (.startDelay x)
  | "LD", [.sound, .register x] => some (.startSound x)
  | "LD", [.glyph, .register x] => some (.pointToGlyph x)
  | "LD", [.decimal, .register x] => some (.storeDecimal x)
  | "LD", [.pointed, .register x] => some (.storeRegisters x)
  | "LD", [.register x, .pointed] => some (.loadRegisters x)
  | _, _ => none

end Mnemonic

namespace Instruction

/-- An instruction as far as its text tells: a shift is written with `Vx` alone,
as if it were to shift in place. -/
def asWritten : Instruction → Instruction
  | .shiftRight x _ => .shiftRight x x
  | .shiftLeft x _ => .shiftLeft x x
  | i => i

theorem instruction?_mnemonic (i : Instruction) :
    i.mnemonic.instruction? = some i.asWritten := by
  cases i with
  | skipIfByte x b | skipUnlessByte x b | putByte x b | addByte x b | random x b =>
    exact congrArg (some ∘ _) UInt8.ofNat_toNat
  | draw x y n =>
    have hfield : fieldN (UInt16.ofNat n.val) = n := by
      have hn := n.isLt
      rw [Fin.ext_iff, val_fieldN, UInt16.toNat_ofNat']
      omega
    exact congrArg (some ∘ draw x y) hfield
  | _ => rfl

theorem mnemonic_asWritten (i : Instruction) : i.asWritten.mnemonic = i.mnemonic := by
  cases i <;> rfl

/-- Names are in capital letters. -/
theorem le_of_mem_name (i : Instruction) : ∀ c ∈ i.mnemonic.name.toList, 'A' ≤ c ∧ c ≤ 'Z' := by
  cases i <;> simp [mnemonic]

theorem blank_not_mem_name (i : Instruction) : ' ' ∉ i.mnemonic.name.toList :=
  fun h => absurd (i.le_of_mem_name ' ' h) (by decide)

/-- A mnemonic is on one line. -/
theorem lineEnd_not_mem_chars (i : Instruction) : '\n' ∉ i.mnemonic.chars :=
  Mnemonic.lineEnd_not_mem_chars fun h => absurd (i.le_of_mem_name '\n' h) (by decide)

/-- Instructions with one text are the same as far as it tells. -/
theorem text_eq_iff {i j : Instruction} : i.text = j.text ↔ i.asWritten = j.asWritten := by
  constructor
  · intro h
    have hchars : i.mnemonic.chars = j.mnemonic.chars := String.ofList_inj.mp h
    have hmnemonic : i.mnemonic = j.mnemonic := by
      apply Option.some.inj
      rw [← Mnemonic.ofChars?_chars i.blank_not_mem_name, hchars,
        Mnemonic.ofChars?_chars j.blank_not_mem_name]
    apply Option.some.inj
    rw [← i.instruction?_mnemonic, hmnemonic, j.instruction?_mnemonic]
  · intro h
    rw [text, ← i.mnemonic_asWritten, h, j.mnemonic_asWritten, text]

/-! ### The words of one text -/

theorem pattern_asWritten (i : Instruction) : i.asWritten.pattern = i.pattern := by
  cases i <;> rfl

/-- Only shifts are written without one of their operands. -/
theorem asWritten_eq_self {i : Instruction} (h : i.pattern ∉ ["8XY6", "8XYE"]) :
    i.asWritten = i := by
  cases i with
  | shiftRight x y | shiftLeft x y => simp [pattern] at h
  | _ => rfl

section Words

variable {w w' : UInt16} {i j : Instruction}

theorem asWritten_of_shiftRight (hi : decode w = some i) (h : Fits w "8XY6") :
    i.asWritten = .shiftRight (fieldX w) (fieldX w) := by
  obtain ⟨hf, hn⟩ : w.toNat / 4096 = 8 ∧ w.toNat % 16 = 6 := by
    simpa [Fits, nibbles, asked] using h
  have hshift : decode w = some (.shiftRight (fieldX w) (fieldY w)) :=
    decode_eq_some_iff.mpr (wordXYN_eq hf hn)
  obtain rfl := Option.some.inj (hi.symm.trans hshift)
  rfl

theorem asWritten_of_shiftLeft (hi : decode w = some i) (h : Fits w "8XYE") :
    i.asWritten = .shiftLeft (fieldX w) (fieldX w) := by
  obtain ⟨hf, hn⟩ : w.toNat / 4096 = 8 ∧ w.toNat % 16 = 14 := by
    simpa [Fits, nibbles, asked] using h
  have hshift : decode w = some (.shiftLeft (fieldX w) (fieldY w)) :=
    decode_eq_some_iff.mpr (wordXYN_eq hf hn)
  obtain rfl := Option.some.inj (hi.symm.trans hshift)
  rfl

/-- A shift is written with its first register, each direction in its own way. -/
theorem exists_asWritten {p : String} (hp : p ∈ ["8XY6", "8XYE"]) :
    ∃ shift : Reg → Instruction, Function.Injective shift ∧
      ∀ {w : UInt16} {i : Instruction}, decode w = some i → Fits w p →
        i.asWritten = shift (fieldX w) := by
  rcases List.mem_pair.mp hp with rfl | rfl
  · exact ⟨fun x => .shiftRight x x, fun _ _ h => (shiftRight.inj h).1, asWritten_of_shiftRight⟩
  · exact ⟨fun x => .shiftLeft x x, fun _ _ h => (shiftLeft.inj h).1, asWritten_of_shiftLeft⟩

/-- Instructions are the same as far as their texts tell if their words are, or
if they are shifts in one direction with one first register. -/
theorem asWritten_eq_iff (hi : decode w = some i) (hj : decode w' = some j) :
    i.asWritten = j.asWritten ↔
      w = w' ∨ fieldX w = fieldX w' ∧ ∃ p ∈ ["8XY6", "8XYE"], Fits w p ∧ Fits w' p := by
  constructor
  · intro h
    have hpattern : i.pattern = j.pattern := by
      rw [← i.pattern_asWritten, h, j.pattern_asWritten]
    by_cases hp : i.pattern ∈ ["8XY6", "8XYE"]
    · obtain ⟨shift, hinj, hshift⟩ := exists_asWritten hp
      have hw : Fits w i.pattern := fits_of_decode hi
      have hw' : Fits w' i.pattern := hpattern ▸ fits_of_decode hj
      refine .inr ⟨hinj ?_, i.pattern, hp, hw, hw'⟩
      rw [← hshift hi hw, h, hshift hj hw']
    · have hp' : j.pattern ∉ ["8XY6", "8XYE"] := hpattern ▸ hp
      rw [asWritten_eq_self hp, asWritten_eq_self hp'] at h
      exact .inl (by rw [← encode_of_decode hi, h, encode_of_decode hj])
  · rintro (rfl | ⟨hx, p, hp, hw, hw'⟩)
    · rw [Option.some.inj (hi.symm.trans hj)]
    · obtain ⟨shift, -, hshift⟩ := exists_asWritten hp
      rw [hshift hi hw, hshift hj hw', hx]

end Words

end Instruction
end ChipEight
