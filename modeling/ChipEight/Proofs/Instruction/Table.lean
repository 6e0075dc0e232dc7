/-
# The instruction table

The thirty-four patterns of words that are instructions, a character for each
nibble: a hexadecimal digit asks for itself, and the letters `N`, `X` and `Y`
leave a nibble free. A word is read as an instruction exactly if it fits a
pattern (`decode_eq_none_iff`). The patterns of the instructions that can fail
are told apart in `fits_ret`, `fits_call` and `fits_jumpPlus`.

Key definitions: `Instruction.patterns`, `Instruction.Fits`.
-/
import Mathlib.Data.List.Forall2
import ChipEight.Proofs.Instruction.Words

namespace ChipEight
namespace Instruction

/-- The patterns of all instructions. -/
def patterns : List String :=
  ["00E0", "00EE", "1NNN", "2NNN", "3XNN", "4XNN", "5XY0", "6XNN", "7XNN",
   "8XY0", "8XY1", "8XY2", "8XY3", "8XY4", "8XY5", "8XY6", "8XY7", "8XYE", "9XY0",
   "ANNN", "BNNN", "CXNN", "DXYN", "EX9E", "EXA1",
   "FX07", "FX0A", "FX15", "FX18", "FX1E", "FX29", "FX33", "FX55", "FX65"]

/-- The nibble that a character of a pattern asks for, if it asks for one. -/
def asked (c : Char) : Option ℕ :=
  if c = 'N' ∨ c = 'X' ∨ c = 'Y' then none
  else if c.isDigit then some (c.toNat - '0'.toNat)
  else some (10 + (c.toNat - 'A'.toNat))

/-- The four nibbles of a word, from the top. -/
def nibbles (w : UInt16) : List ℕ :=
  [w.toNat / 4096, w.toNat / 256 % 16, w.toNat / 16 % 16, w.toNat % 16]

/-- Each nibble of the word is what the pattern asks for. -/
def Fits (w : UInt16) (pattern : String) : Prop :=
  List.Forall₂ (fun c n => ∀ k ∈ asked c, n = k) pattern.toList (nibbles w)

instance (w : UInt16) (pattern : String) : Decidable (Fits w pattern) :=
  inferInstanceAs (Decidable (List.Forall₂ _ _ _))

/-- The pattern of an instruction. -/
def pattern : Instruction → String
  | .clear => "00E0"
  | .ret => "00EE"
  | .jump _ => "1NNN"
  | .call _ => "2NNN"
  | .skipIfByte _ _ => "3XNN"
  | .skipUnlessByte _ _ => "4XNN"
  | .skipIfSame _ _ => "5XY0"
  | .putByte _ _ => "6XNN"
  | .addByte _ _ => "7XNN"
  | .copy _ _ => "8XY0"
  | .or _ _ => "8XY1"
  | .and _ _ => "8XY2"
  | .xor _ _ => "8XY3"
  | .add _ _ => "8XY4"
  | .sub _ _ => "8XY5"
  | .shiftRight _ _ => "8XY6"
  | .subFrom _ _ => "8XY7"
  | .shiftLeft _ _ => "8XYE"
  | .skipUnlessSame _ _ => "9XY0"
  | .pointTo _ => "ANNN"
  | .jumpPlus _ => "BNNN"
  | .random _ _ => "CXNN"
  | .draw _ _ _ => "DXYN"
  | .skipIfKey _ => "EX9E"
  | .skipUnlessKey _ => "EXA1"
  | .readDelay _ => "FX07"
  | .awaitKey _ => "FX0A"
  | .startDelay _ => "FX15"
  | .startSound _ => "FX18"
  | .advance _ => "FX1E"
  | .pointToGlyph _ => "FX29"
  | .storeDecimal _ => "FX33"
  | .storeRegisters _ => "FX55"
  | .loadRegisters _ => "FX65"

theorem pattern_mem (i : Instruction) : i.pattern ∈ patterns := by
  cases i <;> simp [pattern, patterns]

/-- The word of an instruction fits its pattern. -/
theorem fits_encode (i : Instruction) : Fits (encode i) i.pattern := by
  cases i with
  | clear | ret => decide
  | jump a | call a | pointTo a | jumpPlus a =>
    simp (disch := decide) [Fits, nibbles, asked, encode, pattern, wordA_div]
  | skipIfByte x b | skipUnlessByte x b | putByte x b | addByte x b | random x b =>
    simp (disch := decide) [Fits, nibbles, asked, encode, pattern, wordXB_div]
  | skipIfKey x | skipUnlessKey x | readDelay x | awaitKey x | startDelay x | startSound x
  | advance x | pointToGlyph x | storeDecimal x | storeRegisters x | loadRegisters x =>
    simp (disch := decide) [Fits, nibbles, asked, encode, pattern, toNat_wordXB]
    omega
  | draw x y n =>
    simp (disch := first | exact n.isLt | decide) [Fits, nibbles, asked, encode, pattern,
      wordXYN_div]
  | skipIfSame x y | skipUnlessSame x y | copy x y | or x y | and x y | xor x y | add x y | sub x y
  | shiftRight x y | subFrom x y | shiftLeft x y =>
    simp (disch := decide) [Fits, nibbles, asked, encode, pattern, wordXYN_div, wordXYN_mod]

theorem mod_of_nibbles {w : UInt16} {y n : ℕ} (hy : w.toNat / 16 % 16 = y)
    (hn : w.toNat % 16 = n) : w.toNat % 256 = y * 16 + n := by
  omega

theorem word_of_nibbles {w v : UInt16} {y n : ℕ} (hf : w.toNat / 4096 = 0)
    (hx : w.toNat / 256 % 16 = 0) (hy : w.toNat / 16 % 16 = y) (hn : w.toNat % 16 = n)
    (hv : v.toNat = y * 16 + n) : v = w := by
  apply UInt16.toNat.inj
  omega

/-- A word that fits a pattern is the word of an instruction. -/
theorem exists_of_fits {w : UInt16} : ∀ p ∈ patterns, Fits w p → ∃ i, encode i = w := by
  simp only [patterns, List.forall_mem_cons, List.not_mem_nil, false_implies, implies_true, and_true,
    Fits, nibbles, String.reduceToList, List.forall₂_cons, List.forall₂_nil_right_iff,
    asked, Char.reduceEq, Char.reduceIsDigit, Char.reduceToNat, Nat.reduceSub, Nat.reduceAdd,
    or_true, true_or, or_self, Bool.false_eq_true, if_true, if_false, Option.mem_def, Option.some.injEq,
    reduceCtorEq, forall_eq', and_imp, true_and]
  -- a row for each pattern
  exact ⟨fun hf hx hy hn => ⟨.clear, word_of_nibbles hf hx hy hn rfl⟩,
    fun hf hx hy hn => ⟨.ret, word_of_nibbles hf hx hy hn rfl⟩,
    fun hf => ⟨.jump _, wordA_eq hf⟩,
    fun hf => ⟨.call _, wordA_eq hf⟩,
    fun hf => ⟨.skipIfByte _ _, wordXB_eq hf (toNat_fieldByte w).symm⟩,
    fun hf => ⟨.skipUnlessByte _ _, wordXB_eq hf (toNat_fieldByte w).symm⟩,
    fun hf hn => ⟨.skipIfSame _ _, wordXYN_eq hf hn⟩,
    fun hf => ⟨.putByte _ _, wordXB_eq hf (toNat_fieldByte w).symm⟩,
    fun hf => ⟨.addByte _ _, wordXB_eq hf (toNat_fieldByte w).symm⟩,
    fun hf hn => ⟨.copy _ _, wordXYN_eq hf hn⟩,
    fun hf hn => ⟨.or _ _, wordXYN_eq hf hn⟩,
    fun hf hn => ⟨.and _ _, wordXYN_eq hf hn⟩,
    fun hf hn => ⟨.xor _ _, wordXYN_eq hf hn⟩,
    fun hf hn => ⟨.add _ _, wordXYN_eq hf hn⟩,
    fun hf hn => ⟨.sub _ _, wordXYN_eq hf hn⟩,
    fun hf hn => ⟨.shiftRight _ _, wordXYN_eq hf hn⟩,
    fun hf hn => ⟨.subFrom _ _, wordXYN_eq hf hn⟩,
    fun hf hn => ⟨.shiftLeft _ _, wordXYN_eq hf hn⟩,
    fun hf hn => ⟨.skipUnlessSame _ _, wordXYN_eq hf hn⟩,
    fun hf => ⟨.pointTo _, wordA_eq hf⟩,
    fun hf => ⟨.jumpPlus _, wordA_eq hf⟩,
    fun hf => ⟨.random _ _, wordXB_eq hf (toNat_fieldByte w).symm⟩,
    fun hf => ⟨.draw _ _ _, wordXYN_eq hf (val_fieldN w).symm⟩,
    fun hf hy hn => ⟨.skipIfKey _, wordXB_eq hf (mod_of_nibbles hy hn)⟩,
    fun hf hy hn => ⟨.skipUnlessKey _, wordXB_eq hf (mod_of_nibbles hy hn)⟩,
    fun hf hy hn => ⟨.readDelay _, wordXB_eq hf (mod_of_nibbles hy hn)⟩,
    fun hf hy hn => ⟨.awaitKey _, wordXB_eq hf (mod_of_nibbles hy hn)⟩,
    fun hf hy hn => ⟨.startDelay _, wordXB_eq hf (mod_of_nibbles hy hn)⟩,
    fun hf hy hn => ⟨.startSound _, wordXB_eq hf (mod_of_nibbles hy hn)⟩,
    fun hf hy hn => ⟨.advance _, wordXB_eq hf (mod_of_nibbles hy hn)⟩,
    fun hf hy hn => ⟨.pointToGlyph _, wordXB_eq hf (mod_of_nibbles hy hn)⟩,
    fun hf hy hn => ⟨.storeDecimal _, wordXB_eq hf (mod_of_nibbles hy hn)⟩,
    fun hf hy hn => ⟨.storeRegisters _, wordXB_eq hf (mod_of_nibbles hy hn)⟩,
    fun hf hy hn => ⟨.loadRegisters _, wordXB_eq hf (mod_of_nibbles hy hn)⟩⟩

theorem fits_of_decode {w : UInt16} {i : Instruction} (h : decode w = some i) :
    Fits w i.pattern := by
  rw [← encode_of_decode h]
  exact fits_encode i

/-- A word is no instruction exactly if it fits no pattern. -/
theorem decode_eq_none_iff {w : UInt16} : decode w = none ↔ ∀ p ∈ patterns, ¬ Fits w p := by
  constructor
  · intro h p hp hfits
    obtain ⟨i, rfl⟩ := exists_of_fits p hp hfits
    rw [decode_encode] at h
    cases h
  · intro h
    cases hi : decode w with
    | none => rfl
    | some i => exact absurd (fits_of_decode hi) (h i.pattern (pattern_mem i))

/-! ### Telling the patterns apart -/

/-- Two patterns ask for different digits in the same place. -/
def Apart (p q : String) : Prop :=
  ∃ c ∈ p.toList.zip q.toList, ∃ k ∈ asked c.1, ∃ l ∈ asked c.2, k ≠ l

instance (p q : String) : Decidable (Apart p q) := inferInstanceAs (Decidable (∃ c ∈ _, _))

theorem apart_of_ne : ∀ p ∈ patterns, ∀ q ∈ patterns, p ≠ q → Apart p q := by decide +kernel

/-- What is asked of the same nibbles in the same places is the same. -/
theorem asked_eq {ns : List ℕ} : ∀ {cs ds : List Char},
    List.Forall₂ (fun c n => ∀ k ∈ asked c, n = k) cs ns →
    List.Forall₂ (fun c n => ∀ k ∈ asked c, n = k) ds ns →
    ∀ c ∈ cs.zip ds, ∀ k ∈ asked c.1, ∀ l ∈ asked c.2, k = l := by
  induction ns with
  | nil =>
    intro cs ds hcs hds c hc
    cases hcs
    cases hc
  | cons n ns ih =>
    intro cs ds hcs hds c hc k hk l hl
    rcases hcs with _ | ⟨hfirst, hcs⟩
    rcases hds with _ | ⟨hsecond, hds⟩
    rcases List.mem_cons.mp hc with rfl | hc
    · exact (hfirst k hk).symm.trans (hsecond l hl)
    · exact ih hcs hds c hc k hk l hl

/-- No word fits two patterns. -/
theorem eq_of_fits {w : UInt16} {p q : String} (hp : p ∈ patterns) (hq : q ∈ patterns)
    (hwp : Fits w p) (hwq : Fits w q) : p = q := by
  by_contra hne
  obtain ⟨c, hc, k, hk, l, hl, hkl⟩ := apart_of_ne p hp q hq hne
  exact hkl (asked_eq hwp hwq c hc k hk l hl)

/-- The word of an instruction fits its pattern alone. -/
theorem fits_iff {w : UInt16} {i : Instruction} (h : decode w = some i) {p : String}
    (hp : p ∈ patterns) : Fits w p ↔ i.pattern = p := by
  constructor
  · exact fun hw => eq_of_fits (pattern_mem i) hp (fits_of_decode h) hw
  · rintro rfl
    exact fits_of_decode h

theorem fits_ret {w : UInt16} : Fits w "00EE" ↔ decode w = some .ret := by
  constructor
  · intro h
    obtain ⟨hf, hx, hy, hn⟩ : w.toNat < 4096 ∧ w.toNat / 256 % 16 = 0 ∧
        w.toNat / 16 % 16 = 14 ∧ w.toNat % 16 = 14 := by simpa [Fits, nibbles, asked] using h
    exact decode_eq_some_iff.mpr (word_of_nibbles (Nat.div_eq_of_lt hf) hx hy hn rfl)
  · exact fits_of_decode

theorem fits_call {w : UInt16} : Fits w "2NNN" ↔ ∃ a, decode w = some (.call a) := by
  constructor
  · intro h
    have hf : w.toNat / 4096 = 2 := by simpa [Fits, nibbles, asked] using h
    exact ⟨_, decode_eq_some_iff.mpr (wordA_eq hf)⟩
  · rintro ⟨a, ha⟩
    exact fits_of_decode ha

theorem fits_jumpPlus {w : UInt16} : Fits w "BNNN" ↔ ∃ a, decode w = some (.jumpPlus a) := by
  constructor
  · intro h
    have hf : w.toNat / 4096 = 0xB := by simpa [Fits, nibbles, asked] using h
    exact ⟨_, decode_eq_some_iff.mpr (wordA_eq hf)⟩
  · rintro ⟨a, ha⟩
    exact fits_of_decode ha

end Instruction
end ChipEight
