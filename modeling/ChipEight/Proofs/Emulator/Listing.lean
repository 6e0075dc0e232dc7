/-
# Listings and what runs

Once a program was taken, the bytes in a listing of its length are the program
(`bytes?_putProgram`), and `dis` prints that listing (`executeDis_lines`). A step goes
by the line for the address it is at (`GoesBy`, `step_goesBy`): it traces the
instruction in the line, or fails for the bytes in it. `listing_faithful` puts these
together with what the lines of a listing show.

Key definitions: `Emulator.ahead`, `Emulator.GoesBy`.
-/
import ChipEight.CommandLine
import ChipEight.Proofs.Emulator.Loading
import ChipEight.Proofs.Listing
import ChipEight.Proofs.Machine.Tracing

namespace ChipEight
namespace Emulator

/-! ### Programs -/

variable {e : Emulator} {program : List UInt8}

theorem load_memory (e : Emulator) (hfit : program.length ≤ 3584) :
    ∃ q, e.load program = (.ok (), q, [.loaded program.length]) ∧
      q.machine.memory = Memory.withGlyphs.putProgram program := by
  unfold load
  rw [takeProgram_of_le hfit]
  exact ⟨_, rfl, rfl⟩

/-- An odd last byte is listed with the byte behind it, so the columns may hold one
byte more than the program. -/
theorem bytes?_putProgram (m : Memory) (hfit : program.length ≤ 3584) :
    ∃ bytes, Hex.bytes? ((textLines (Listing.write (m.putProgram program)
      program.length)).flatMap Listing.bytesColumn) = some bytes ∧
      bytes.take program.length = program := by
  have hcount : program.length ≤ 2 * ((program.length + 1) / 2) := by omega
  refine ⟨_, Listing.bytes?_columns _ _, ?_⟩
  rw [Memory.take_slice _ _ hcount, Memory.putProgram,
    Memory.slice_writeAll _ _ (Nat.le_trans hfit (by decide))]

theorem executeDis_lines {files : Files} {path : String} (h : files.read path = .ok program)
    (hfit : program.length ≤ 3584) : Command.executeDis files path = ⟨Exit.success,
      (textLines (Listing.write (Memory.withGlyphs.putProgram program) program.length)).map
        String.ofList⟩ := by
  rw [Listing.textLines_write, List.map_map]
  unfold Command.executeDis
  rw [program_of_le h hfit]
  rfl

/-! ### Steps -/

/-- The next step goes by a line of a listing. If there is a mnemonic in the line,
the step does not fail for its word, and it has one trace, which is the line without
the bytes. If there is none, the step fails for its word, which is the bytes in the
line, and has no trace. -/
structure GoesBy (e : Emulator) (line : List Char) : Prop where
  some_iff : (Listing.mnemonicColumn line).isSome ↔
    ∀ w pc, e.step.outcome ≠ .error (.invalidOpcode w pc)
  of_some : (Listing.mnemonicColumn line).isSome →
    (traces e.step.events.toList).map Event.text = [String.ofList (Listing.withoutBytes line)]
  of_none : Listing.mnemonicColumn line = none →
    ∃ w, e.step.outcome = .error (.invalidOpcode w e.machine.pc) ∧
      Hex.value? (Listing.bytesColumn line) = some w.toNat ∧ traces e.step.events.toList = []

/-- A trace is a line without its bytes. -/
theorem text_executing {l : Listing.Line} {i : Instruction} (h : l.instruction = some i) :
    (Event.executing l.address i).text = String.ofList (Listing.withoutBytes l.chars) := by
  have hcolon : ": " = String.ofList [':', ' '] := rfl
  calc (Event.executing l.address i).text
    _ = Hex.upper 4 l.address ++ ": " ++ i.text := rfl
    _ = String.ofList (Hex.upperDigits 4 l.address ++ [':', ' '] ++ i.mnemonic.chars) := by
      rw [Hex.upper, Instruction.text, Mnemonic.text, hcolon, String.ofList_append,
        String.ofList_append]
    _ = String.ofList (Listing.withoutBytes l.chars) := by
      rw [Listing.withoutBytes_chars h, List.append_assoc]
      rfl

/-- The line for the address that the program counter is at. -/
def ahead (e : Emulator) : Listing.Line := ⟨e.machine.pc, e.machine.word⟩

theorem goesBy_of_current {i : Instruction} (h : e.machine.current = some i) :
    e.GoesBy e.ahead.chars := by
  have hi : e.ahead.instruction = some i := (Machine.current_eq_some.mp h).2.2
  have hmnemonic : Listing.mnemonicColumn e.ahead.chars = some i.mnemonic.chars := by
    rw [Listing.mnemonicColumn_chars, hi, Option.map_some]
  have htraces : traces e.step.events.toList = [.executing e.ahead.address i] :=
    Machine.traces_step_of_current h _
  constructor
  case some_iff =>
    rw [hmnemonic, step, Machine.step_of_current h]
    exact iff_of_true rfl (Machine.execute_ne_invalidOpcode _ _ i)
  case of_some =>
    intro _
    rw [htraces, List.map_singleton, text_executing hi]
  case of_none => simp [hmnemonic]

theorem goesBy_of_unknown (ha : e.machine.awaiting = none) (hb : e.machine.inBounds = true)
    (h : Instruction.decode e.machine.word = none) : e.GoesBy e.ahead.chars := by
  have hi : e.ahead.instruction = none := h
  have hmnemonic : Listing.mnemonicColumn e.ahead.chars = none := by
    rw [Listing.mnemonicColumn_chars, hi, Option.map_none]
  have hstep : e.machine.step e.settings.dialect =
      ⟨.error (.invalidOpcode e.machine.word e.machine.pc), e.machine,
        [.unknownWord e.machine.word e.machine.pc]⟩ := by
    simp only [Machine.step, ha, hb, h, if_true]
  have hbytes : Hex.value? (Listing.bytesColumn e.ahead.chars) = some e.machine.word.toNat := by
    rw [Listing.bytesColumn_chars]
    exact Hex.value?_upperDigits 4 e.machine.word.toNat
  constructor
  case some_iff =>
    rw [hmnemonic, step, hstep]
    exact iff_of_false (by decide) fun hvalid => hvalid _ _ rfl
  case of_some => simp [hmnemonic]
  case of_none =>
    intro _
    rw [step, hstep]
    exact ⟨e.machine.word, rfl, hbytes, rfl⟩

/-- A step in memory goes by the line for its address. -/
theorem step_goesBy (ha : e.machine.awaiting = none) (hpc : e.machine.pc ≤ 0xFFE) :
    e.GoesBy e.ahead.chars := by
  have hb : e.machine.inBounds = true := (Machine.inBounds_iff _).mpr (by omega)
  cases hi : Instruction.decode e.machine.word with
  | some i => exact goesBy_of_current (Machine.current_eq_some.mpr ⟨ha, hb, hi⟩)
  | none => exact goesBy_of_unknown ha hb hi

/-- In every state, a listing of `count` bytes has a line for every two bytes and for
an odd last one, and the line after `k` others shows address `0x200 + 2 * k`, the two
bytes there, and a mnemonic exactly if they are an instruction. Once a program that
fits was taken, the bytes in a listing of its length, cut to that length, are the
program, and `dis` prints that listing for a file with the program in it. While no key
is awaited, a step at an even address from the program's start to the last whole word
of memory goes by the line for that address, in every listing that goes so far. -/
theorem listing_faithful (e : Emulator) :
    (∀ count, let shown := textLines (Listing.write e.machine.memory count)
      shown = (Listing.lines e.machine.memory count).map Listing.Line.chars ∧
        shown.length = (count + 1) / 2 ∧
        ∀ k line, shown[k]? = some line →
          Listing.Shows e.machine.memory (0x200 + 2 * k) line) ∧
      (∀ program : List UInt8, program.length ≤ 3584 →
        ∃ q, e.load program = (.ok (), q, [.loaded program.length]) ∧
          let shown := textLines (Listing.write q.machine.memory program.length)
          (∃ bytes, Hex.bytes? (shown.flatMap Listing.bytesColumn) = some bytes ∧
            bytes.take program.length = program) ∧
          ∀ (files : Files) (path : String), files.read path = .ok program →
            Command.executeDis files path = ⟨Exit.success, shown.map String.ofList⟩) ∧
      ∀ k count, e.machine.awaiting = none → e.machine.pc = 0x200 + 2 * k →
        e.machine.pc ≤ 0xFFE → 2 * k < count →
        ∃ line, (textLines (Listing.write e.machine.memory count))[k]? = some line ∧
          e.GoesBy line := by
  refine ⟨fun count => ⟨Listing.textLines_write _ _, Listing.length_textLines_write _ _,
    fun k line hline => ?_⟩, fun program hfit => ?_, fun k count ha hk hpc hcount => ?_⟩
  · have hk : 2 * k < count := by
      have hlt := (List.getElem?_eq_some_iff.mp hline).1
      rw [Listing.length_textLines_write] at hlt
      omega
    rw [Listing.getElem?_textLines_write _ hk] at hline
    obtain rfl := Option.some.inj hline
    exact Listing.shows_chars _ _
  · obtain ⟨q, hq, hmemory⟩ := load_memory e hfit
    refine ⟨q, hq, ?_⟩
    rw [hmemory]
    exact ⟨bytes?_putProgram _ hfit, fun files path hread => executeDis_lines hread hfit⟩
  · refine ⟨_, Listing.getElem?_textLines_write _ hcount, ?_⟩
    rw [← hk]
    exact step_goesBy ha hpc

/-- An emulator whose program ends in the middle of a word that is no instruction. -/
def halved : Emulator :=
  ((Emulator.new .unset (.ofWords [])).load [0x60, 0x0A, 0xFF]).2.1

/-- The word is listed with the byte behind the program, and the second step fails
for it. -/
theorem halved_listed :
    let first := "0200: 600A LD v0, 10".toList
    let second := "0202: FF00".toList
    let files := Files.ofList [("halved.rom", .ok [0x60, 0x0A, 0xFF])]
    textLines (Listing.write halved.machine.memory 3) = [first, second] ∧
      Listing.Shows halved.machine.memory 0x202 second ∧
      Command.executeDis files "halved.rom" =
        ⟨Exit.success, [String.ofList first, String.ofList second]⟩ ∧
      (traces halved.step.events.toList).map Event.text =
        [String.ofList "0200: LD v0, 10".toList] ∧
      halved.step.emulator.step.outcome = .error (.invalidOpcode 0xFF00 0x202) := by
  intro first second files
  obtain ⟨hlisted, hlisted', hfirst, hnext⟩ :
      (Listing.lines halved.machine.memory 3).map Listing.Line.chars = [first, second] ∧
        (Listing.lines halved.step.emulator.machine.memory 3).map Listing.Line.chars =
          [first, second] ∧
        (halved.machine.awaiting = none ∧ halved.machine.pc = 0x200) ∧
        halved.step.emulator.machine.awaiting = none ∧
          halved.step.emulator.machine.pc = 0x202 := by
    decide +kernel
  obtain ⟨hsome, hbare, hnone, hword⟩ : (Listing.mnemonicColumn first).isSome ∧
      Listing.withoutBytes first = "0200: LD v0, 10".toList ∧
      Listing.mnemonicColumn second = none ∧
      Hex.value? (Listing.bytesColumn second) = some (0xFF00 : UInt16).toNat := by
    decide +kernel
  -- the program is listed, and printed from its file
  obtain ⟨hshown, -, hgoes⟩ := listing_faithful halved
  obtain ⟨hlines, -, hshows⟩ := hshown 3
  rw [hlisted] at hlines
  rw [hlines] at hshows
  obtain ⟨-, hload, -⟩ := listing_faithful (Emulator.new .unset (.ofWords []))
  obtain ⟨q, hq, -, hprinted⟩ := hload [0x60, 0x0A, 0xFF] (by decide)
  obtain rfl : halved = q := by rw [halved, hq]
  have hdis : Command.executeDis files "halved.rom" = ⟨Exit.success,
      (textLines (Listing.write halved.machine.memory 3)).map String.ofList⟩ :=
    hprinted files "halved.rom" (by decide +kernel)
  rw [hlines] at hdis
  -- the first step goes by the first line, and the second step by the second
  obtain ⟨line, hline, hstep⟩ := hgoes 0 3 hfirst.1 hfirst.2 (by rw [hfirst.2]; decide) (by decide)
  rw [hlines] at hline
  obtain rfl : first = line := Option.some.inj hline
  obtain ⟨-, -, hgoes'⟩ := listing_faithful halved.step.emulator
  obtain ⟨line, hline, hstep'⟩ := hgoes' 1 3 hnext.1 hnext.2 (by rw [hnext.2]; decide) (by decide)
  rw [Listing.textLines_write, hlisted'] at hline
  obtain rfl : second = line := Option.some.inj hline
  obtain ⟨w, hout, hw, -⟩ := hstep'.of_none hnone
  obtain rfl : w = 0xFF00 := UInt16.toNat_inj.mp (Option.some.inj (hw.symm.trans hword))
  rw [hnext.2] at hout
  exact ⟨hlines, hshows 1 second rfl, hdis, by rw [hstep.of_some hsome, hbare], hout⟩

end Emulator
end ChipEight
