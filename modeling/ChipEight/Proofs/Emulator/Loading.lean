/-
# Taking a program

A program that does not fit changes nothing. One that fits finds the emulator
as if it had just been made: of what went before, only the settings, the keypad
and the place in the source of random bytes are left (`load_started`), and
these determine the emulator (`Started.unique`). So two emulators that agree in
them cannot be told apart afterwards, whatever they did before
(`load_forgets`).

The size of a program is tested before anything is put back, when its bytes
are copied, and when it is read from a file. The three tests agree, so that
none of them fails once the emulator has changed (`loadInPlace_eq`,
`loadFile_of_read`).

Key definitions: `Emulator.Started`, `Emulator.loadInPlace`.
-/
import ChipEight.Files
import ChipEight.Proofs.Emulator.Drive
import ChipEight.Proofs.Emulator.Reach
import ChipEight.Proofs.Memory
import ChipEight.Proofs.Screen

namespace ChipEight

/-- Machines with the same value in every register have the same registers. -/
theorem Machine.ext_get {m n : Machine} (h : ∀ x, m.get x = n.get x) : m.v = n.v :=
  Vector.ext fun i hi => h ⟨i, hi⟩

namespace Emulator

/-! ### The clocks run at the pace of the settings -/

theorem runFrom_frame : ∀ (n : ℕ) (e : Emulator) (signal : Signal) (events : Array Event),
    (runFrom n e signal events).emulator =
      { e with machine := (runFrom n e signal events).emulator.machine }
  | 0, _, _, _ => rfl
  | n + 1, e, signal, events => by
    unfold runFrom
    rcases hout : e.step.outcome with f | next
    · simp only [hout]
      rfl
    · simp only [hout]
      exact runFrom_frame n e.step.emulator next (events ++ e.step.events)

/-- Time that passes changes no settings and no period. -/
theorem elapse_periods {e : Emulator} {elapsed : ℕ} {r : Report} (h : e.elapse elapsed = .ok r) :
    r.emulator.settings = e.settings ∧ r.emulator.clock.period = e.clock.period ∧
      r.emulator.timer.period = e.timer.period := by
  obtain ⟨steps, clock, ticks, timer, hs, ht, -⟩ := elapse_eq_ok.mp h
  obtain rfl := Except.ok.inj (h.symm.trans (elapse_eq_drive hs ht))
  rw [drive_frame]
  exact ⟨rfl, (Clock.elapse_total hs).1, (Clock.elapse_total ht).1⟩

end Emulator

open Emulator

/-- In every emulator that comes about, instructions are due as often as the
settings say, and ticks sixty times a second. -/
theorem Reachable.periods {e : Emulator} (h : Reachable e) :
    e.clock.period = Clock.periodOf (e.settings.frequency.getD 500) ∧
      e.timer.period = Clock.periodOf 60 := by
  induction h with
  | new settings random => exact ⟨rfl, rfl⟩
  | load program _ ih =>
    unfold Emulator.load
    split <;> exact ih
  | run n _ ih =>
    unfold Emulator.run
    rw [runFrom_frame]
    exact ih
  | elapse _ hr ih =>
    obtain ⟨hsettings, hclock, htimer⟩ := elapse_periods hr
    rw [hsettings, hclock, htimer]
    exact ih
  | frame _ hr ih =>
    obtain ⟨keypad, q, hq, he⟩ := frame_eq_ok hr
    obtain ⟨hsettings, hclock, htimer⟩ := elapse_periods hq
    rw [he]
    simp only [hsettings, hclock, htimer]
    exact ih
  | step _ ih | tick _ ih | setKey key pressed _ ih | clearKeys _ ih => exact ih

namespace Emulator

/-! ### An emulator that was just given a program -/

/-- The emulator is about to run a program from its start, and nothing in it
has moved yet: every component but the settings, the keypad and the source of
random bytes is as the program alone determines it. -/
structure Started (settings : Settings) (keypad : Keypad) (random : RandomSource)
    (program : List UInt8) (e : Emulator) : Prop where
  settings_eq : e.settings = settings
  keypad_eq : e.machine.keypad = keypad
  random_eq : e.machine.random = random
  get_eq : ∀ x, e.machine.get x = 0
  i_eq : e.machine.i = 0
  pc_eq : e.machine.pc = 0x200
  calls_eq : e.machine.calls = []
  timers_eq : e.machine.timers = ⟨0, 0, false⟩
  awaiting_eq : e.machine.awaiting = none
  read_eq : ∀ a < 4096, e.machine.memory.read a = Memory.imageByte program a
  pixel_eq : ∀ x y, e.machine.screen.pixel x y = false
  clock_period : e.clock.period = Clock.periodOf (settings.frequency.getD 500)
  clock_carried : e.clock.carried = 0
  timer_period : e.timer.period = Clock.periodOf 60
  timer_carried : e.timer.carried = 0
  buzzes_eq : e.buzzes = #[]

variable {e e' : Emulator} {program : List UInt8}

/-- Nothing else is in an emulator. -/
theorem Started.unique {settings : Settings} {keypad : Keypad} {random : RandomSource}
    (h : Started settings keypad random program e)
    (h' : Started settings keypad random program e') : e = e' := by
  have hclock : e.clock = e'.clock := by
    rw [Clock.mk.injEq, h.clock_period, h'.clock_period, h.clock_carried, h'.clock_carried]
    exact ⟨rfl, rfl⟩
  have htimer : e.timer = e'.timer := by
    rw [Clock.mk.injEq, h.timer_period, h'.timer_period, h.timer_carried, h'.timer_carried]
    exact ⟨rfl, rfl⟩
  have hv : e.machine.v = e'.machine.v :=
    Machine.ext_get fun x => (h.get_eq x).trans (h'.get_eq x).symm
  have hmemory : e.machine.memory = e'.machine.memory :=
    Memory.ext_read fun a ha => (h.read_eq a ha).trans (h'.read_eq a ha).symm
  have hscreen : e.machine.screen = e'.machine.screen :=
    Screen.ext_pixel fun x y => (h.pixel_eq x y).trans (h'.pixel_eq x y).symm
  have hmachine : e.machine = e'.machine := by
    rw [Machine.mk.injEq]
    exact ⟨hv, h.i_eq.trans h'.i_eq.symm, h.pc_eq.trans h'.pc_eq.symm,
      h.calls_eq.trans h'.calls_eq.symm, h.timers_eq.trans h'.timers_eq.symm,
      h.awaiting_eq.trans h'.awaiting_eq.symm, hmemory, hscreen,
      h.keypad_eq.trans h'.keypad_eq.symm, h.random_eq.trans h'.random_eq.symm⟩
  rw [Emulator.mk.injEq]
  exact ⟨h.settings_eq.trans h'.settings_eq.symm, hmachine, hclock, htimer,
    h.buzzes_eq.trans h'.buzzes_eq.symm⟩

theorem takeProgram_of_le {m : Memory} (hfit : program.length ≤ 3584) :
    m.takeProgram program = .ok (m.putProgram program) := if_pos hfit

theorem takeProgram_of_lt {m : Memory} (hlong : 3584 < program.length) :
    m.takeProgram program = .error (.romTooLarge program.length 3584) :=
  if_neg (Nat.not_le.mpr hlong)

/-- A program that does not fit changes nothing. -/
theorem load_of_lt (e : Emulator) (hlong : 3584 < program.length) :
    e.load program = (.error (.romTooLarge program.length 3584), e, []) := by
  unfold load
  rw [takeProgram_of_lt hlong]

/-- A program that fits is taken, and the emulator is started. -/
theorem load_started (h : Reachable e) (hfit : program.length ≤ 3584) :
    ∃ q, e.load program = (.ok (), q, [.loaded program.length]) ∧
      Started e.settings e.machine.keypad e.machine.random program q := by
  unfold load
  rw [takeProgram_of_le hfit]
  obtain ⟨hclock, htimer⟩ := h.periods
  refine ⟨_, rfl, ?_⟩
  constructor
  case read_eq => exact fun a ha => Memory.read_putProgram hfit ha
  case pixel_eq => exact Screen.pixel_dark
  case get_eq => exact fun x => Vector.getElem_replicate x.isLt
  case clock_period => exact hclock
  case timer_period => exact htimer
  all_goals rfl

/-! ### Where the size is tested -/

/-- Taking a program in place: the size is tested, everything but the keypad and
the source of random bytes is put back, the bytes are copied, which tests the
size once more, and the clocks start anew. A failure leaves what was done so
far. -/
def loadInPlace (e : Emulator) (program : List UInt8) : Except Failure Unit × Emulator :=
  if Memory.programLimit < program.length then
    (.error (.romTooLarge program.length Memory.programLimit), e)
  else
    let e := { e with machine := Machine.initial e.machine.keypad e.machine.random }
    match e.machine.memory.takeProgram program with
    | .error f => (.error f, e)
    | .ok memory =>
      let e := { e with machine := { e.machine with memory := memory, pc := Memory.programStart } }
      (.ok (), { e with clock := e.clock.reset, timer := e.timer.reset, buzzes := #[] })

/-- The second test never fails, so what is put back is never left without a
program. -/
theorem loadInPlace_eq (e : Emulator) (program : List UInt8) :
    e.loadInPlace program = ((e.load program).1, (e.load program).2.1) := by
  unfold loadInPlace
  by_cases hlong : 3584 < program.length
  · rw [load_of_lt e hlong]
    exact if_pos hlong
  · rw [load, takeProgram_of_le (Nat.le_of_not_lt hlong)]
    refine (if_neg hlong).trans ?_
    simp only [takeProgram_of_le (Nat.le_of_not_lt hlong)]
    rfl

section Files

variable {files : Files} {path : String}

theorem program_of_le (h : files.read path = .ok program) (hfit : program.length ≤ 3584) :
    files.program path = .ok program := by
  unfold Files.program
  rw [h]
  exact if_pos hfit

theorem program_of_lt (h : files.read path = .ok program) (hlong : 3584 < program.length) :
    files.program path = .error (.romTooLarge program.length 3584) := by
  unfold Files.program
  rw [h]
  exact if_neg (Nat.not_le.mpr hlong)

/-- A file that can be read is taken like its bytes. -/
theorem loadFile_of_read (e : Emulator) (h : files.read path = .ok program) :
    e.loadFile files path = ((e.load program).1, (e.load program).2.1,
      .opening path :: (e.load program).2.2) := by
  unfold loadFile
  by_cases hlong : 3584 < program.length
  · rw [program_of_lt h hlong, load_of_lt e hlong]
  · rw [program_of_le h (Nat.le_of_not_lt hlong)]

/-- A file that cannot be read changes nothing. -/
theorem loadFile_of_unread (e : Emulator) {cause : ReadError}
    (h : files.read path = .error cause) : e.loadFile files path =
      (.error (if cause = .notFound then .romNotFound path else .unreadable cause.message), e,
        [.opening path]) := by
  unfold loadFile Files.program
  rw [h]
  cases cause <;> rfl

end Files

/-- Let a program be given to an emulator in any state it gets into. It is
refused exactly if it has more than 3584 bytes, and then nothing has changed. If
it is taken, the emulator is started: it holds nothing but the settings, the
keypad and the place in the source of random bytes that it had, and what the
program determines. So any other emulator with the same three, a new one
included, becomes the very same. The test of the size that is made while the
emulator is being put back never fails. A file that holds the program is taken
just like it, and one that is missing or cannot be read changes nothing. -/
theorem load_forgets (h : Reachable e) (program : List UInt8) :
    ((∃ f, (e.load program).1 = .error f) ↔ 3584 < program.length) ∧
      (3584 < program.length →
        e.load program = (.error (.romTooLarge program.length 3584), e, [])) ∧
      (program.length ≤ 3584 → ∃ q, e.load program = (.ok (), q, [.loaded program.length]) ∧
        Started e.settings e.machine.keypad e.machine.random program q ∧
        ∀ e', Reachable e' → e'.settings = e.settings →
          e'.machine.keypad = e.machine.keypad → e'.machine.random = e.machine.random →
          e'.load program = (.ok (), q, [.loaded program.length])) ∧
      e.loadInPlace program = ((e.load program).1, (e.load program).2.1) ∧
      (∀ (files : Files) path, files.read path = .ok program →
        e.loadFile files path = ((e.load program).1, (e.load program).2.1,
          .opening path :: (e.load program).2.2)) ∧
      ∀ (files : Files) path cause, files.read path = .error cause →
        e.loadFile files path =
          (.error (if cause = .notFound then .romNotFound path else .unreadable cause.message), e,
            [.opening path]) := by
  refine ⟨⟨?_, fun hlong => ?_⟩, load_of_lt e, fun hfit => ?_, loadInPlace_eq e program,
    fun _ _ => loadFile_of_read e, fun _ _ _ => loadFile_of_unread e⟩
  · rintro ⟨f, hf⟩
    by_contra hfit
    obtain ⟨q, hq, -⟩ := load_started h (Nat.le_of_not_lt hfit)
    rw [hq] at hf
    cases hf
  · exact ⟨_, congrArg Prod.fst (load_of_lt e hlong)⟩
  · obtain ⟨q, hq, hstarted⟩ := load_started h hfit
    refine ⟨q, hq, hstarted, fun e' h' hsettings hkeypad hrandom => ?_⟩
    obtain ⟨q', hq', hstarted'⟩ := load_started h' hfit
    rw [hsettings, hkeypad, hrandom] at hstarted'
    rw [hq', hstarted'.unique hstarted]

/-- An emulator that stands still for a key in a routine, with both timers
running, after it wrote to memory and on the screen. -/
def cluttered : Emulator :=
  ((((Emulator.new .unset (.ofWords [])).load
    [0x60, 0xFF, 0xF0, 0x18, 0xF0, 0x15, 0xA3, 0x00, 0xF0, 0x33, 0xD0, 0x05, 0x22, 0x0E,
      0xF1, 0x0A]).2.1.run 8).emulator.setKey (Fin.last 15) true)

/-- Nothing of this is left once another program is taken, and all of it if the
other program is too long. -/
theorem cluttered_forgets :
    let m := cluttered.machine
    let bare := (Emulator.new .unset (.ofWords [])).setKey (Fin.last 15) true
    (m.awaiting = some 1 ∧ m.calls = [0x20E] ∧ m.timers = ⟨255, 255, true⟩ ∧
      m.memory.read 0x300 = 2 ∧ m.screen.pixel 5 31 = true) ∧
      cluttered.load [0x12, 0x00] = bare.load [0x12, 0x00] ∧
      cluttered.load (List.replicate 3585 0) = (.error (.romTooLarge 3585 3584), cluttered, []) := by
  intro m bare
  have hreach : Reachable cluttered :=
    .setKey (Fin.last 15) true (.run 8 (.load _ (.new .unset (.ofWords []))))
  have hbare : Reachable bare := .setKey (Fin.last 15) true (.new .unset (.ofWords []))
  obtain ⟨hclutter, hsettings, hkeypad, hrandom⟩ :
      (m.awaiting = some 1 ∧ m.calls = [0x20E] ∧ m.timers = ⟨255, 255, true⟩ ∧
        m.memory.read 0x300 = 2 ∧ m.screen.pixel 5 31 = true) ∧
      bare.settings = cluttered.settings ∧ bare.machine.keypad = m.keypad ∧
        bare.machine.random = m.random := by decide +kernel
  obtain ⟨-, -, htaken, -⟩ := load_forgets hreach [0x12, 0x00]
  obtain ⟨q, hq, -, hsame⟩ := htaken (by decide)
  obtain ⟨-, hrefused, -⟩ := load_forgets hreach (List.replicate 3585 0)
  rw [List.length_replicate] at hrefused
  exact ⟨hclutter, hq.trans (hsame bare hbare hsettings hkeypad hrandom).symm,
    hrefused (by decide)⟩

end Emulator
end ChipEight
