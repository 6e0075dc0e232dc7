/-
# What the audio device hears

In a frame the audio device is told of every change of the buzzer, so what it
was told last is the state of the buzzer, if it was so before the frame
(`frame_listening`). A program that is loaded starts with the buzzer off, and
the device is not told: if the buzzer was on, the device stays on until the new
program changes the buzzer. This is the only way for the two to disagree
(`agrees_iff`, `stays_on`).

Key definitions: `Peripherals.listening`, `Session`.
-/
import ChipEight.Proofs.Emulator.Buzzes

namespace ChipEight

variable {σ : Type}

/-- The same peripherals, with all that the audio device was told. -/
def Peripherals.listening (d : Peripherals σ) : Peripherals (σ × List Bool) where
  readKeys p keypad :=
    let (s, keypad, events) := d.readKeys p.1 keypad
    ((s, p.2), keypad, events)
  sound p on :=
    let (s, events) := d.sound p.1 on
    ((s, p.2 ++ [on]), events)
  present p screen := (d.present p.1 screen, p.2)

theorem soundAll_listening (d : Peripherals σ) :
    ∀ (l : List Bool) (p : σ × List Bool) (events : Array Event),
      d.listening.soundAll p events l =
        (((d.soundAll p.1 events l).1, p.2 ++ l), (d.soundAll p.1 events l).2)
  | [], p, events => by
    rw [List.append_nil]
    rfl
  | on :: l, p, events => by
    have ih := soundAll_listening d l ((d.sound p.1 on).1, p.2 ++ [on])
      (events ++ (d.sound p.1 on).2)
    rw [List.append_cons]
    exact ih

namespace Emulator

/-- Listening changes nothing in a frame. What the device is told in it
alternates, and leads from the buzzer's state before to its state after. -/
theorem frame_listening {d : Peripherals σ} {p : σ × List Bool} {e : Emulator} {elapsed : ℕ}
    {r : FrameReport (σ × List Bool)} (h : e.frame d.listening p elapsed = .ok r) :
    ∃ q told, e.frame d p.1 elapsed = .ok q ∧
      r = ⟨q.outcome, q.emulator, (q.peripherals, p.2 ++ told), q.events⟩ ∧
      (e.machine.timers.buzzing :: told).IsChain (· ≠ ·) ∧
      told.getLastD e.machine.timers.buzzing = q.emulator.machine.timers.buzzing := by
  obtain ⟨q, hq, h⟩ := bind_eq_ok.mp h
  obtain ⟨halternate, hlast⟩ := elapse_alternates hq
  rw [soundAll_listening] at h
  cases h
  exact ⟨_, q.emulator.buzzes.toList, bind_eq_ok.mpr ⟨q, hq, rfl⟩, rfl, halternate, hlast⟩

theorem load_buzzing {e : Emulator} {program : List UInt8} (h : (e.load program).1 = .ok ()) :
    (e.load program).2.1.machine.timers.buzzing = false := by
  unfold load at h ⊢
  split at h
  · rfl
  · cases h

theorem load_refused {e : Emulator} {program : List UInt8} {f : Failure}
    (h : (e.load program).1 = .error f) : (e.load program).2.1 = e := by
  unfold load at h ⊢
  split at h
  · cases h
  · rfl

end Emulator

open Emulator

/-- What an audio device was told, and the emulator, after frames and loads in
any order. A session is stale if a program was taken while the buzzer was on,
or the session was stale, and the device was told nothing since. -/
inductive Session (d : Peripherals σ) (start : σ) : Bool → σ × List Bool → Emulator → Prop
  | new (settings : Settings) (random : RandomSource) :
    Session d start false (start, []) (.new settings random)
  | load {stale : Bool} {p : σ × List Bool} {e : Emulator} {program : List UInt8} :
    Session d start stale p e → (e.load program).1 = .ok () →
    Session d start (stale || e.machine.timers.buzzing) p (e.load program).2.1
  | refused {stale : Bool} {p : σ × List Bool} {e : Emulator} {program : List UInt8} {f : Failure} :
    Session d start stale p e → (e.load program).1 = .error f →
    Session d start stale p (e.load program).2.1
  | frame {stale : Bool} {p : σ × List Bool} {e : Emulator} {elapsed : ℕ}
    {r : FrameReport (σ × List Bool)} :
    Session d start stale p e → e.frame d.listening p elapsed = .ok r →
    Session d start (stale && r.peripherals.2 == p.2) r.peripherals r.emulator

namespace Session

variable {d : Peripherals σ} {start : σ} {stale : Bool} {p : σ × List Bool} {e : Emulator}

theorem getLastD_told (h : Session d start stale p e) :
    p.2.getLastD false = (e.machine.timers.buzzing || stale) ∧
      (stale = true → e.machine.timers.buzzing = false) := by
  induction h with
  | new settings random => exact ⟨rfl, nofun⟩
  | load hs hok ih =>
    rw [load_buzzing hok]
    refine ⟨?_, fun _ => rfl⟩
    rw [ih.1, Bool.false_or, Bool.or_comm]
  | refused hs hf ih =>
    rw [load_refused hf]
    exact ih
  | @frame stale p e elapsed r hs hr ih =>
    obtain ⟨q, told, -, rfl, -, hlast⟩ := frame_listening hr
    cases told with
    | nil =>
      have hsame : e.machine.timers.buzzing = q.emulator.machine.timers.buzzing := hlast
      simp only [List.append_nil, beq_self_eq_true, Bool.and_true, ← hsame]
      exact ih
    | cons on rest =>
      have hmore : (p.2 ++ on :: rest == p.2) = false :=
        beq_eq_false_iff_ne.mpr fun h => List.cons_ne_nil on rest (List.append_right_eq_self.mp h)
      have hend : (p.2 ++ on :: rest).getLastD false = q.emulator.machine.timers.buzzing := by
        rw [← hlast, List.getLastD_eq_getLast?, List.getLastD_eq_getLast?,
          List.getLast?_append_cons, List.getLast?_cons]
        rfl
      simp only [hmore, Bool.and_false, Bool.or_false]
      exact ⟨hend, nofun⟩

/-- What the device was told last, off if it was told nothing, is the state of
the buzzer exactly if the session is not stale; in a stale session the device is
on and the buzzer off. So the two agree as long as no program is taken while the
buzzer is on. -/
theorem agrees_iff (h : Session d start stale p e) :
    (p.2.getLastD false = e.machine.timers.buzzing ↔ stale = false) ∧
      (stale = true → p.2.getLastD false = true ∧ e.machine.timers.buzzing = false) := by
  obtain ⟨hlast, hoff⟩ := h.getLastD_told
  rw [hlast]
  cases stale with
  | false =>
    rw [Bool.or_false]
    exact ⟨iff_of_true rfl rfl, nofun⟩
  | true =>
    rw [hoff rfl]
    exact ⟨iff_of_false nofun nofun, fun _ => ⟨rfl, rfl⟩⟩

end Session

/-- An emulator of a hundred instructions a second, with a program that turns
the buzzer on and does nothing more. -/
def humming : Emulator :=
  ((Emulator.new ⟨some 100, .modern, none⟩ (.ofWords [])).load
    [0x60, 0xFF, 0xF0, 0x18, 0x12, 0x04]).2.1

/-- After a frame the device is on, and so is the buzzer. -/
theorem humming_heard : ∃ r,
    humming.frame Peripherals.absent.listening ((), []) 20000000 = .ok r ∧
      Session Peripherals.absent () false r.peripherals r.emulator ∧
      r.peripherals.2 = [true] ∧ r.emulator.machine.timers.buzzing = true := by
  have hrun : (do
      let r ← humming.frame Peripherals.absent.listening ((), []) 20000000
      return r.peripherals.2) = .ok [true] := by decide +kernel
  obtain ⟨r, hr, hreturn⟩ := bind_eq_ok.mp hrun
  have htold : r.peripherals.2 = [true] := Except.ok.inj hreturn
  have hstart : Session Peripherals.absent () false ((), []) humming :=
    .load (.new ⟨some 100, .modern, none⟩ (.ofWords [])) rfl
  have hsession : Session Peripherals.absent () false r.peripherals r.emulator := hstart.frame hr
  have hagree := hsession.agrees_iff.1.mpr rfl
  rw [htold] at hagree
  exact ⟨r, hr, hsession, htold, hagree.symm⟩

/-- Taking a program that never turns the buzzer on leaves the device on. -/
theorem stays_on : ∃ r q,
    humming.frame Peripherals.absent.listening ((), []) 20000000 = .ok r ∧
      r.emulator.machine.timers.buzzing = true ∧ (r.emulator.load [0x12, 0x00]).1 = .ok () ∧
      (r.emulator.load [0x12, 0x00]).2.1.frame Peripherals.absent.listening r.peripherals 20000000 =
        .ok q ∧
      q.peripherals.2.getLastD false = true ∧ q.emulator.machine.timers.buzzing = false := by
  have hrun : (do
      let r ← humming.frame Peripherals.absent.listening ((), []) 20000000
      let q ← (r.emulator.load [0x12, 0x00]).2.1.frame Peripherals.absent.listening r.peripherals
        20000000
      return (r.emulator.machine.timers.buzzing, (r.emulator.load [0x12, 0x00]).1,
        q.peripherals.2, q.emulator.machine.timers.buzzing)) =
      .ok (true, .ok (), [true], false) := by decide +kernel
  obtain ⟨r, hr, hrest⟩ := bind_eq_ok.mp hrun
  obtain ⟨q, hq, hreturn⟩ := bind_eq_ok.mp hrest
  obtain ⟨hon, hload, htold, hoff⟩ : r.emulator.machine.timers.buzzing = true ∧
      (r.emulator.load [0x12, 0x00]).1 = .ok () ∧ q.peripherals.2 = [true] ∧
      q.emulator.machine.timers.buzzing = false := by
    simpa only [Prod.mk.injEq] using Except.ok.inj hreturn
  exact ⟨r, q, hr, hon, hload, hq, by rw [htold]; rfl, hoff⟩

end ChipEight
