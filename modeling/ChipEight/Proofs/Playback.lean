/-
# Runs without a window

A run makes one frame after the other while fewer than planned are counted,
until one fails (`play_of_le`, `play_of_lt`). After every frame, one that fails
included, the replay has counted it, and has the screen and the buzzer of the
machine (`next_inStep`, `Follows.inStep`). So what is printed at the end is the
screen of the machine (`finish_lines`, `run_in_step`). A run that is paced comes to
the last of these frames (`playLast_pure`), and so the command to what is said of
them (`Command.executeRun_of_prepare`).

Key definitions: `Playback.InStep`, `Playback.Follows`, `Playback.ended`,
`Emulator.TimesFit`.
-/
import ChipEight.CommandLine
import ChipEight.Proofs.Emulator.Buzzes
import ChipEight.Proofs.Emulator.Loading

namespace ChipEight

open Emulator

/-- Printing the stored pixels gives the rows of the screen. -/
theorem Command.printed_eq_lines (s : Screen) : printed s = s.lines := by
  refine List.map_congr_left fun y hy => congrArg String.ofList ?_
  rw [Screen.row, List.map_map]
  have hrow : y < 32 := List.mem_range.mp hy
  apply List.ext_getElem
  · simp
    omega
  · intro x hx hx'
    have hcolumn : x < 64 := by simpa using hx'
    have hplace : x % 64 + y % 32 * 64 = 64 * y + x := by omega
    simp [Screen.pixel, Screen.lit, Screen.cell, hplace]

/-- Of the changes of the buzzer, a replay remembers the last. -/
theorem Replay.soundAll_peripherals : ∀ (r : Replay) (events : Array Event) (changes : List Bool),
    (peripherals.soundAll r events changes).1 = { r with buzzing := changes.getLastD r.buzzing }
  | _, _, [] => rfl
  | r, events, on :: changes => by
    rw [List.getLastD_cons]
    exact soundAll_peripherals { r with buzzing := on } _ changes

/-- Neither clock overflows when the listed times pass one after the other. -/
def Emulator.TimesFit (e : Emulator) (times : List ℕ) : Prop :=
  (∃ out, e.clock.elapseEach times = .ok out) ∧ ∃ out, e.timer.elapseEach times = .ok out

namespace Played

variable {r : Played}

theorem onward_of_ok {s : Signal} (h : r.outcome = .ok s) : r.onward = some r.playback := by
  rw [onward, h]

theorem onward_of_error {f : Failure} (h : r.outcome = .error f) : r.onward = none := by
  rw [onward, h]

end Played

namespace Playback

/-! ### One frame -/

/-- After `n` frames, the replay has counted and shown `n`, and what it
remembers is what the machine shows and sounds. -/
structure InStep (n : ℕ) (p : Playback) : Prop where
  frame_eq : p.replay.frame = n
  presented_eq : p.replay.presented = n
  screen_eq : p.replay.screen = p.emulator.machine.screen
  buzzing_eq : p.replay.buzzing = p.emulator.machine.timers.buzzing

variable {p : Playback} {r : Played} {elapsed : ℕ}

/-- A frame lets time pass for the machine, with the keys of the replay. -/
theorem next_eq_ok (h : p.next elapsed = .ok r) : ∃ keypad q,
    ({ p.emulator with machine := { p.emulator.machine with keypad := keypad } }).elapse elapsed =
        .ok q ∧
      r.outcome = q.outcome ∧ r.playback.emulator = { q.emulator with buzzes := #[] } ∧
      r.playback.replay.frame = p.replay.frame + 1 ∧
      r.playback.replay.presented = p.replay.presented + 1 ∧
      r.playback.replay.screen = q.emulator.machine.screen ∧
      r.playback.replay.buzzing = q.emulator.buzzes.toList.getLastD p.replay.buzzing := by
  obtain ⟨report, hreport, h⟩ := bind_eq_ok.mp h
  obtain ⟨q, hq, hreport⟩ := bind_eq_ok.mp hreport
  cases h
  cases hreport
  simp only [Replay.soundAll_peripherals]
  exact ⟨_, q, hq, rfl, rfl, rfl, rfl, rfl, rfl⟩

theorem next_frame (h : p.next elapsed = .ok r) :
    r.playback.replay.frame = p.replay.frame + 1 := by
  obtain ⟨_, _, _, _, _, hframe, -⟩ := next_eq_ok h
  exact hframe

theorem next_inStep {n : ℕ} (hp : p.InStep n) (h : p.next elapsed = .ok r) :
    r.playback.InStep (n + 1) := by
  obtain ⟨keypad, q, hq, -, hemulator, hframe, hpresented, hscreen, hbuzzing⟩ := next_eq_ok h
  constructor
  case frame_eq => rw [hframe, hp.frame_eq]
  case presented_eq => rw [hpresented, hp.presented_eq]
  case screen_eq => rw [hscreen, hemulator]
  case buzzing_eq =>
    rw [hbuzzing, hemulator, hp.buzzing_eq]
    exact (elapse_alternates hq).2

/-- A frame takes place if its time fits. -/
theorem next_of_clocks {steps ticks : ℕ} {clock timer : Clock}
    (hs : p.emulator.clock.elapse elapsed = .ok (steps, clock))
    (ht : p.emulator.timer.elapse elapsed = .ok (ticks, timer)) : ∃ r, p.next elapsed = .ok r ∧
      r.playback.emulator.clock = clock ∧ r.playback.emulator.timer = timer := by
  have hq := elapse_eq_drive (e := { p.emulator with machine := { p.emulator.machine with
    keypad := Replay.applyKeys p.emulator.machine.keypad p.replay.due } }) hs ht
  refine ⟨_, bind_eq_ok.mpr ⟨_, bind_eq_ok.mpr ⟨_, hq, rfl⟩, rfl⟩, ?_⟩
  simp only
  rw [drive_frame]
  exact ⟨rfl, rfl⟩

/-! ### The frames of a run -/

/-- Each frame comes from the playback that the one before it left; the frame
counted `k` takes the time `elapsed k`. -/
def Follows (elapsed : ℕ → ℕ) : Playback → List Played → Prop
  | _, [] => True
  | p, r :: rest => p.next (elapsed p.replay.frame) = .ok r ∧ Follows elapsed r.playback rest

/-- The playback that a run leaves. -/
def ended (p : Playback) (played : List Played) : Playback :=
  match played.getLast? with
  | some r => r.playback
  | none => p

section Run

variable {elapsed : ℕ → ℕ} {frames : ℕ} {played : List Played}

/-- After every frame of a run, the replay is in step. -/
theorem Follows.inStep : ∀ {played : List Played} {p : Playback} {n : ℕ}, p.InStep n →
    Follows elapsed p played → ∀ {k : ℕ} {r : Played}, played[k]? = some r →
      r.playback.InStep (n + k + 1)
  | [], _, _, _, _, _, _, hk => by cases hk
  | first :: rest, p, n, hp, ⟨hfirst, hrest⟩, k, r, hk => by
    have hnext : first.playback.InStep (n + 1) := next_inStep hp hfirst
    cases k with
    | zero =>
      cases hk
      exact hnext
    | succ k =>
      have hlater := Follows.inStep hnext hrest hk
      rwa [Nat.add_right_comm n 1 k] at hlater

theorem Follows.inStep_ended (hp : p.InStep 0) (h : Follows elapsed p played) :
    (p.ended played).InStep played.length := by
  unfold ended
  rcases List.eq_nil_or_concat played with rfl | ⟨before, r, rfl⟩
  · exact hp
  · have hlast : (before.concat r)[before.length]? = some r := by simp
    have hr := h.inStep hp hlast
    simpa using hr

theorem play_of_le (h : frames ≤ p.replay.frame) : p.play frames elapsed = .ok [] := by
  rw [play, Nat.sub_eq_zero_of_le h]
  rfl

/-- The run goes on while fewer frames than planned are counted, and stops at
the first that fails. -/
theorem play_of_lt (h : p.replay.frame < frames) : p.play frames elapsed = (do
    let r ← p.next (elapsed p.replay.frame)
    match r.onward with
    | some p => return r :: (← p.play frames elapsed)
    | none => return [r]) := by
  obtain ⟨n, hn⟩ : ∃ n, frames - p.replay.frame = n + 1 := ⟨_, (Nat.succ_pred (by omega)).symm⟩
  rw [play, hn, playFor]
  cases hnext : p.next (elapsed p.replay.frame) with
  | error o => rfl
  | ok r =>
    dsimp only [bind, Except.bind]
    cases hout : r.outcome with
    | error f => rw [Played.onward_of_error hout]
    | ok s =>
      have hrest : r.playback.play frames elapsed = playFor elapsed n r.playback := by
        rw [play, next_frame hnext, ← Nat.sub_sub, hn, Nat.add_sub_cancel]
      simp only [Played.onward_of_ok hout, hrest]

/-- What came of a run: frames that follow each other, as many as were left if
none failed, and none after one that failed. -/
theorem play_follows : ∀ {n : ℕ} {p : Playback} {played : List Played},
    frames - p.replay.frame = n → p.play frames elapsed = .ok played →
    Follows elapsed p played ∧ ((∀ r ∈ played, ∃ s, r.outcome = .ok s) → played.length = n) ∧
      ∀ {k : ℕ} {r : Played} {f : Failure}, played[k]? = some r → r.outcome = .error f →
        played.length = k + 1
  | 0, p, played, hn, h => by
    rw [play_of_le (Nat.sub_eq_zero_iff_le.mp hn)] at h
    cases h
    exact ⟨trivial, fun _ => rfl, nofun⟩
  | n + 1, p, played, hn, h => by
    rw [play_of_lt (by omega)] at h
    obtain ⟨first, hfirst, h⟩ := bind_eq_ok.mp h
    have hframe := next_frame hfirst
    rcases hout : first.outcome with f | s
    · rw [Played.onward_of_error hout] at h
      cases h
      refine ⟨⟨hfirst, trivial⟩, fun hall => ?_, fun {k r f} hk _ => ?_⟩
      · obtain ⟨s, hs⟩ := hall first (List.mem_singleton_self _)
        rw [hs] at hout
        cases hout
      · cases k with
        | zero => rfl
        | succ k => cases hk
    · rw [Played.onward_of_ok hout] at h
      obtain ⟨rest, hrest, h⟩ := bind_eq_ok.mp h
      cases h
      obtain ⟨hfollows, hall, hfailed⟩ := play_follows (n := n) (by omega) hrest
      refine ⟨⟨hfirst, hfollows⟩, fun hok => ?_, fun {k r f} hk hf => ?_⟩
      · exact congrArg Nat.succ (hall fun r hr => hok r (List.mem_cons_of_mem _ hr))
      · cases k with
        | zero =>
          cases hk
          rw [hout] at hf
          cases hf
        | succ k => exact congrArg Nat.succ (hfailed hk hf)

/-- A run takes place if its times fit. -/
theorem play_of_fit : ∀ {n : ℕ} {p : Playback}, frames - p.replay.frame = n →
    p.emulator.TimesFit ((List.range' p.replay.frame n).map elapsed) →
    ∃ played, p.play frames elapsed = .ok played
  | 0, p, hn, _ => ⟨[], play_of_le (Nat.sub_eq_zero_iff_le.mp hn)⟩
  | n + 1, p, hn, ⟨⟨_, hclock⟩, ⟨_, htimer⟩⟩ => by
    obtain ⟨steps, clock, ns, hs, hclocks, -⟩ := Clock.elapseEach_cons hclock
    obtain ⟨ticks, timer, ks, ht, htimers, -⟩ := Clock.elapseEach_cons htimer
    obtain ⟨r, hr, hrclock, hrtimer⟩ := next_of_clocks hs ht
    have hframe := next_frame hr
    rcases hout : r.outcome with f | s
    · refine ⟨[r], ?_⟩
      rw [play_of_lt (by omega)]
      exact bind_eq_ok.mpr ⟨r, hr, by rw [Played.onward_of_error hout]; rfl⟩
    · have hfit : r.playback.emulator.TimesFit
          ((List.range' r.playback.replay.frame n).map elapsed) := by
        rw [hframe, TimesFit, hrclock, hrtimer]
        exact ⟨⟨_, hclocks⟩, ⟨_, htimers⟩⟩
      obtain ⟨rest, hrest⟩ := play_of_fit (by omega) hfit
      refine ⟨r :: rest, ?_⟩
      rw [play_of_lt (by omega)]
      refine bind_eq_ok.mpr ⟨r, hr, ?_⟩
      rw [Played.onward_of_ok hout]
      exact bind_eq_ok.mpr ⟨rest, hrest, rfl⟩

end Run

/-! ### Paced runs -/

section Paced

variable {m : Type → Type} [Monad m] [LawfulMonad m]

/-- With the time of every frame known, a run that keeps the last frame comes to the
last one of those that a run tells of. -/
theorem playLastFor_pure (elapsed : ℕ → ℕ) : ∀ (n : ℕ) (p : Playback) (last : Option Played),
    playLastFor (fun k => (pure (elapsed k) : m ℕ)) n p last =
      pure ((playFor elapsed n p).map fun played => played.getLast?.or last)
  | 0, _, _ => rfl
  | n + 1, p, last => by
    rw [playLastFor, playFor, pure_bind]
    cases hnext : p.next (elapsed p.replay.frame) with
    | error o => rfl
    | ok r =>
      dsimp only [bind, Except.bind]
      cases hout : r.outcome with
      | error f =>
        simp only [Played.onward_of_error hout]
        rfl
      | ok s =>
        simp only [Played.onward_of_ok hout, playLastFor_pure elapsed n r.playback (some r)]
        cases playFor elapsed n r.playback with
        | error o => rfl
        | ok rest =>
          have hlast : rest.getLast?.or (some r) = (r :: rest).getLast?.or last := by
            rw [List.getLast?_cons, Option.or_some, Option.some_or]
          simp only [Except.map, hlast]
          rfl

theorem playLast_pure (p : Playback) (frames : ℕ) (elapsed : ℕ → ℕ) :
    p.playLast frames (fun k => (pure (elapsed k) : m ℕ)) =
      pure ((p.play frames elapsed).map List.getLast?) := by
  simp only [playLast, play, playLastFor_pure, Option.or_none]

end Paced

end Playback

/-! ### The command -/

namespace Command

/-- The plan that `run` reads at a path, if it is given one. -/
def planAt (files : Files) : Option String → Except RunError Plan
  | some path => Plan.ofFile files path
  | none => .ok .unset

/-- What is printed in the end is the screen that the replay remembers. -/
theorem finish_lines (p : Playback) (played : List Played) :
    (finish p played).lines = (p.ended played).replay.screen.lines := by
  unfold finish Playback.ended
  cases played.getLast? with
  | none => exact printed_eq_lines p.replay.screen
  | some r => exact printed_eq_lines r.playback.replay.screen

/-- The last frame is all that the end of a run needs. -/
theorem finish_getLast? (p : Playback) (played : List Played) :
    finish p played.getLast?.toList = finish p played := by
  unfold finish
  cases played.getLast? <;> rfl

/-- Where only the last frame can fail, those before it did not. -/
theorem isOk_before {before : List Played} {last : Played}
    (honly : ∀ {k : ℕ} {r : Played} {f : Failure}, (before ++ [last])[k]? = some r →
      r.outcome = .error f → (before ++ [last]).length = k + 1) :
    (before.all fun r => r.outcome.isOk) = true := by
  refine List.all_eq_true.mpr fun r hr => ?_
  obtain ⟨k, hk⟩ := List.getElem?_of_mem hr
  have hlt : k < before.length := (List.getElem?_eq_some_iff.mp hk).1
  have hat : (before ++ [last])[k]? = some r := by rw [List.getElem?_append_left hlt, hk]
  cases hout : r.outcome with
  | ok s => rfl
  | error f =>
    have hlength := honly hat hout
    rw [List.length_append, List.length_singleton] at hlength
    omega

/-- The code tells whether a frame failed, if only the last can. -/
theorem finish_code (p : Playback) {played : List Played}
    (honly : ∀ {k : ℕ} {r : Played} {f : Failure}, played[k]? = some r → r.outcome = .error f →
      played.length = k + 1) : (finish p played).code =
        if played.all fun r => r.outcome.isOk then Exit.success else Exit.failed := by
  rcases List.eq_nil_or_concat' played with rfl | ⟨before, last, rfl⟩
  · rfl
  · have hall : ((before ++ [last]).all fun r => r.outcome.isOk) = last.outcome.isOk := by
      rw [List.all_append, isOk_before honly, Bool.true_and, List.all_cons, List.all_nil,
        Bool.and_true]
    rw [hall, finish, List.getLast?_concat]
    show exitCode last.outcome = if last.outcome.isOk then Exit.success else Exit.failed
    cases last.outcome <;> rfl

variable {files : Files} {rom : String} {path : Option String} {plan : Plan} {entropy : UInt64}
  {program : List UInt8} {p : Playback} {frames : ℕ}

/-- What the command prints, once it has a playback. -/
theorem executeRun_of_prepare (h : prepare files rom path entropy = .ok (p, frames))
    (elapsed : ℕ → ℕ) : executeRun files elapsed entropy rom path =
      match p.play frames elapsed with
      | .ok played => ⟨(finish p played).code, banner :: (finish p played).lines⟩
      | .error _ => ⟨Exit.failed, [banner]⟩ := by
  unfold executeRun
  simp only [h, Playback.playLast_pure, Id.run_pure]
  cases p.play frames elapsed with
  | error o => rfl
  | ok played =>
    exact congrArg (fun e : Exit => Exit.mk e.code (banner :: e.lines)) (finish_getLast? p played)

/-- A plan and a program that can be read make a playback. -/
theorem prepare_of_read (hplan : planAt files path = .ok plan)
    (hrom : files.read rom = .ok program)
    (hload : (Playback.ofPlan plan entropy).load program = .ok p) :
    prepare files rom path entropy = .ok (p, plan.frames.getD defaultFrames) := by
  unfold Playback.load at hload
  split at hload
  · next e events he =>
    cases hload
    have hfile := loadFile_of_read (Playback.ofPlan plan entropy).emulator hrom
    rw [he] at hfile
    cases path <;> exact bind_eq_ok.mpr ⟨plan, hplan, by simp only [hfile]⟩
  · cases hload

end Command

namespace Playback

/-- Let a program of at most 3584 bytes be played by a plan. If the times of the
frames fit, the run takes place. It makes as many frames as planned, or up to
the first that fails, that one included. After every number of frames the replay
has counted so many, has shown so many screens, and has the screen and the
buzzer of the machine. So what is printed at the end is the machine's screen,
whatever ended the run, and also if there was no frame: given the plan and the
program in files, `run` prints its banner and that screen, and exits with the code
for success if no frame failed. -/
theorem run_in_step (plan : Plan) (entropy : UInt64) {program : List UInt8}
    (hfit : program.length ≤ 3584) (elapsed : ℕ → ℕ) :
    let frames := plan.frames.getD Command.defaultFrames
    ∃ p, (ofPlan plan entropy).load program = .ok p ∧ p.InStep 0 ∧
      (∀ files rom path, Command.planAt files path = .ok plan → files.read rom = .ok program →
        Command.prepare files rom path entropy = .ok (p, frames)) ∧
      (p.emulator.TimesFit ((List.range frames).map elapsed) →
        ∃ played, p.play frames elapsed = .ok played) ∧
      ∀ played, p.play frames elapsed = .ok played →
        Follows elapsed p played ∧
        ((∀ r ∈ played, ∃ s, r.outcome = .ok s) → played.length = frames) ∧
        (∀ (k : ℕ) (r : Played) f, played[k]? = some r → r.outcome = .error f →
          played.length = k + 1) ∧
        (∀ (k : ℕ) (r : Played), played[k]? = some r → r.playback.InStep (k + 1)) ∧
        (p.ended played).InStep played.length ∧
        String.join ((Command.finish p played).lines.map (· ++ "\n")) =
          (p.ended played).emulator.machine.screen.text ∧
        ∀ files rom path, Command.planAt files path = .ok plan → files.read rom = .ok program →
          Command.executeRun files elapsed entropy rom path =
            ⟨if played.all fun r => r.outcome.isOk then Exit.success else Exit.failed,
              Command.banner :: (p.ended played).emulator.machine.screen.lines⟩ := by
  intro frames
  obtain ⟨e, he, hstarted⟩ :=
    load_started (.new plan.settings (plan.settings.randomSource entropy)) hfit
  have hload : (ofPlan plan entropy).load program = .ok ⟨e, .ofKeys plan.keys⟩ := by
    unfold load
    simp only [ofPlan, he]
  have hstart : InStep 0 ⟨e, .ofKeys plan.keys⟩ := by
    constructor
    case screen_eq =>
      exact Screen.ext_pixel fun x y => (Screen.pixel_dark x y).trans (hstarted.pixel_eq x y).symm
    case buzzing_eq =>
      rw [hstarted.timers_eq]
      rfl
    all_goals rfl
  refine ⟨_, hload, hstart, fun files rom path hplan hrom =>
    Command.prepare_of_read hplan hrom hload, fun hfits => ?_, fun played hplay => ?_⟩
  · rw [List.range_eq_range'] at hfits
    exact play_of_fit rfl hfits
  · obtain ⟨hfollows, hall, hfailed⟩ := play_follows rfl hplay
    have hended := hfollows.inStep_ended hstart
    refine ⟨hfollows, hall, fun k r f => hfailed, fun k r hk => ?_, hended, ?_,
      fun files rom path hplan hrom => ?_⟩
    · have hr := hfollows.inStep hstart hk
      rwa [Nat.zero_add] at hr
    · rw [Command.finish_lines, hended.screen_eq]
      rfl
    · have hprepare := Command.prepare_of_read hplan hrom hload
      rw [Command.executeRun_of_prepare hprepare, hplay]
      simp only [Command.finish_code _ hfailed, Command.finish_lines, hended.screen_eq]

/-- Sixty instructions a second, for ten frames. -/
def unhurried : Plan := ⟨⟨some 60, .modern, none⟩, some 10, []⟩

/-- A program that turns the buzzer on, draws, and fails at its fourth word. -/
def doomed : List UInt8 := [0x60, 0x05, 0xF0, 0x18, 0xD0, 0x05, 0xFF, 0xFF]

/-- The program before its first frame. -/
def awaitingDoom : Playback := ⟨((ofPlan unhurried 0).emulator.load doomed).2.1, .ofKeys []⟩

/-- The program and its plan in files. -/
def doomedFiles : Files := .ofList [("doomed.rom", .ok doomed),
  ("doomed.yaml", .ok "frames: 10\nvm:\n  clock_frequency: 60\n".toUTF8.toList)]

/-- With an instruction in every frame, the fourth frame is the last. The replay
has counted it, and has the screen that was drawn and the buzzer that is on. The
command prints that screen and fails. -/
theorem doomed_in_step : ∃ played, awaitingDoom.play 10 (fun _ => 16666666) = .ok played ∧
    played.length = 4 ∧ (awaitingDoom.ended played).InStep 4 ∧
    (awaitingDoom.ended played).replay.buzzing = true ∧
    (awaitingDoom.ended played).replay.screen.pixel 5 5 = true ∧
    Command.executeRun doomedFiles (fun _ => 16666666) 0 "doomed.rom" (some "doomed.yaml") =
      ⟨Exit.failed, Command.banner :: (awaitingDoom.ended played).emulator.machine.screen.lines⟩ := by
  obtain ⟨p, hload, -, -, hplay, hrun⟩ :=
    run_in_step unhurried 0 (show doomed.length ≤ 3584 by decide) fun _ => 16666666
  obtain rfl : p = awaitingDoom := Except.ok.inj (hload.symm.trans rfl)
  have hfits : awaitingDoom.emulator.TimesFit ((List.range 10).map fun _ => 16666666) :=
    ⟨⟨_, rfl⟩, ⟨_, rfl⟩⟩
  obtain ⟨played, hplayed⟩ := hplay hfits
  have hseen : (do
      let played ← awaitingDoom.play 10 fun _ => 16666666
      let m := (awaitingDoom.ended played).emulator.machine
      return (played[3]?.map Played.outcome, m.timers.buzzing, m.screen.pixel 5 5)) =
      (.ok (some (.error (.invalidOpcode 0xFFFF 0x206)), true, true) : Except Overflow _) := by
    decide +kernel
  obtain ⟨played', hplayed', hreturn⟩ := bind_eq_ok.mp hseen
  obtain rfl := Except.ok.inj (hplayed'.symm.trans hplayed)
  have hends := Except.ok.inj hreturn
  simp only [Prod.mk.injEq] at hends
  obtain ⟨hfailure, hbuzzing, hpixel⟩ := hends
  obtain ⟨r, hr, hf⟩ := Option.map_eq_some_iff.mp hfailure
  obtain ⟨-, -, hfailed, -, hended, -, hcommand⟩ := hrun played' hplayed
  have hlength : played'.length = 4 := hfailed 3 r _ hr hf
  rw [hlength] at hended
  -- the plan and the program are read from their files
  have hanswer := hcommand doomedFiles "doomed.rom" (some "doomed.yaml") (by decide +kernel)
    (by decide +kernel)
  have hsome : played'.all (fun r => r.outcome.isOk) = false :=
    List.all_eq_false.mpr ⟨r, List.mem_of_getElem? hr, by rw [hf]; nofun⟩
  rw [hsome] at hanswer
  exact ⟨played', hplayed, hlength, hended, hended.buzzing_eq.trans hbuzzing,
    hended.screen_eq ▸ hpixel, hanswer⟩

end Playback
end ChipEight
