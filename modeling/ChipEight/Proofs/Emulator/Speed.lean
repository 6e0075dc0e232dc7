/-
# An emulator of a given speed

Slices of time that pass without a failure come to one plan of steps and ticks,
all of which are done (`elapseEach_drive`). It holds as many steps as the clock
makes due, so an emulator carries out at least as many instructions as its
settings ask for, up to one in a nanosecond (`speed_kept`). With more than that
it carries out none (`too_fast`).
-/
import ChipEight.Proofs.Clock.Speed
import ChipEight.Proofs.Emulator.Loading
import ChipEight.Proofs.Emulator.Slicing

namespace ChipEight
namespace Emulator

/-! ### One plan after another -/

/-- What is done does not depend on the clocks, the changes noted or the signal
before. -/
theorem drive_machine : ∀ (plan : List Due) {e f : Emulator} (s s' : Signal),
    e.settings = f.settings → e.machine = f.machine →
      (drive plan e s).done = (drive plan f s').done ∧
        (drive plan e s).emulator.machine = (drive plan f s').emulator.machine
  | [], _, _, _, _, _, hm => ⟨rfl, hm⟩
  | .tick :: plan, e, f, s, s', hs, hm => by
    obtain ⟨hdone, hmachine⟩ := drive_machine plan (e := e.tick.2.1) (f := f.tick.2.1) s s' hs
      (congrArg (fun m => m.tick.1) hm)
    exact ⟨congrArg (List.cons Due.tick) hdone, hmachine⟩
  | .step :: plan, e, f, s, s', hs, hm => by
    have hreaction : e.machine.step e.settings.dialect = f.machine.step f.settings.dialect := by
      rw [hs, hm]
    have hout : e.step.outcome = f.step.outcome := congrArg Reaction.outcome hreaction
    have hmachine : e.step.emulator.machine = f.step.emulator.machine :=
      congrArg Reaction.machine hreaction
    cases hstep : f.step.outcome with
    | error failure =>
      rw [drive_step_error (hout.trans hstep), drive_step_error hstep]
      exact ⟨rfl, hmachine⟩
    | ok next =>
      rw [drive_step_ok (hout.trans hstep), drive_step_ok hstep]
      obtain ⟨hdone, hend⟩ := drive_machine plan (e := e.step.emulator)
        (f := f.step.emulator) next next hs hmachine
      exact ⟨congrArg (List.cons Due.step) hdone, hend⟩

/-- What is done of two plans, the first of which can be done in full. -/
theorem drive_append : ∀ {p : List Due} (q : List Due) {e : Emulator} {s : Signal} (s' : Signal),
    (drive p e s).done = p →
      (drive (p ++ q) e s).done = p ++ (drive q (drive p e s).emulator s').done ∧
        (drive (p ++ q) e s).emulator.machine =
          (drive q (drive p e s).emulator s').emulator.machine
  | [], q, _, s, s', _ => drive_machine q s s' rfl rfl
  | .tick :: p, q, e, s, s', h => by
    obtain ⟨hdone, hmachine⟩ := drive_append q (e := e.tick.2.1) s' (List.cons.inj h).2
    exact ⟨congrArg (List.cons Due.tick) hdone, hmachine⟩
  | .step :: p, q, e, s, s', h => by
    cases hstep : e.step.outcome with
    | error failure =>
      rw [drive_step_error hstep] at h
      cases h
    | ok next =>
      rw [drive_step_ok hstep] at h
      rw [List.cons_append, drive_step_ok hstep, drive_step_ok hstep]
      obtain ⟨hdone, hmachine⟩ := drive_append q s' (List.cons.inj h).2
      exact ⟨congrArg (List.cons Due.step) hdone, hmachine⟩

/-! ### The instructions of all slices -/

theorem drive_settings (plan : List Due) (e : Emulator) (s : Signal) :
    (drive plan e s).emulator.settings = e.settings := by
  rw [drive_frame]

/-- A slice that does not fail is a plan, all of which is done, with the steps that
the clock makes due. -/
theorem elapse_drive {e : Emulator} {t : ℕ} {r : Report} (hr : e.elapse t = .ok r)
    (hok : ∃ s, r.outcome = .ok s) : ∃ plan,
      e.clock.elapse t = .ok (plan.count .step, r.emulator.clock) ∧
        (drive plan e .quiet).done = plan ∧
          r.emulator.machine = (drive plan e .quiet).emulator.machine ∧
            r.emulator.settings = e.settings := by
  obtain ⟨steps, clock, ticks, timer, hs, ht, -⟩ := elapse_eq_ok.mp hr
  obtain rfl := Except.ok.inj (hr.symm.trans (elapse_eq_drive hs ht))
  obtain ⟨s, hok⟩ := hok
  have hclock : (drive (Batch.spread steps ticks) (e.atBatch clock timer) .quiet).emulator.clock =
      clock := congrArg Emulator.clock (drive_frame _ _ _)
  obtain ⟨hdone, hmachine⟩ := drive_machine (Batch.spread steps ticks)
    (e := e.atBatch clock timer) (f := e) .quiet .quiet rfl rfl
  refine ⟨Batch.spread steps ticks, ?_, hdone.symm.trans (done_of_ok _ hok), hmachine,
    drive_settings _ _ _⟩
  rw [Batch.count_step_spread, hs]
  exact congrArg (fun c => Except.ok (steps, c)) hclock.symm

/-- Slices of time, none of which fails, come to one plan, all of which is done,
with the steps that the clock makes due. -/
theorem elapseEach_drive : ∀ {ts : List ℕ} {e e' : Emulator} {rs : List Report},
    e.elapseEach ts = .ok (rs, e') → (∀ r ∈ rs, ∃ s, r.outcome = .ok s) →
      ∃ ns plan, e.clock.elapseEach ts = .ok (ns, e'.clock) ∧ plan.count .step = ns.sum ∧
        (drive plan e .quiet).done = plan ∧ (drive plan e .quiet).emulator.machine = e'.machine
  | [], e, _, _, h, _ => by
    cases h
    exact ⟨[], [], rfl, rfl, rfl, rfl⟩
  | t :: ts, e, e', _, h, hall => by
    obtain ⟨r, rs, hr, hrs, rfl⟩ := elapseEach_cons.mp h
    obtain ⟨hok, hrest⟩ := List.forall_mem_cons.mp hall
    obtain ⟨batch, hs, hbatch, hmachine, hsettings⟩ := elapse_drive hr hok
    obtain ⟨ns, plan, hns, hcount, hplan, hend⟩ := elapseEach_drive hrs hrest
    -- the rest of the plan starts from where the first slice leaves off
    obtain ⟨hdone, hlast⟩ := drive_append plan .quiet hbatch
    obtain ⟨hdone', hlast'⟩ := drive_machine plan .quiet .quiet
      (hsettings.trans (drive_settings batch e .quiet).symm) hmachine
    refine ⟨batch.count .step :: ns, batch ++ plan, ?_, ?_, ?_, ?_⟩
    · exact bind_eq_ok.mpr ⟨_, hs, bind_eq_ok.mpr ⟨_, hns, rfl⟩⟩
    · rw [List.count_append, hcount, List.sum_cons]
    · rw [hdone, ← hdone', hplan]
    · rw [hlast, ← hlast', hend]

/-- A clock of `hz` cycles a second, of which at most one falls in a nanosecond,
makes at least as many due as fit in the time that has passed, whatever the
slices; and while no instruction fails, an emulator carries out at least that
many. At a higher speed no cycle ever becomes due, as at none. -/
theorem speed_kept (hz : ℕ) :
    (∀ ts, (Clock.ofHz hz).Room ts → ∃ ns c', (Clock.ofHz hz).elapseEach ts = .ok (ns, c') ∧
      (hz ≤ Time.second → hz * ts.sum / Time.second ≤ ns.sum) ∧
      (Time.second < hz → ns.sum = 0)) ∧
    ((∀ ts ns c', (Clock.ofHz hz).elapseEach ts = .ok (ns, c') → ns.sum = 0) ↔
      hz = 0 ∨ Time.second < hz) ∧
    ∀ e, Reachable e → e.settings.frequency.getD Settings.usualFrequency = hz →
      ∀ ts, e.clock.Room ts → e.timer.Room ts → ∃ rs e', e.elapseEach ts = .ok (rs, e') ∧
        ((∀ r ∈ rs, ∃ s, r.outcome = .ok s) → ∃ plan, (drive plan e .quiet).done = plan ∧
          (drive plan e .quiet).emulator.machine = e'.machine ∧
          (hz ≤ Time.second → hz * ts.sum / Time.second ≤ plan.count .step) ∧
          (Time.second < hz → plan.count .step = 0)) := by
  refine ⟨fun ts hroom => ?_, Clock.never_due_iff, fun e he hhz ts hclock htimer => ?_⟩
  · obtain ⟨ns, c', hc⟩ := Clock.elapseEach_of_room hroom
    exact ⟨ns, c', hc, Clock.elapseEach_paced rfl hc⟩
  · obtain ⟨ns, clock, hns⟩ := Clock.elapseEach_of_room hclock
    obtain ⟨ks, timer, hks⟩ := Clock.elapseEach_of_room htimer
    obtain ⟨rs, e', -, hrs, -⟩ := elapseEach_follow hns hks
    refine ⟨rs, e', hrs, fun hall => ?_⟩
    obtain ⟨ns, plan, hns, hcount, hdone, hmachine⟩ := elapseEach_drive hrs hall
    have hperiod : e.clock.period = Clock.periodOf hz := hhz ▸ he.periods.1
    exact ⟨plan, hdone, hmachine, hcount ▸ Clock.elapseEach_paced hperiod hns⟩

/-- At a hundred instructions a second, fifty milliseconds hold at least five, in
whatever slices they pass. -/
theorem ringing_keeps_speed :
    (∃ ns c', (Clock.ofHz 100).elapseEach [17000000, 16000000, 17000000] = .ok (ns, c') ∧
      5 ≤ ns.sum) ∧
    ∃ rs e', ringing.elapseEach [17000000, 16000000, 17000000] = .ok (rs, e') ∧
      ∃ plan, (drive plan ringing .quiet).done = plan ∧
        (drive plan ringing .quiet).emulator.machine = e'.machine ∧ 5 ≤ plan.count .step := by
  obtain ⟨hclock, -, hemulator⟩ := speed_kept 100
  obtain ⟨ns, c', hns, hpaced, -⟩ :=
    hclock [17000000, 16000000, 17000000] (Clock.room_of_sum (by decide))
  have hreach : Reachable ringing := .run 3 (.load _ (.new _ _))
  obtain ⟨rs, e', hrs, hplan⟩ := hemulator ringing hreach (by decide +kernel)
    [17000000, 16000000, 17000000] (Clock.room_of_sum (by decide +kernel))
    (Clock.room_of_sum (by decide +kernel))
  have hall : (ringing.elapseEach [17000000, 16000000, 17000000]).map
      (fun p => p.1.all fun r => r.outcome.isOk) = .ok true := by decide +kernel
  rw [hrs] at hall
  have hok : ∀ r ∈ rs, ∃ s, r.outcome = .ok s := by
    intro r hr
    have hr := List.all_eq_true.mp (Except.ok.inj hall) r hr
    cases hout : r.outcome with
    | ok s => exact ⟨s, rfl⟩
    | error f =>
      rw [hout] at hr
      cases hr
  obtain ⟨plan, hdone, hmachine, hcount, -⟩ := hplan hok
  exact ⟨⟨ns, c', hns, hpaced (by decide)⟩, rs, e', hrs, plan, hdone, hmachine, hcount (by decide)⟩

/-- Two cycles a nanosecond leave no period: after a thousand nanoseconds two
thousand cycles should be due, and none is, nor ever will be. -/
theorem too_fast :
    let c := Clock.ofHz 2000000000
    c.Room [1000] ∧ c.elapseEach [1000] = .ok ([0], c) ∧
      ¬ 2000000000 * [1000].sum / Time.second ≤ [0].sum ∧
      ∀ ts ns c', c.elapseEach ts = .ok (ns, c') → ns.sum = 0 :=
  ⟨Clock.room_of_sum (by decide), rfl, by decide, Clock.never_due_iff.mpr (.inr (by decide))⟩

end Emulator
end ChipEight
