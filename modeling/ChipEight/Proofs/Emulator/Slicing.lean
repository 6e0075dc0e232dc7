/-
# Slices of time

A host may let a stretch of time pass in one piece or in many. The clocks lose
nothing between the pieces, so the same steps and ticks become due, but in
another order. A program that does not use the timers cannot tell: as long as
no instruction fails, any two lists of times with the same sum leave the same
emulator, up to the changes of the buzzer in the latest batch
(`slices_irrelevant`).

Key definitions: `Emulator.elapseEach`, `Untimed`.
-/
import ChipEight.Proofs.Clock
import ChipEight.Proofs.Emulator.Drive
import ChipEight.Proofs.Machine.Untimed

namespace ChipEight

/-- None of the instructions that were reported uses a timer. -/
def Untimed (events : Array Event) : Prop :=
  ∀ pc i, Event.executing pc i ∈ events → i.usesTimers = false

theorem untimed_empty : Untimed #[] := fun _ _ h => absurd h (Array.not_mem_empty _)

theorem untimed_append {a b : Array Event} : Untimed (a ++ b) ↔ Untimed a ∧ Untimed b := by
  simp only [Untimed, Array.mem_append, or_imp, forall_and]

namespace Emulator

theorem untimed_buzzerEvents (change : Option Bool) : Untimed (buzzerEvents change) := by
  intro pc i hi
  cases change <;> simp [buzzerEvents] at hi

theorem untimed_step (e : Emulator) : Untimed e.step.events ↔ e.machine.usesTimers = false := by
  unfold Untimed step
  simp only [List.mem_toArray, Machine.executing_mem_step, and_imp, Machine.usesTimers]
  cases e.machine.current <;> simp

/-- Driving by hand follows the plan, exactly if no step fails or uses a timer. -/
theorem follow_eq_some : ∀ (plan : List Due) (e : Emulator) (signal : Signal) (m : Machine),
    Machine.follow e.settings.dialect plan e.machine = some m ↔
      (∃ s, (drive plan e signal).outcome = .ok s) ∧ Untimed (drive plan e signal).events ∧
        (drive plan e signal).emulator.machine = m
  | [], e, signal, m => by
    simp only [Machine.follow, drive, Option.some.injEq]
    exact ⟨fun h => ⟨⟨signal, rfl⟩, untimed_empty, h⟩, fun h => h.2.2⟩
  | .tick :: plan, e, signal, m => by
    have ih := follow_eq_some plan e.tick.2.1 signal m
    simp only [drive, Driven.after, untimed_append]
    exact ih.trans (and_congr_right fun _ => and_congr_left fun _ =>
      (and_iff_right (untimed_buzzerEvents _)).symm)
  | .step :: plan, e, signal, m => by
    rw [Machine.follow, Option.bind_eq_some_iff]
    simp only [Machine.stepUntimed_eq_some]
    rcases hout : e.step.outcome with f | next
    · have hout' : (e.machine.step e.settings.dialect).outcome = .error f := hout
      simp only [drive_step_error hout, hout']
      simp
    · have hout' : (e.machine.step e.settings.dialect).outcome = .ok next := hout
      have ih := follow_eq_some plan e.step.emulator next m
      simp only [drive_step_ok hout, Driven.after, untimed_append, untimed_step, hout']
      constructor
      · rintro ⟨m1, ⟨hm, -, rfl⟩, hrest⟩
        obtain ⟨hok, htimed, hend⟩ := ih.mp hrest
        exact ⟨hok, ⟨hm, htimed⟩, hend⟩
      · rintro ⟨hok, ⟨hm, htimed⟩, hend⟩
        exact ⟨_, ⟨hm, ⟨next, rfl⟩, rfl⟩, ih.mpr ⟨hok, htimed, hend⟩⟩

/-! ### Slice by slice -/

/-- Let the listed times pass one after the other. -/
def elapseEach (e : Emulator) : List ℕ → Except Overflow (List Report × Emulator)
  | [] => .ok ([], e)
  | t :: ts => do
    let r ← e.elapse t
    let (rs, e) ← r.emulator.elapseEach ts
    return (r :: rs, e)

theorem elapseEach_cons {e e' : Emulator} {t : ℕ} {ts : List ℕ} {rs : List Report} :
    e.elapseEach (t :: ts) = .ok (rs, e') ↔ ∃ r qs, e.elapse t = .ok r ∧
      r.emulator.elapseEach ts = .ok (qs, e') ∧ rs = r :: qs := by
  constructor
  · intro h
    obtain ⟨r, hr, h⟩ := bind_eq_ok.mp h
    obtain ⟨⟨qs, e1⟩, hqs, h⟩ := bind_eq_ok.mp h
    cases h
    exact ⟨r, qs, hr, hqs, rfl⟩
  · rintro ⟨r, qs, hr, hqs, rfl⟩
    exact bind_eq_ok.mpr ⟨r, hr, bind_eq_ok.mpr ⟨(qs, e'), hqs, rfl⟩⟩

/-- A slice follows the order of its batch, on clocks that have moved on. -/
theorem elapse_follow {e : Emulator} {t steps ticks : ℕ} {clock timer : Clock}
    (hs : e.clock.elapse t = .ok (steps, clock)) (ht : e.timer.elapse t = .ok (ticks, timer)) :
    ∃ r, e.elapse t = .ok r ∧
      r.emulator = { e with
        machine := r.emulator.machine
        clock := clock
        timer := timer
        buzzes := r.emulator.buzzes } ∧
      ∀ m, Machine.follow e.settings.dialect (Batch.spread steps ticks) e.machine = some m ↔
        ((∃ s, r.outcome = .ok s) ∧ Untimed r.events) ∧ r.emulator.machine = m := by
  have hframe := drive_frame (Batch.spread steps ticks) (e.atBatch clock timer) .quiet
  refine ⟨_, elapse_eq_drive hs ht, ?_, fun m => ?_⟩
  · rw [hframe]
    rfl
  · rw [and_assoc]
    exact follow_eq_some (Batch.spread steps ticks) (e.atBatch clock timer) .quiet m

/-- Where the slices pass, so they do for the clocks alone. -/
theorem clocks_elapseEach : ∀ {ts : List ℕ} {e e' : Emulator} {rs : List Report},
    e.elapseEach ts = .ok (rs, e') → (∃ ns, e.clock.elapseEach ts = .ok (ns, e'.clock)) ∧
      ∃ ks, e.timer.elapseEach ts = .ok (ks, e'.timer)
  | [], _, _, _, h => by cases h; exact ⟨⟨[], rfl⟩, ⟨[], rfl⟩⟩
  | t :: ts, e, e', rs, h => by
    obtain ⟨r, qs, hr, hqs, rfl⟩ := elapseEach_cons.mp h
    obtain ⟨steps, clock, ticks, timer, hs, ht, -⟩ := elapse_eq_ok.mp hr
    obtain ⟨r', hr', he, -⟩ := elapse_follow hs ht
    obtain rfl := Except.ok.inj (hr.symm.trans hr')
    obtain ⟨⟨ns, hns⟩, ⟨ks, hks⟩⟩ := clocks_elapseEach hqs
    rw [he] at hns hks
    refine ⟨⟨steps :: ns, ?_⟩, ⟨ticks :: ks, ?_⟩⟩
    · exact bind_eq_ok.mpr ⟨_, hs, bind_eq_ok.mpr ⟨_, hns, rfl⟩⟩
    · exact bind_eq_ok.mpr ⟨_, ht, bind_eq_ok.mpr ⟨_, hks, rfl⟩⟩

/-- The slices together follow one plan, which holds the steps and the ticks
that both clocks make due in them. -/
theorem elapseEach_follow : ∀ {ts ns ks : List ℕ} {e : Emulator} {clock timer : Clock},
    e.clock.elapseEach ts = .ok (ns, clock) → e.timer.elapseEach ts = .ok (ks, timer) →
    ∃ rs e' plan, e.elapseEach ts = .ok (rs, e') ∧
      e' = { e with machine := e'.machine, clock := clock, timer := timer, buzzes := e'.buzzes } ∧
      plan.count .step = ns.sum ∧ plan.count .tick = ks.sum ∧
      ∀ m, Machine.follow e.settings.dialect plan e.machine = some m ↔
        (∀ r ∈ rs, (∃ s, r.outcome = .ok s) ∧ Untimed r.events) ∧ e'.machine = m
  | [], ns, ks, e, clock, timer, hc, ht => by
    cases hc
    cases ht
    exact ⟨[], e, [], rfl, rfl, rfl, rfl, fun m => by simp [Machine.follow]⟩
  | t :: ts, _, _, e, clock, timer, hc, ht => by
    obtain ⟨steps, clock1, ns, hs, hns, rfl⟩ := Clock.elapseEach_cons hc
    obtain ⟨ticks, timer1, ks, hk, hks, rfl⟩ := Clock.elapseEach_cons ht
    obtain ⟨r, hr, hre, hfirst⟩ := elapse_follow hs hk
    have hclock : r.emulator.clock = clock1 := congrArg Emulator.clock hre
    have htimer : r.emulator.timer = timer1 := congrArg Emulator.timer hre
    have hsettings : r.emulator.settings = e.settings := by rw [hre]
    obtain ⟨qs, e', plan, hqs, he', hcs, hct, hrest⟩ :=
      elapseEach_follow (hclock ▸ hns) (htimer ▸ hks)
    refine ⟨r :: qs, e', Batch.spread steps ticks ++ plan,
      elapseEach_cons.mpr ⟨r, qs, hr, hqs, rfl⟩, ?_, ?_, ?_, fun m => ?_⟩
    · rw [hsettings] at he'
      exact he'
    · rw [List.count_append, Batch.count_step_spread, hcs, List.sum_cons]
    · rw [List.count_append, Batch.count_tick_spread, hct, List.sum_cons]
    · rw [hsettings] at hrest
      rw [Machine.follow_append, Option.bind_eq_some_iff, List.forall_mem_cons]
      constructor
      · rintro ⟨m1, h1, h2⟩
        obtain ⟨hok, rfl⟩ := (hfirst m1).mp h1
        obtain ⟨hall, hend⟩ := (hrest m).mp h2
        exact ⟨⟨hok, hall⟩, hend⟩
      · rintro ⟨⟨hok, hall⟩, hend⟩
        exact ⟨_, (hfirst _).mpr ⟨hok, rfl⟩, (hrest m).mpr ⟨hall, hend⟩⟩

/-- Let a host pass the times `xs` one after the other, so that no instruction
fails and none uses a timer. If it passes the times `ys` of the same sum
instead, and no clock overflows, then no instruction fails and none uses a
timer either, and the emulator ends up the same, but for the changes of the
buzzer in the latest batch. -/
theorem slices_irrelevant {e e1 : Emulator} {xs ys : List ℕ} {rs : List Report}
    (hsum : xs.sum = ys.sum) (hxs : e.elapseEach xs = .ok (rs, e1))
    (hrs : ∀ r ∈ rs, (∃ s, r.outcome = .ok s) ∧ Untimed r.events)
    (hclock : ∃ q, e.clock.elapseEach ys = .ok q) (htimer : ∃ q, e.timer.elapseEach ys = .ok q) :
    ∃ qs e2, e.elapseEach ys = .ok (qs, e2) ∧
      (∀ r ∈ qs, (∃ s, r.outcome = .ok s) ∧ Untimed r.events) ∧
      { e2 with buzzes := e1.buzzes } = e1 := by
  obtain ⟨⟨ns1, hns1⟩, ⟨ks1, hks1⟩⟩ := clocks_elapseEach hxs
  obtain ⟨⟨ns2, clock⟩, hns2⟩ := hclock
  obtain ⟨⟨ks2, timer⟩, hks2⟩ := htimer
  obtain ⟨hns, rfl⟩ := Clock.elapseEach_of_sum_eq hsum hns1 hns2
  obtain ⟨hks, rfl⟩ := Clock.elapseEach_of_sum_eq hsum hks1 hks2
  obtain ⟨rs', e1', plan1, hxs', he1, hsteps1, hticks1, hfollow1⟩ := elapseEach_follow hns1 hks1
  obtain ⟨rfl, rfl⟩ := Prod.mk.inj (Except.ok.inj (hxs.symm.trans hxs'))
  obtain ⟨qs, e2, plan2, hys, he2, hsteps2, hticks2, hfollow2⟩ := elapseEach_follow hns2 hks2
  -- both plans hold the same, so they come to the same
  have hperm : plan1.Perm plan2 := by
    refine List.perm_iff_count.mpr fun due => ?_
    cases due
    · rw [hsteps1, hns, hsteps2]
    · rw [hticks1, hks, hticks2]
  have hend := (hfollow1 e1.machine).mpr ⟨hrs, rfl⟩
  rw [Machine.follow_perm _ hperm] at hend
  obtain ⟨hqs, hmachine⟩ := (hfollow2 e1.machine).mp hend
  refine ⟨qs, e2, hys, hqs, ?_⟩
  rw [he2, hmachine, he1]

/-- An emulator of a hundred instructions a second, with both timers at five
and a loop that counts and draws random bytes. -/
def ringing : Emulator :=
  (((Emulator.new ⟨some 100, .modern, none⟩ (.ofWords [7, 8])).load
    [0x60, 5, 0xF0, 0x15, 0xF0, 0x18, 0x71, 1, 0xC2, 0xFF, 0x12, 6]).2.1.run 3).emulator

/-- Fifty milliseconds in one piece come to the same as in three. -/
theorem ringing_in_slices : ∃ r qs e2, ringing.elapseEach [50000000] = .ok ([r], r.emulator) ∧
    ringing.elapseEach [17000000, 16000000, 17000000] = .ok (qs, e2) ∧
    { e2 with buzzes := r.emulator.buzzes } = r.emulator ∧ e2.machine.timers = ⟨2, 2, true⟩ := by
  let timer : Clock := ⟨16666666, 2, .inr (by decide)⟩
  have hsum : [50000000].sum = [17000000, 16000000, 17000000].sum := by decide
  obtain ⟨hs, ht, hclock, htimer, hplan⟩ :
      ringing.clock.elapse 50000000 = .ok (5, .ofHz 100) ∧
      ringing.timer.elapse 50000000 = .ok (3, timer) ∧
      ringing.clock.elapseEach [17000000, 16000000, 17000000] = .ok ([1, 2, 2], .ofHz 100) ∧
      ringing.timer.elapseEach [17000000, 16000000, 17000000] = .ok ([1, 0, 2], timer) ∧
      (Machine.follow ringing.settings.dialect (Batch.spread 5 3) ringing.machine).map
        Machine.timers = some ⟨2, 2, true⟩ := by decide +kernel
  obtain ⟨m, hm, htimers⟩ := Option.map_eq_some_iff.mp hplan
  obtain ⟨r, helapse, -, hfollow⟩ := elapse_follow hs ht
  obtain ⟨hok, rfl⟩ := (hfollow m).mp hm
  have hr : ringing.elapseEach [50000000] = .ok ([r], r.emulator) :=
    elapseEach_cons.mpr ⟨r, [], helapse, rfl, rfl⟩
  have hrs : ∀ q ∈ [r], (∃ s, q.outcome = .ok s) ∧ Untimed q.events := by
    intro q hq
    rw [List.mem_singleton.mp hq]
    exact hok
  obtain ⟨qs, e2, hys, -, heq⟩ := slices_irrelevant hsum hr hrs ⟨_, hclock⟩ ⟨_, htimer⟩
  have hmachine : e2.machine = r.emulator.machine := by rw [← heq]
  exact ⟨r, qs, e2, hr, hys, heq, by rw [hmachine, htimers]⟩

end Emulator
end ChipEight
