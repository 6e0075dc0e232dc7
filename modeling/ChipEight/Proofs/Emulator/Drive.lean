/-
# A stretch of time, driven by hand

`Emulator.elapse` does nothing that a host cannot do with `step` and `tick`
alone (`drive`): it makes the calls of `Batch.spread` in order until an
instruction fails, and notes the changes of the buzzer that the calls tell of
(`perform_eq_drive`, `elapse_spreads_ticks`).

Key definitions: `Driven`, `Emulator.drive`.
-/
import Mathlib.Tactic.Set
import ChipEight.Proofs.Emulator.Elapse
import ChipEight.Proofs.Emulator.Spread

namespace ChipEight

/-- What came of driving an emulator by hand. -/
structure Driven where
  outcome : Except Failure Signal
  emulator : Emulator
  events : Array Event
  /-- The changes of the buzzer that the calls told of. -/
  changes : Array Bool
  /-- The calls that succeeded. -/
  done : List Due

/-- The same with one call more at the start. -/
def Driven.after (t : Driven) (due : Due) (events : Array Event) (change : Option Bool) : Driven :=
  { t with
    events := events ++ t.events
    changes := change.toArray ++ t.changes
    done := due :: t.done }

/-- The buzzer's new state if a step changed it. -/
def Report.change (r : Report) : Option Bool :=
  match r.outcome with
  | .ok .sounded => some r.emulator.machine.timers.buzzing
  | _ => none

namespace Emulator

/-- Step and tick as listed, after a signal, until a step fails. -/
def drive : List Due → Emulator → Signal → Driven
  | [], e, signal => ⟨.ok signal, e, #[], #[], []⟩
  | .tick :: plan, e, signal => (drive plan e.tick.2.1 signal).after .tick e.tick.2.2 e.tick.1
  | .step :: plan, e, _ =>
    match e.step.outcome with
    | .ok signal => (drive plan e.step.emulator signal).after .step e.step.events e.step.change
    | .error f => ⟨.error f, e.step.emulator, e.step.events, #[], []⟩

theorem drive_step_ok {e : Emulator} {signal : Signal} (h : e.step.outcome = .ok signal)
    (plan : List Due) (before : Signal) : drive (.step :: plan) e before =
      (drive plan e.step.emulator signal).after .step e.step.events e.step.change := by
  simp only [drive, h]

theorem drive_step_error {e : Emulator} {f : Failure} (h : e.step.outcome = .error f)
    (plan : List Due) (before : Signal) : drive (.step :: plan) e before =
      ⟨.error f, e.step.emulator, e.step.events, #[], []⟩ := by
  simp only [drive, h]

/-! ### A batch is driven in its order -/

/-- Steps and ticks do not look at the changes noted so far. -/
theorem tickNoted_eq (e : Emulator) (buzzes : Array Bool) :
    ({ e with buzzes := buzzes } : Emulator).tickNoted =
      ({ e.tick.2.1 with buzzes := buzzes ++ e.tick.1.toArray }, e.tick.2.2) := by
  have h : ({ e with buzzes := buzzes } : Emulator).tick =
      (e.tick.1, { e.tick.2.1 with buzzes := buzzes }, e.tick.2.2) := rfl
  simp only [tickNoted, h]
  rcases e.tick.1 with _ | on <;> simp [noteBuzz]

theorem stepNoted_eq (e : Emulator) (buzzes : Array Bool) :
    ({ e with buzzes := buzzes } : Emulator).stepNoted =
      ⟨e.step.outcome, { e.step.emulator with buzzes := buzzes ++ e.step.change.toArray },
        e.step.events⟩ := by
  have h : ({ e with buzzes := buzzes } : Emulator).step =
      ⟨e.step.outcome, { e.step.emulator with buzzes := buzzes }, e.step.events⟩ := rfl
  simp only [stepNoted, h, Report.change]
  rcases e.step.outcome with f | signal
  · simp
  · cases signal <;> simp [noteBuzz]

/-- A batch makes the calls that are left of its order, and notes what they
tell of the buzzer. -/
theorem perform_eq_drive : ∀ (n : ℕ) (b : Batch) (e : Emulator) (buzzes : Array Bool)
    (signal : Signal) (events : Array Event), b.Fair → b.rest.length ≤ n →
    let t := drive b.rest e signal
    perform n b { e with buzzes := buzzes } signal events =
      ⟨t.outcome, { t.emulator with buzzes := buzzes ++ t.changes }, events ++ t.events⟩
  | 0, b, e, buzzes, signal, events, _, hn => by
    rw [List.eq_nil_of_length_eq_zero (Nat.le_zero.mp hn)]
    simp [perform, drive]
  | n + 1, b, e, buzzes, signal, events, hb, hn => by
    rcases hnext : b.next with _ | due
    · rw [Batch.rest_of_next_none hnext]
      simp [perform, drive, hnext]
    obtain ⟨hfair, hrest⟩ := Batch.rest_of_fair hb hnext
    rw [hrest, List.length_cons] at hn
    have ih := perform_eq_drive n (b.count due)
    cases due with
    | tick =>
      simp only [perform, hnext, hrest, tickNoted_eq, drive, Driven.after]
      rw [ih e.tick.2.1 _ _ _ hfair (Nat.le_of_succ_le_succ hn), Array.append_assoc,
        Array.append_assoc]
    | step =>
      simp only [perform, hnext, hrest, stepNoted_eq]
      rcases hout : e.step.outcome with f | next
      · simp [drive_step_error hout, Report.change, hout]
      · simp only [drive_step_ok hout, Driven.after]
        rw [ih e.step.emulator _ _ _ hfair (Nat.le_of_succ_le_succ hn), Array.append_assoc,
          Array.append_assoc]

theorem length_eq_count : ∀ plan : List Due, plan.length = plan.count .step + plan.count .tick
  | [] => rfl
  | .step :: plan => by simp [length_eq_count plan]; omega
  | .tick :: plan => by simp [length_eq_count plan]; omega

/-- Letting time pass is driving by hand in the order of `Batch.spread`. -/
theorem elapse_eq_drive {e : Emulator} {elapsed steps ticks : ℕ} {clock timer : Clock}
    (hs : e.clock.elapse elapsed = .ok (steps, clock))
    (ht : e.timer.elapse elapsed = .ok (ticks, timer)) :
    let t := drive (Batch.spread steps ticks) (e.atBatch clock timer) .quiet
    e.elapse elapsed = .ok ⟨t.outcome, { t.emulator with buzzes := t.changes }, t.events⟩ := by
  refine elapse_eq_ok.mpr ⟨steps, clock, ticks, timer, hs, ht, ?_⟩
  have hlen : (Batch.ofCounts steps ticks).rest.length ≤ steps + ticks := by
    rw [Batch.rest_ofCounts, length_eq_count, Batch.count_step_spread, Batch.count_tick_spread]
  have h := perform_eq_drive (steps + ticks) (.ofCounts steps ticks) (e.atBatch clock timer) #[]
    .quiet #[] (Batch.fair_ofCounts steps ticks) hlen
  simp only [Batch.rest_ofCounts, Array.empty_append] at h
  exact h.symm

/-! ### What was driven -/

/-- Driving changes the machine only. -/
theorem drive_frame : ∀ (plan : List Due) (e : Emulator) (signal : Signal),
    (drive plan e signal).emulator = { e with machine := (drive plan e signal).emulator.machine }
  | [], _, _ => rfl
  | .tick :: plan, e, signal => drive_frame plan e.tick.2.1 signal
  | .step :: plan, e, signal => by
    rcases hout : e.step.outcome with f | next
    · rw [drive_step_error hout]; rfl
    · rw [drive_step_ok hout]; exact drive_frame plan e.step.emulator next

/-- If no step failed, all was done. -/
theorem done_of_ok : ∀ (plan : List Due) {e : Emulator} {signal s : Signal},
    (drive plan e signal).outcome = .ok s → (drive plan e signal).done = plan
  | [], _, _, _, _ => rfl
  | .tick :: plan, e, signal, s, h =>
    congrArg (List.cons Due.tick) (done_of_ok plan (e := e.tick.2.1) h)
  | .step :: plan, e, signal, s, h => by
    rcases hout : e.step.outcome with f | next
    · rw [drive_step_error hout] at h; cases h
    · rw [drive_step_ok hout] at h ⊢
      exact congrArg (List.cons Due.step) (done_of_ok plan (e := e.step.emulator) h)

/-- If a step failed, all before it was done, and nothing after it. -/
theorem done_of_error : ∀ (plan : List Due) {e : Emulator} {signal : Signal} {f : Failure},
    (drive plan e signal).outcome = .error f → ∃ post,
      plan = (drive plan e signal).done ++ .step :: post ∧
      let u := drive (drive plan e signal).done e signal
      (∃ s, u.outcome = .ok s) ∧ u.emulator.step.outcome = .error f ∧
        (drive plan e signal).emulator = u.emulator.step.emulator
  | [], _, _, _, h => by cases h
  | .tick :: plan, e, signal, f, h => by
    obtain ⟨post, hplan, hrest⟩ := done_of_error plan (e := e.tick.2.1) h
    exact ⟨post, congrArg (List.cons Due.tick) hplan, hrest⟩
  | .step :: plan, e, signal, f, h => by
    rcases hout : e.step.outcome with g | next
    · rw [drive_step_error hout] at h ⊢
      cases h
      exact ⟨plan, rfl, ⟨signal, rfl⟩, hout, rfl⟩
    · rw [drive_step_ok hout] at h ⊢
      obtain ⟨post, hplan, hrest⟩ := done_of_error plan (e := e.step.emulator) h
      refine ⟨post, congrArg (List.cons Due.step) hplan, ?_⟩
      simp only [Driven.after, drive_step_ok hout]
      exact hrest

/-- In a list of calls, what comes before a step is determined by how many steps
it holds. -/
theorem before_step_unique : ∀ {p q p' q' : List Due}, p ++ .step :: p' = q ++ .step :: q' →
    p.count .step = q.count .step → p = q
  | [], [], _, _, _, _ => rfl
  | [], d :: q, p', q', h, hc => by
    cases List.cons.inj h |>.1
    simp at hc
  | d :: p, [], p', q', h, hc => by
    cases List.cons.inj h |>.1
    simp at hc
  | d :: p, d' :: q, p', q', h, hc => by
    obtain ⟨rfl, ht⟩ := List.cons.inj h
    rw [List.count_cons, List.count_cons, Nat.add_right_cancel_iff] at hc
    rw [before_step_unique ht hc]

/-- If an instruction of a batch fails, what was done is all that comes before
it in the order. -/
theorem done_spread_of_error {steps ticks : ℕ} {e : Emulator} {signal : Signal} {f : Failure}
    (h : (drive (Batch.spread steps ticks) e signal).outcome = .error f) : ∃ j < steps,
      (drive (Batch.spread steps ticks) e signal).done = Batch.upTo steps ticks j := by
  obtain ⟨post, hplan, -⟩ := done_of_error _ h
  set p := (drive (Batch.spread steps ticks) e signal).done
  have hlt : p.count .step < steps := by
    have := congrArg (List.count Due.step) hplan
    rw [Batch.count_step_spread, List.count_append, List.count_cons_self] at this
    omega
  have hsplit := hplan.symm.trans (Batch.spread_eq_upTo hlt)
  exact ⟨p.count .step, hlt, before_step_unique hsplit (by rw [Batch.count_step_upTo])⟩

/-- Let `steps` instructions and `ticks` ticks be due. Letting the time pass is
the same as making the calls of `Batch.spread` by hand, on clocks that have
moved on, until an instruction fails; the changes of the buzzer noted are those
the calls tell of. Exactly `⌈j · ticks / steps⌉` ticks come before instruction
`j`, two instructions in a row have `⌊ticks / steps⌋` or `⌈ticks / steps⌉` ticks
between them, and the whole list holds every instruction and every tick. If
none fails, all of it was done; if instruction `j` is the first to fail, all
before it was done and nothing after it. No product compared on the way
outgrows sixty-four bits. -/
theorem elapse_spreads_ticks {e : Emulator} {elapsed steps ticks : ℕ} {clock timer : Clock}
    (hs : e.clock.elapse elapsed = .ok (steps, clock))
    (ht : e.timer.elapse elapsed = .ok (ticks, timer))
    (hs32 : steps < 2 ^ 32) (ht32 : ticks < 2 ^ 32) :
    let start := e.atBatch clock timer
    let t := drive (Batch.spread steps ticks) start .quiet
    e.elapse elapsed = .ok ⟨t.outcome, { t.emulator with buzzes := t.changes }, t.events⟩ ∧
      t.emulator.clock = clock ∧ t.emulator.timer = timer ∧
      (Batch.spread steps ticks).count .step = steps ∧
      (Batch.spread steps ticks).count .tick = ticks ∧
      (∀ j < steps, (∃ later, Batch.spread steps ticks = Batch.upTo steps ticks j ++ .step :: later) ∧
        (Batch.upTo steps ticks j).count .step = j ∧
        (Batch.upTo steps ticks j).count .tick = (j * ticks + (steps - 1)) / steps) ∧
      (∀ j < steps, ∃ n, Batch.upTo steps ticks (j + 1) =
          Batch.upTo steps ticks j ++ .step :: List.replicate n .tick ∧
        (n = ticks / steps ∨ n = (ticks + (steps - 1)) / steps)) ∧
      (∀ s, t.outcome = .ok s → t.done = Batch.spread steps ticks) ∧
      (∀ f, t.outcome = .error f → ∃ j < steps, t.done = Batch.upTo steps ticks j ∧
        let u := drive (Batch.upTo steps ticks j) start .quiet
        (∃ s, u.outcome = .ok s) ∧ u.emulator.step.outcome = .error f ∧
          t.emulator = u.emulator.step.emulator) ∧
      ∀ b, Batch.Visited steps ticks b →
        b.ticked * b.steps < 2 ^ 64 ∧ b.stepped * b.ticks < 2 ^ 64 := by
  intro start t
  have hframe := drive_frame (Batch.spread steps ticks) start .quiet
  have hclock : t.emulator.clock = clock := congrArg Emulator.clock hframe
  have htimer : t.emulator.timer = timer := congrArg Emulator.timer hframe
  refine ⟨elapse_eq_drive hs ht, hclock, htimer, Batch.count_step_spread steps ticks,
    Batch.count_tick_spread steps ticks, fun j hj => ?_, fun j hj => ?_,
    fun s h => done_of_ok _ h, fun f h => ?_, fun b hb => hb.products_lt hs32 ht32⟩
  · exact ⟨⟨_, Batch.spread_eq_upTo hj⟩, Batch.count_step_upTo steps ticks j,
      Batch.count_tick_upTo steps ticks j⟩
  · refine ⟨_, Batch.upTo_succ steps ticks j, ?_⟩
    have hgap := Batch.owed_succ_sub (Nat.zero_lt_of_lt hj) ticks j
    rw [Batch.owed, Batch.owed, Batch.owed, Nat.one_mul] at hgap
    exact hgap
  · obtain ⟨j, hj, hdone⟩ := done_spread_of_error h
    obtain ⟨post, -, hu⟩ := done_of_error _ h
    rw [hdone] at hu
    exact ⟨j, hj, hdone, hu⟩

/-- An emulator of a hundred instructions a second, with a program that returns
from nowhere after two instructions. -/
def faltering : Emulator :=
  ((Emulator.new ⟨some 100, .modern, none⟩ (.ofWords [])).load [0x60, 1, 0x61, 2, 0x00, 0xEE]).2.1

/-- Of five instructions and three ticks, the third instruction fails, with two
ticks done. -/
theorem elapse_faltering :
    let timer : Clock := ⟨16666666, 2, .inr (by decide)⟩
    let t := drive (Batch.spread 5 3) (faltering.atBatch (.ofHz 100) timer) .quiet
    faltering.elapse 50000000 = .ok ⟨t.outcome, { t.emulator with buzzes := t.changes }, t.events⟩ ∧
      t.emulator.clock = .ofHz 100 ∧ t.emulator.timer = timer ∧
      t.outcome = .error .stackUnderflow ∧ t.done = [.step, .tick, .step, .tick] := by
  intro timer t
  obtain ⟨hs, ht, hout, hdone⟩ : faltering.clock.elapse 50000000 = .ok (5, .ofHz 100) ∧
      faltering.timer.elapse 50000000 = .ok (3, timer) ∧
      t.outcome = .error .stackUnderflow ∧ t.done = [.step, .tick, .step, .tick] := by
    decide +kernel
  obtain ⟨helapse, hclock, htimer, -⟩ := elapse_spreads_ticks hs ht (by decide) (by decide)
  exact ⟨helapse, hclock, htimer, hout, hdone⟩

end Emulator
end ChipEight
