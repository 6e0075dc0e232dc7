/-
# Every period is counted

Taking periods off one by one comes to the quotient, and leaves the remainder
(`drain_eq`): a stopwatch answers as the clock that it reads does, for as long as
the count fits (`elapse_reads`), and nowhere is a longer time taken off a shorter
one (`elapse_ne_tooShort`). The clock's account is exact for every slicing of time
for which there is room (`elapseEach_exact`).

Key definitions: `Stopwatch.answer`, `Stopwatch.Reads`, `Stopwatch.elapseEach`,
`Clock.Fresh`.
-/
import ChipEight.Clock.Stopwatch
import ChipEight.Proofs.Clock

namespace ChipEight

/-! ### Lengths of time -/

namespace Span

@[simp] theorem total_zero : zero.total = 0 := by simp [total, zero]

theorem total_ofNanos {n : ℕ} (h : n < Time.limit) : (ofNanos n h).total = n :=
  Nat.div_add_mod' n Time.second

theorem eq_zero_iff {s : Span} : s = zero ↔ s.total = 0 := by
  constructor
  · rintro rfl
    exact total_zero
  · intro h
    by_contra hne
    exact absurd h (Nat.ne_of_gt (total_pos hne))

theorem lt_iff {a b : Span} : a < b ↔ a.total < b.total := by
  have ha := a.nanos_lt
  have hb := b.nanos_lt
  change a.seconds < b.seconds ∨ a.seconds = b.seconds ∧ a.nanos < b.nanos ↔ _
  simp only [total, Time.second] at ha hb ⊢
  omega

/-- The parts of a time that is too long to be counted. -/
theorem ofParts_spec {seconds nanos : ℕ} (h : nanos < Time.second) :
    (seconds * Time.second + nanos < Time.limit →
      ∃ s, ofParts seconds nanos h = some s ∧ s.total = seconds * Time.second + nanos) ∧
    (Time.limit ≤ seconds * Time.second + nanos → ofParts seconds nanos h = none) := by
  have hfits : seconds < Time.secondsLimit ↔ seconds * Time.second + nanos < Time.limit := by
    simp only [Time.limit, Time.secondsLimit, Time.second] at h ⊢
    omega
  constructor
  · intro hlt
    exact ⟨_, dif_pos (hfits.mpr hlt), rfl⟩
  · intro hle
    exact dif_neg fun hs => absurd (hfits.mp hs) (Nat.not_lt.mpr hle)

/-- The sum is there if it can be counted. -/
theorem add_spec (a b : Span) :
    (a.total + b.total < Time.limit → ∃ s, a.add b = some s ∧ s.total = a.total + b.total) ∧
    (Time.limit ≤ a.total + b.total → a.add b = none) := by
  unfold add
  split
  · next h =>
    have htotal : a.total + b.total =
        (a.seconds + b.seconds) * Time.second + (a.nanos + b.nanos) := by
      simp only [total, Time.second]
      omega
    rw [htotal]
    exact ofParts_spec h
  · next h =>
    have htotal : a.total + b.total = (a.seconds + b.seconds + 1) * Time.second +
        (a.nanos + b.nanos - Time.second) := by
      simp only [total, Time.second] at h ⊢
      omega
    rw [htotal]
    exact ofParts_spec _

/-- The difference is there if it is not negative. -/
theorem sub_of_le {a b : Span} (h : b.total ≤ a.total) :
    ∃ s, a.sub b = some s ∧ s.total = a.total - b.total := by
  obtain ⟨s, hs⟩ : ∃ s, a.sub b = some s := by
    have ha := a.nanos_lt
    have hb := b.nanos_lt
    unfold sub
    simp only [total, Time.second] at h ha hb
    split
    · next hlt => omega
    split
    · exact ⟨_, rfl⟩
    split
    · next heq => omega
    · exact ⟨_, rfl⟩
  have htotal := total_of_sub hs
  exact ⟨s, hs, by omega⟩

end Span

/-! ### The count -/

namespace Stopwatch

section Drain

variable {period carried : Span} (h : period ≠ .zero) {count : ℕ}
include h

theorem drain_of_lt (hlt : carried.total < period.total) :
    drain period h carried count = (.ok count, carried) := by
  rw [drain, if_pos (Span.lt_iff.mpr hlt)]

/-- One turn of the count. -/
theorem drain_of_le (hle : period.total ≤ carried.total) (count : ℕ) :
    ∃ rest, rest.total = carried.total - period.total ∧ drain period h carried count =
      if count + 1 < countLimit then drain period h rest (count + 1)
      else (.error .tooMany, rest) := by
  obtain ⟨rest, hsub, htotal⟩ := Span.sub_of_le hle
  refine ⟨rest, htotal, ?_⟩
  rw [drain, if_neg fun hlt => Nat.not_lt.mpr hle (Span.lt_iff.mp hlt)]
  split
  · next hnone =>
    rw [hsub] at hnone
    cases hnone
  · next rest' hsome =>
    rw [hsub] at hsome
    cases hsome
    rfl

/-- What is left to do, at any point of the count: from `count` on, as many
periods as there are in what is carried. -/
theorem drain_eq (carried : Span) (hcount : count < countLimit) : ∃ rest,
    drain period h carried count =
      (if count + carried.total / period.total < countLimit then
        .ok (count + carried.total / period.total)
      else .error .tooMany, rest) ∧
    (count + carried.total / period.total < countLimit →
      rest.total = carried.total % period.total) := by
  have hpos : 0 < period.total := Span.total_pos h
  -- one period fewer is carried at each turn
  induction hn : carried.total using Nat.strong_induction_on generalizing carried count with
  | _ n ih =>
  subst hn
  by_cases hlt : carried.total < period.total
  · rw [drain_of_lt h hlt, Nat.div_eq_of_lt hlt, Nat.mod_eq_of_lt hlt, Nat.add_zero,
      if_pos hcount]
    exact ⟨carried, rfl, fun _ => rfl⟩
  · have hle : period.total ≤ carried.total := Nat.not_lt.mp hlt
    have hquotient : count + carried.total / period.total =
        count + 1 + (carried.total - period.total) / period.total := by
      rw [Nat.div_eq_sub_div hpos hle, Nat.add_assoc, Nat.add_comm 1]
    obtain ⟨rest, hrest, hturn⟩ := drain_of_le h hle count
    rw [hturn, hquotient, Nat.mod_eq_sub_mod hle, ← hrest]
    by_cases hnext : count + 1 < countLimit
    · rw [if_pos hnext]
      exact ih rest.total (by omega) rest hnext rfl
    · have hmany : ¬ count + 1 + rest.total / period.total < countLimit := fun hfew =>
        hnext (Nat.lt_of_le_of_lt (Nat.le_add_right _ _) hfew)
      rw [if_neg hnext, if_neg hmany]
      exact ⟨rest, rfl, fun hfew => absurd hfew hmany⟩

end Drain

theorem countLimit_pos : 0 < countLimit := by decide

theorem elapse_of_stopped {w : Stopwatch} (h : w.period = .zero) (t : Span) :
    w.elapse t = (.ok 0, w) :=
  dif_pos h

theorem elapse_of_full {w : Stopwatch} (h : w.period ≠ .zero) {t : Span}
    (hadd : w.carried.add t = none) : w.elapse t = (.error .tooLong, w) := by
  rw [elapse, dif_neg h, hadd]

/-- A sum that fits is counted off. -/
theorem elapse_of_add {w : Stopwatch} (h : w.period ≠ .zero) {t carried : Span}
    (hadd : w.carried.add t = some carried) : ∃ rest,
      w.elapse t = (if carried.total / w.period.total < countLimit then
          .ok (carried.total / w.period.total)
        else .error .tooMany, { w with carried := rest }) ∧
      (carried.total / w.period.total < countLimit →
        rest.total = carried.total % w.period.total) := by
  obtain ⟨rest, hdrain, hrest⟩ := drain_eq h carried countLimit_pos
  rw [Nat.zero_add] at hdrain hrest
  refine ⟨rest, ?_, hrest⟩
  rw [elapse, dif_neg h, hadd]
  dsimp only
  rw [hdrain]

/-- What a call comes to, told without counting. -/
def answer (w : Stopwatch) (t : Span) : Except Jam ℕ :=
  if w.period = .zero then .ok 0
  else if Time.limit ≤ w.carried.total + t.total then .error .tooLong
  else if (w.carried.total + t.total) / w.period.total < countLimit then
    .ok ((w.carried.total + t.total) / w.period.total)
  else .error .tooMany

/-- From every state a call comes to an end, with what the quotient says. -/
theorem elapse_fst (w : Stopwatch) (t : Span) : (w.elapse t).1 = w.answer t := by
  unfold answer
  by_cases h : w.period = .zero
  · rw [elapse_of_stopped h, if_pos h]
  · rw [if_neg h]
    by_cases hlong : Time.limit ≤ w.carried.total + t.total
    · rw [if_pos hlong, elapse_of_full h ((Span.add_spec _ _).2 hlong)]
    · obtain ⟨carried, hadd, htotal⟩ := (Span.add_spec _ _).1 (Nat.lt_of_not_le hlong)
      obtain ⟨rest, heq, -⟩ := elapse_of_add h hadd
      rw [if_neg hlong, heq, htotal]

/-- No call takes a longer time off a shorter one. -/
theorem elapse_ne_tooShort (w : Stopwatch) (t : Span) : (w.elapse t).1 ≠ .error .tooShort := by
  rw [elapse_fst, answer]
  split_ifs <;> nofun

/-! ### The clock that is read -/

/-- The stopwatch shows what the clock does. -/
structure Reads (w : Stopwatch) (c : Clock) : Prop where
  period : w.period.total = c.period
  carried : w.carried.total = c.carried

theorem reads_ofPeriod {period : Span} {n : ℕ} (h : period.total = n) :
    (ofPeriod period).Reads (Clock.ofPeriod n) where
  period := h
  carried := Span.total_zero

theorem reads_ofHz (hz : ℕ) : (ofHz hz).Reads (Clock.ofHz hz) :=
  reads_ofPeriod (Span.total_ofNanos _)

theorem Reads.reset {w : Stopwatch} {c : Clock} (h : w.Reads c) : w.reset.Reads c.reset where
  period := h.period
  carried := Span.total_zero

/-- A call answers as the clock does that the stopwatch reads, if the count fits. -/
theorem elapse_reads {w : Stopwatch} {c : Clock} (h : w.Reads c) (t : Span) :
    (c.elapse t.total = .error .duration → w.elapse t = (.error .tooLong, w)) ∧
      ∀ n c', c.elapse t.total = .ok (n, c') → n < countLimit →
        ∃ w', w.elapse t = (.ok n, w') ∧ w'.Reads c' := by
  have hzero : w.period = .zero ↔ c.period = 0 := by rw [Span.eq_zero_iff, h.period]
  constructor
  · intro he
    obtain ⟨hpos, hlong⟩ := Clock.elapse_eq_error.mp he
    have hp : w.period ≠ .zero := fun hp => absurd (hzero.mp hp) (Nat.ne_of_gt hpos)
    rw [← h.carried] at hlong
    exact elapse_of_full hp ((Span.add_spec _ _).2 hlong)
  · intro n c' hc hn
    obtain ⟨hperiod, hstopped, hdue⟩ := Clock.elapse_total hc
    by_cases hp : w.period = .zero
    · obtain ⟨rfl, rfl⟩ := hstopped (hzero.mp hp)
      exact ⟨w, elapse_of_stopped hp t, h⟩
    · have hpos : 0 < c.period := Nat.pos_of_ne_zero fun h0 => hp (hzero.mpr h0)
      obtain ⟨hcount, hcarried⟩ := hdue hpos
      have hshort : w.carried.total + t.total < Time.limit := by
        rw [h.carried]
        by_contra hlong
        rw [Clock.elapse_eq_error.mpr ⟨hpos, Nat.le_of_not_lt hlong⟩] at hc
        cases hc
      obtain ⟨carried, hadd, htotal⟩ := (Span.add_spec _ _).1 hshort
      obtain ⟨rest, heq, hrest⟩ := elapse_of_add hp hadd
      rw [htotal, h.carried, h.period, ← hcount, if_pos hn] at heq
      rw [htotal, h.carried, h.period, ← hcount, ← hcarried] at hrest
      exact ⟨_, heq, h.period.trans hperiod.symm, hrest hn⟩

/-- While the count fits, a call fails only where the clock does. -/
theorem tooLong_of_elapse {w w' : Stopwatch} {c : Clock} {t : Span} {j : Jam} (h : w.Reads c)
    (hcount : (c.carried + t.total) / c.period < countLimit) (hj : w.elapse t = (.error j, w')) :
    j = .tooLong ∧ w' = w ∧ 0 < c.period ∧ Time.limit ≤ c.carried + t.total := by
  obtain ⟨hfull, hanswer⟩ := elapse_reads h t
  cases hc : c.elapse t.total with
  | error o =>
    cases o
    rw [hfull hc] at hj
    cases hj
    exact ⟨rfl, rfl, Clock.elapse_eq_error.mp hc⟩
  | ok r =>
    obtain ⟨n, c'⟩ := r
    obtain ⟨w1, hw1, -⟩ := hanswer n c' hc (Clock.elapse_count hc ▸ hcount)
    rw [hw1] at hj
    cases hj

/-- Let the listed times pass one after the other, up to a call that fails. -/
def elapseEach (w : Stopwatch) : List Span → Except Jam (List ℕ) × Stopwatch
  | [] => (.ok [], w)
  | t :: ts =>
    match w.elapse t with
    | (.error j, w) => (.error j, w)
    | (.ok n, w) =>
      match w.elapseEach ts with
      | (.error j, w) => (.error j, w)
      | (.ok ns, w) => (.ok (n :: ns), w)

/-- Call by call, the stopwatch keeps reading the clock. -/
theorem elapseEach_reads : ∀ {ts : List Span} {w : Stopwatch} {c c' : Clock} {ns : List ℕ},
    w.Reads c → c.elapseEach (ts.map Span.total) = .ok (ns, c') → (∀ n ∈ ns, n < countLimit) →
      ∃ w', w.elapseEach ts = (.ok ns, w') ∧ w'.Reads c'
  | [], w, _, _, _, h, hc, _ => by
    cases hc
    exact ⟨w, rfl, h⟩
  | t :: ts, w, c, c', ns, h, hc, hns => by
    obtain ⟨n, c1, ks, h1, h2, rfl⟩ := Clock.elapseEach_cons hc
    obtain ⟨w1, hw1, hreads1⟩ := (elapse_reads h t).2 n c1 h1 (hns n List.mem_cons_self)
    obtain ⟨w', hw', hreads'⟩ := elapseEach_reads hreads1 h2 fun k hk =>
      hns k (List.mem_cons_of_mem n hk)
    refine ⟨w', ?_, hreads'⟩
    simp only [elapseEach, hw1, hw']

end Stopwatch

namespace Clock

/-- The clock was just made, or reset. -/
inductive Fresh : Clock → Prop
  | ofPeriod (period : ℕ) : Fresh (ofPeriod period)
  | ofHz (hz : ℕ) : Fresh (ofHz hz)
  | reset (c : Clock) : Fresh c.reset

/-- Such a clock carries nothing, and is like any other that does not. -/
theorem fresh_iff {c : Clock} : c.Fresh ↔ c.carried = 0 := by
  constructor
  · rintro (_ | _ | _) <;> rfl
  · intro h
    have hreset : c.reset = c := by
      rw [Clock.mk.injEq]
      exact ⟨rfl, h.symm⟩
    exact hreset ▸ .reset c

/-- A clock accounts for all time, however it is sliced. If none is carried at
first, as in a clock that was just made or reset, the periods that have ended after
each call are those that fit in all the time so far, and the rest is carried, less
than a period; so the same time in other slices ends equally many periods, and leaves
the same clock. A call fails exactly if there is a period and the sum is too long to
be counted. Without a period there is nothing to report or to carry.

A stopwatch comes to the quotient from every state, if that fits, and never takes
a longer time off a shorter one. One that was made as the clock was reads it, and
still does once both are reset. One that reads the clock answers as the clock does,
while the counts fit. Where the clock fails it fails too, and stays as it is; while
the count fits, it fails nowhere else. -/
theorem elapseEach_exact (c : Clock) :
    (c.Fresh ↔ c.carried = 0) ∧
    (c.carried = 0 → 0 < c.period → ∀ ts, c.Room ts → ∀ pre, pre <+: ts → ∃ ns c',
      c.elapseEach pre = .ok (ns, c') ∧ ns.sum = pre.sum / c.period ∧
        c'.carried = pre.sum % c.period ∧ c'.carried < c.period) ∧
    (∀ xs ys, c.Room xs → c.Room ys → xs.sum = ys.sum → ∃ ns ks c',
      c.elapseEach xs = .ok (ns, c') ∧ c.elapseEach ys = .ok (ks, c') ∧ ns.sum = ks.sum) ∧
    (∀ t, c.elapse t = .error .duration ↔ 0 < c.period ∧ Time.limit ≤ c.carried + t) ∧
    (c.period = 0 → ∀ t, c.elapse t = .ok (0, c)) ∧
    (∀ (w : Stopwatch) t, (w.elapse t).1 = w.answer t ∧ (w.elapse t).1 ≠ .error .tooShort) ∧
    (∀ period : Span, (Stopwatch.ofPeriod period).Reads (ofPeriod period.total)) ∧
    (∀ hz, (Stopwatch.ofHz hz).Reads (ofHz hz)) ∧
    ∀ w : Stopwatch, w.Reads c →
      w.reset.Reads c.reset ∧
      (∀ ts ns c', c.elapseEach (ts.map Span.total) = .ok (ns, c') →
        (∀ n ∈ ns, n < Stopwatch.countLimit) →
          ∃ w', w.elapseEach ts = (.ok ns, w') ∧ w'.Reads c') ∧
      ∀ t, (0 < c.period ∧ Time.limit ≤ c.carried + t.total → w.elapse t = (.error .tooLong, w)) ∧
        ((c.carried + t.total) / c.period < Stopwatch.countLimit → ∀ j w',
          w.elapse t = (.error j, w') →
            j = .tooLong ∧ w' = w ∧ 0 < c.period ∧ Time.limit ≤ c.carried + t.total) := by
  refine ⟨fresh_iff, fun hfresh hp ts hroom pre hpre => ?_, fun xs ys hx hy hsum => ?_,
    fun t => elapse_eq_error, elapse_of_stopped,
    fun w t => ⟨w.elapse_fst t, w.elapse_ne_tooShort t⟩,
    fun period => Stopwatch.reads_ofPeriod rfl, Stopwatch.reads_ofHz,
    fun w hw => ⟨hw.reset, fun ts ns c' => Stopwatch.elapseEach_reads hw,
      fun t => ⟨fun hlong => ?_, fun hcount j w' hfailed => ?_⟩⟩⟩
  · obtain ⟨post, rfl⟩ := hpre
    obtain ⟨ns, c', hc⟩ := elapseEach_of_room hroom.of_append
    obtain ⟨hperiod, hsum, hcarried⟩ := elapseEach_total hp hc
    rw [hfresh, Nat.zero_add] at hsum hcarried
    exact ⟨ns, c', hc, hsum, hcarried, hcarried ▸ Nat.mod_lt _ hp⟩
  · obtain ⟨ns, c', hc⟩ := elapseEach_of_room hx
    obtain ⟨ks, c2, hc2⟩ := elapseEach_of_room hy
    obtain ⟨hsums, rfl⟩ := elapseEach_of_sum_eq hsum hc hc2
    exact ⟨ns, ks, c', hc, hc2, hsums⟩
  · exact (Stopwatch.elapse_reads hw t).1 (elapse_eq_error.mpr hlong)
  · exact Stopwatch.tooLong_of_elapse hw hcount hfailed

/-- Two halves of a second, and the timers: one second has sixty of their cycles,
and forty nanoseconds are left. -/
theorem timer_halves :
    let half : Span := .ofNanos 500000000 (by decide)
    (∃ ns c', timer.elapseEach [500000000, 500000000] = .ok (ns, c') ∧ ns.sum = 60 ∧
      c'.carried = 40 ∧ c'.carried < timer.period) ∧
    (∃ ns ks c', timer.elapseEach [500000000, 500000000] = .ok (ns, c') ∧
      timer.elapseEach [1000000000] = .ok (ks, c') ∧ ns.sum = ks.sum) ∧
    timer.elapse Time.limit = .error .duration ∧
    (ofHz 0).elapse 1000 = .ok (0, ofHz 0) ∧
    ∃ w', (Stopwatch.ofHz 60).elapseEach [half, half] = (.ok [30, 30], w') := by
  intro half
  have hhalf : half.total = 500000000 := Span.total_ofNanos _
  have hroom : timer.Room [500000000, 500000000] := room_of_sum (by decide)
  obtain ⟨hfresh, hslices, htotals, herror, -, -, -, -, hreads⟩ := elapseEach_exact timer
  have hslice := hslices (hfresh.mp (.ofHz 60)) (by decide) _ hroom _ List.prefix_rfl
  have hanswer : timer.elapseEach [500000000, 500000000] =
      .ok ([30, 30], ⟨16666666, 40, .inr (by decide)⟩) := rfl
  refine ⟨hslice, htotals _ _ hroom (room_of_sum (by decide)) rfl,
    (herror _).mpr ⟨by decide, by decide⟩, (elapseEach_exact (ofHz 0)).2.2.2.2.1 rfl 1000, ?_⟩
  obtain ⟨w', hw', -⟩ := (hreads _ (Stopwatch.reads_ofHz 60)).2.1 [half, half] _ _
    (by rw [List.map_cons, List.map_cons, hhalf]; exact hanswer) (by decide)
  exact ⟨w', hw'⟩

end Clock
end ChipEight
