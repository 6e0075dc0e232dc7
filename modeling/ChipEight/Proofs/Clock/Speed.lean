/-
# A clock of a given speed

The period of a clock is a whole number of nanoseconds, and is rounded down. So
up to one cycle a nanosecond, no fewer cycles become due than were asked for
(`elapseEach_paced`). A higher speed leaves no period at all, and a clock without
a period is never due (`never_due_iff`).
-/
import Mathlib.Algebra.Order.Ring.Nat
import ChipEight.Proofs.Clock

namespace ChipEight
namespace Clock

variable {hz : ℕ}

/-- There is no period at no speed, and beyond one cycle a nanosecond. -/
theorem periodOf_eq_zero : periodOf hz = 0 ↔ hz = 0 ∨ Time.second < hz :=
  Nat.div_eq_zero_iff

theorem periodOf_pos (hpos : 0 < hz) (h : hz ≤ Time.second) : 0 < periodOf hz :=
  Nat.div_pos h hpos

/-- The cycles that were asked for take no longer than the time. -/
theorem mul_div_le_div_periodOf (hpos : 0 < hz) (h : hz ≤ Time.second) (t : ℕ) :
    hz * t / Time.second ≤ t / periodOf hz := by
  rw [Nat.le_div_iff_mul_le (periodOf_pos hpos h)]
  refine Nat.le_of_mul_le_mul_left ?_ hpos
  calc hz * (hz * t / Time.second * periodOf hz)
      = hz * t / Time.second * (hz * periodOf hz) := Nat.mul_left_comm _ _ _
    _ ≤ hz * t / Time.second * Time.second := Nat.mul_le_mul_left _ (Nat.mul_div_le _ hz)
    _ ≤ hz * t := Nat.div_mul_le_self _ _

/-- Up to one cycle a nanosecond a clock keeps up with its speed, whatever it
carried at first. Beyond that nothing becomes due. -/
theorem elapseEach_paced {c c' : Clock} {ts ns : List ℕ} (hperiod : c.period = periodOf hz)
    (h : c.elapseEach ts = .ok (ns, c')) :
    (hz ≤ Time.second → hz * ts.sum / Time.second ≤ ns.sum) ∧
      (Time.second < hz → ns.sum = 0) := by
  constructor
  · intro hle
    rcases Nat.eq_zero_or_pos hz with rfl | hpos
    · rw [Nat.zero_mul, Nat.zero_div]
      exact Nat.zero_le _
    · have hp : 0 < c.period := hperiod ▸ periodOf_pos hpos hle
      calc hz * ts.sum / Time.second ≤ ts.sum / c.period :=
            hperiod ▸ mul_div_le_div_periodOf hpos hle ts.sum
        _ ≤ (c.carried + ts.sum) / c.period := Nat.div_le_div_right (Nat.le_add_left _ _)
        _ = ns.sum := (elapseEach_total hp h).2.1.symm
  · intro hlt
    exact (elapseEach_stopped (hperiod.trans (periodOf_eq_zero.mpr (.inr hlt))) h).1

/-- The clocks on which nothing ever becomes due. -/
theorem never_due_iff : (∀ ts ns c', (ofHz hz).elapseEach ts = .ok (ns, c') → ns.sum = 0) ↔
    hz = 0 ∨ Time.second < hz := by
  rw [← periodOf_eq_zero]
  constructor
  · intro h
    by_contra hne
    have hp : 0 < periodOf hz := Nat.pos_of_ne_zero hne
    -- one period is due after its own length
    have hroom : (ofHz hz).Room [periodOf hz] := by
      refine room_of_sum ?_
      have hle : periodOf hz ≤ Time.second := Nat.div_le_self _ _
      have hlt : Time.second < Time.limit := by decide
      simp only [ofHz, ofPeriod, List.sum_singleton, Nat.zero_add]
      omega
    obtain ⟨ns, c', hc⟩ := elapseEach_of_room hroom
    have hone : ns.sum = (0 + [periodOf hz].sum) / periodOf hz := (elapseEach_total hp hc).2.1
    rw [Nat.zero_add, List.sum_singleton, Nat.div_self hp, h _ _ _ hc] at hone
    cases hone
  · intro h0 ts ns c' hc
    exact (elapseEach_stopped h0 hc).1

end Clock
end ChipEight
