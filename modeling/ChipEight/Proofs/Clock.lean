/-
# Elapsed time in slices

A clock loses no time between two calls: over any list of elapsed times, the
periods that end are those that fit in the time carried at first and all the
times together, and the rest is carried (`elapseEach_total`). Two lists of the
same sum end equally many periods and leave the same clock
(`elapseEach_of_sum_eq`). A call fails only if the sum is too long to be counted
(`elapse_eq_error`), so with room there is an answer (`elapseEach_of_room`).

Key definitions: `Clock.elapseEach`, `Clock.Room`.
-/
import Mathlib.Algebra.Ring.Nat
import ChipEight.Clock

namespace ChipEight

/-- A computation in two parts succeeds exactly if both do. -/
theorem bind_eq_ok {ε α β : Type} {x : Except ε α} {f : α → Except ε β} {b : β} :
    x >>= f = .ok b ↔ ∃ a, x = .ok a ∧ f a = .ok b := by
  constructor
  · intro h
    rcases x with e | a
    · cases h
    · exact ⟨a, rfl, h⟩
  · rintro ⟨a, rfl, h⟩
    exact h

namespace Clock

/-- Let the listed times pass one after the other. The answer lists the periods
that ended in each. -/
def elapseEach (c : Clock) : List ℕ → Except Overflow (List ℕ × Clock)
  | [] => .ok ([], c)
  | t :: ts => do
    let (n, c) ← c.elapse t
    let (ns, c) ← c.elapseEach ts
    return (n :: ns, c)

theorem elapse_total {c c' : Clock} {t n : ℕ} (h : c.elapse t = .ok (n, c')) :
    c'.period = c.period ∧ (c.period = 0 → n = 0 ∧ c' = c) ∧
      (0 < c.period → n = (c.carried + t) / c.period ∧
        c'.carried = (c.carried + t) % c.period) := by
  unfold elapse at h
  split at h
  · next hp => cases h; exact ⟨rfl, fun _ => ⟨rfl, rfl⟩, fun hpos => absurd hp (Nat.ne_of_gt hpos)⟩
  · next hp =>
    split at h
    · cases h; exact ⟨rfl, fun h0 => absurd h0 hp, fun _ => ⟨rfl, rfl⟩⟩
    · cases h

/-- The number of periods is a quotient, also where there is no period. -/
theorem elapse_count {c c' : Clock} {t n : ℕ} (h : c.elapse t = .ok (n, c')) :
    n = (c.carried + t) / c.period := by
  obtain ⟨-, hstopped, hdue⟩ := elapse_total h
  rcases Nat.eq_zero_or_pos c.period with hp | hp
  · rw [(hstopped hp).1, hp, Nat.div_zero]
  · exact (hdue hp).1

theorem elapseEach_cons {c c' : Clock} {t : ℕ} {ts ns : List ℕ}
    (h : c.elapseEach (t :: ts) = .ok (ns, c')) : ∃ n c1 ks, c.elapse t = .ok (n, c1) ∧
      c1.elapseEach ts = .ok (ks, c') ∧ ns = n :: ks := by
  obtain ⟨⟨n, c1⟩, hc, h⟩ := bind_eq_ok.mp h
  obtain ⟨⟨ks, c2⟩, hr, h⟩ := bind_eq_ok.mp h
  cases h
  exact ⟨n, c1, ks, hc, hr, rfl⟩

/-- A clock of no period carries nothing, and nothing becomes due. -/
theorem elapseEach_stopped : ∀ {ts ns : List ℕ} {c c' : Clock}, c.period = 0 →
    c.elapseEach ts = .ok (ns, c') → ns.sum = 0 ∧ c' = c
  | [], _, _, _, _, h => by cases h; exact ⟨rfl, rfl⟩
  | t :: ts, ns, c, c', hp, h => by
    obtain ⟨n, c1, ks, hc, hr, rfl⟩ := elapseEach_cons h
    obtain ⟨rfl, rfl⟩ := (elapse_total hc).2.1 hp
    obtain ⟨hsum, rfl⟩ := elapseEach_stopped hp hr
    exact ⟨by rw [List.sum_cons, hsum], rfl⟩

/-- No time is lost between the slices. -/
theorem elapseEach_total : ∀ {ts ns : List ℕ} {c c' : Clock}, 0 < c.period →
    c.elapseEach ts = .ok (ns, c') → c'.period = c.period ∧
      ns.sum = (c.carried + ts.sum) / c.period ∧ c'.carried = (c.carried + ts.sum) % c.period
  | [], _, c, _, hp, h => by
    have hlt : c.carried < c.period := c.carried_lt.elim (fun h0 => h0 ▸ hp) id
    cases h
    exact ⟨rfl, (Nat.div_eq_of_lt hlt).symm, (Nat.mod_eq_of_lt hlt).symm⟩
  | t :: ts, ns, c, c', hp, h => by
    obtain ⟨n, c1, ks, hc, hr, rfl⟩ := elapseEach_cons h
    obtain ⟨hperiod, -, hpos⟩ := elapse_total hc
    obtain ⟨hn, hcarried⟩ := hpos hp
    rw [← hperiod] at hp
    obtain ⟨h1, h2, h3⟩ := elapseEach_total hp hr
    rw [hperiod] at h1 h2 h3 hp
    have hsplit : c.carried + (t :: ts).sum =
        c1.carried + ts.sum + c.period * n := by
      have := Nat.mod_add_div (c.carried + t) c.period
      rw [← hcarried, ← hn] at this
      rw [List.sum_cons]
      omega
    refine ⟨h1, ?_, ?_⟩
    · rw [hsplit, Nat.add_mul_div_left _ _ hp, List.sum_cons, h2, Nat.add_comm]
    · rw [hsplit, Nat.add_mul_mod_self_left, h3]

/-- How the time is sliced makes no difference. -/
theorem elapseEach_of_sum_eq {c c1 c2 : Clock} {xs ys ns ks : List ℕ} (hsum : xs.sum = ys.sum)
    (hx : c.elapseEach xs = .ok (ns, c1)) (hy : c.elapseEach ys = .ok (ks, c2)) :
    ns.sum = ks.sum ∧ c1 = c2 := by
  rcases Nat.eq_zero_or_pos c.period with hp | hp
  · obtain ⟨h1, rfl⟩ := elapseEach_stopped hp hx
    obtain ⟨h2, rfl⟩ := elapseEach_stopped hp hy
    exact ⟨h1.trans h2.symm, rfl⟩
  · obtain ⟨hperiod1, h1, hcarried1⟩ := elapseEach_total hp hx
    obtain ⟨hperiod2, h2, hcarried2⟩ := elapseEach_total hp hy
    refine ⟨by rw [h1, h2, hsum], ?_⟩
    rw [Clock.mk.injEq, hperiod1, hperiod2, hcarried1, hcarried2, hsum]
    exact ⟨rfl, rfl⟩

/-! ### Room for what passes -/

/-- The sum of what is carried and what passes is all that can go wrong. -/
theorem elapse_eq_error {c : Clock} {t : ℕ} :
    c.elapse t = .error .duration ↔ 0 < c.period ∧ Time.limit ≤ c.carried + t := by
  unfold elapse
  split
  · next hp => simp [hp]
  · next hp =>
    split
    · next hlt => simp [hlt]
    · next hge => simp [Nat.pos_of_ne_zero hp, Nat.le_of_not_lt hge]

theorem elapse_of_stopped {c : Clock} (h : c.period = 0) (t : ℕ) : c.elapse t = .ok (0, c) :=
  dif_pos h

/-- There is an answer if the sum can be counted. -/
theorem elapse_of_room {c : Clock} {t : ℕ} (h : c.period = 0 ∨ c.carried + t < Time.limit) :
    ∃ n c', c.elapse t = .ok (n, c') := by
  cases heq : c.elapse t with
  | error e =>
    obtain ⟨hpos, hle⟩ := elapse_eq_error.mp heq
    omega
  | ok r => exact ⟨r.1, r.2, rfl⟩

/-- The listed times can pass one after the other, and nowhere is the sum too long
to be counted. -/
def Room (c : Clock) : List ℕ → Prop
  | [] => True
  | t :: ts => (c.period = 0 ∨ c.carried + t < Time.limit) ∧
    ∀ n c', c.elapse t = .ok (n, c') → c'.Room ts

/-- There is room for what can be counted all at once. -/
theorem room_of_sum : ∀ {ts : List ℕ} {c : Clock}, c.carried + ts.sum < Time.limit → c.Room ts
  | [], _, _ => trivial
  | t :: ts, c, h => by
    rw [List.sum_cons] at h
    refine ⟨.inr (by omega), fun n c' hc => room_of_sum ?_⟩
    have hle : c'.carried ≤ c.carried + t := by
      obtain ⟨-, hstopped, hpos⟩ := elapse_total hc
      rcases Nat.eq_zero_or_pos c.period with hp | hp
      · rw [(hstopped hp).2]
        exact Nat.le_add_right _ _
      · rw [(hpos hp).2]
        exact Nat.mod_le _ _
    omega

/-- With room, every call has an answer. -/
theorem elapseEach_of_room : ∀ {ts : List ℕ} {c : Clock}, c.Room ts →
    ∃ ns c', c.elapseEach ts = .ok (ns, c')
  | [], c, _ => ⟨[], c, rfl⟩
  | t :: ts, c, h => by
    obtain ⟨n, c1, hc⟩ := elapse_of_room h.1
    obtain ⟨ns, c', hr⟩ := elapseEach_of_room (h.2 n c1 hc)
    exact ⟨n :: ns, c', bind_eq_ok.mpr ⟨_, hc, bind_eq_ok.mpr ⟨_, hr, rfl⟩⟩⟩

theorem Room.of_append : ∀ {xs ys : List ℕ} {c : Clock}, c.Room (xs ++ ys) → c.Room xs
  | [], _, _, _ => trivial
  | _ :: _, _, _, h => ⟨h.1, fun n c' hc => (h.2 n c' hc).of_append⟩

end Clock
end ChipEight
