/-
# Ticks spread evenly between instructions

A batch of `S` instructions and `T` ticks is worked off in the order
`Batch.spread S T`: before instruction `j`, counted from 0, exactly
`⌈j · T / S⌉` ticks have been done (`owed`, `count_tick_upTo`), and what is left
of the ticks comes after the last instruction. So two instructions in a row
have `⌊T / S⌋` or `⌈T / S⌉` ticks between them (`owed_succ_sub`), and all `S` and
all `T` are in the list (`count_step_spread`, `count_tick_spread`).

`Batch.next` finds this order by comparing products (`rest_of_fair`), and below
`2 ^ 32` instructions and ticks the products fit in sixty-four bits
(`products_lt`).

Key definitions: `Batch.owed`, `Batch.spread`, `Batch.upTo`, `Batch.rest`.
-/
import Mathlib.Algebra.Order.Ring.Nat
import ChipEight.Emulator.Elapse

namespace ChipEight
namespace Batch

/-! ### How many ticks are owed -/

/-- The ticks that come before instruction `j`: `j · ticks / steps`, rounded up. -/
def owed (steps ticks j : ℕ) : ℕ := (j * ticks + (steps - 1)) / steps

theorem lt_owed_iff {steps : ℕ} (hs : 0 < steps) (ticks j t : ℕ) :
    t < owed steps ticks j ↔ t * steps < j * ticks := by
  have h : t + 1 ≤ owed steps ticks j ↔ (t + 1) * steps ≤ j * ticks + (steps - 1) :=
    Nat.le_div_iff_mul_le hs
  rw [Nat.add_mul, Nat.one_mul] at h
  exact Nat.succ_le_iff.symm.trans (h.trans (by omega))

theorem owed_le_iff {steps : ℕ} (hs : 0 < steps) (ticks j t : ℕ) :
    owed steps ticks j ≤ t ↔ j * ticks ≤ t * steps := by
  rw [← Nat.not_lt, lt_owed_iff hs, Nat.not_lt]

@[simp] theorem owed_zero (steps ticks : ℕ) : owed steps ticks 0 = 0 := by
  rcases Nat.eq_zero_or_pos steps with rfl | hs
  · exact Nat.div_zero _
  · exact Nat.le_zero.mp ((owed_le_iff hs ticks 0 0).mpr (by simp))

theorem owed_mono {steps ticks j k : ℕ} (h : j ≤ k) : owed steps ticks j ≤ owed steps ticks k :=
  Nat.div_le_div_right (Nat.add_le_add_right (Nat.mul_le_mul_right _ h) _)

theorem owed_le {steps ticks j : ℕ} (h : j ≤ steps) : owed steps ticks j ≤ ticks := by
  rcases Nat.eq_zero_or_pos steps with rfl | hs
  · exact (Nat.div_zero _).trans_le (Nat.zero_le _)
  · rw [owed_le_iff hs, Nat.mul_comm ticks]
    exact Nat.mul_le_mul_right _ h

/-- What is owed is at least its share, and less than one tick more. -/
theorem owed_bounds {steps : ℕ} (hs : 0 < steps) (ticks j : ℕ) :
    j * ticks ≤ owed steps ticks j * steps ∧
      owed steps ticks j * steps < j * ticks + steps := by
  refine ⟨(owed_le_iff hs ticks j _).mp le_rfl, ?_⟩
  have h : owed steps ticks j * steps ≤ j * ticks + (steps - 1) := Nat.div_mul_le_self _ _
  omega

/-- Between two instructions in a row lie `⌊ticks / steps⌋` or `⌈ticks / steps⌉`
ticks. -/
theorem owed_succ_sub {steps : ℕ} (hs : 0 < steps) (ticks j : ℕ) :
    owed steps ticks (j + 1) - owed steps ticks j = ticks / steps ∨
      owed steps ticks (j + 1) - owed steps ticks j = owed steps ticks 1 := by
  obtain ⟨h1, h2⟩ := owed_bounds hs ticks j
  obtain ⟨h3, h4⟩ := owed_bounds hs ticks (j + 1)
  have hmono : owed steps ticks j ≤ owed steps ticks (j + 1) := owed_mono j.le_succ
  obtain ⟨n, hn⟩ := Nat.exists_eq_add_of_le hmono
  rw [hn, Nat.add_mul] at h3 h4
  rw [Nat.add_mul, Nat.one_mul] at h3 h4
  have hlow : ticks / steps ≤ n := by
    rw [← Nat.lt_succ_iff, Nat.div_lt_iff_lt_mul hs, Nat.succ_mul]
    omega
  have hhigh : n ≤ owed steps ticks 1 := by
    rcases Nat.eq_zero_or_pos n with rfl | hpos
    · exact Nat.zero_le _
    · obtain ⟨k, rfl⟩ : ∃ k, n = k + 1 := ⟨n - 1, by omega⟩
      rw [Nat.succ_le_iff, lt_owed_iff hs]
      rw [Nat.add_mul, Nat.one_mul] at h4
      omega
  have hone : owed steps ticks 1 ≤ ticks / steps + 1 := by
    rw [owed_le_iff hs, Nat.one_mul, Nat.mul_comm]
    exact (Nat.lt_mul_div_succ ticks hs).le
  rw [hn]
  omega

/-! ### The order -/

/-- The ticks that come right before instruction `j`. -/
def lead (steps ticks j : ℕ) : List Due :=
  List.replicate (owed steps ticks j - owed steps ticks (j - 1)) .tick

/-- The `n` instructions from number `j` on, each after the ticks that come
right before it. -/
def turns (steps ticks : ℕ) : ℕ → ℕ → List Due
  | _, 0 => []
  | j, n + 1 => lead steps ticks j ++ .step :: turns steps ticks (j + 1) n

/-- The ticks that come after the last instruction. -/
def trail (steps ticks : ℕ) : List Due :=
  List.replicate (ticks - owed steps ticks (steps - 1)) .tick

/-- A whole batch: before each instruction the ticks that are owed by then, and
after the last one those that are left. -/
def spread (steps ticks : ℕ) : List Due := turns steps ticks 0 steps ++ trail steps ticks

/-- All that comes before instruction `j`. -/
def upTo (steps ticks j : ℕ) : List Due := turns steps ticks 0 j ++ lead steps ticks j

theorem turns_add (steps ticks : ℕ) : ∀ m j n : ℕ,
    turns steps ticks j (m + n) = turns steps ticks j m ++ turns steps ticks (j + m) n
  | 0, j, n => by rw [Nat.zero_add]; rfl
  | m + 1, j, n => by
    rw [Nat.add_right_comm, turns, turns_add steps ticks m (j + 1) n, turns,
      Nat.add_right_comm j 1 m, List.append_assoc, List.cons_append, Nat.add_assoc]

theorem upTo_succ (steps ticks j : ℕ) :
    upTo steps ticks (j + 1) = upTo steps ticks j ++ .step :: lead steps ticks (j + 1) := by
  rw [upTo, turns_add, Nat.zero_add, turns, turns, upTo, List.append_assoc, List.append_assoc,
    List.append_assoc, List.singleton_append]

@[simp] theorem count_step_upTo (steps ticks j : ℕ) : (upTo steps ticks j).count .step = j := by
  induction j with
  | zero => simp [upTo, turns, lead]
  | succ j ih => rw [upTo_succ, List.count_append, ih]; simp [lead, List.count_replicate]

@[simp] theorem count_tick_upTo (steps ticks j : ℕ) :
    (upTo steps ticks j).count .tick = owed steps ticks j := by
  induction j with
  | zero => simp [upTo, turns, lead]
  | succ j ih =>
    have hmono : owed steps ticks j ≤ owed steps ticks (j + 1) := owed_mono j.le_succ
    rw [upTo_succ, List.count_append, ih]
    simp [lead]
    omega

/-- Instruction `j` comes after all that is to come before it. -/
theorem spread_eq_upTo {steps ticks j : ℕ} (h : j < steps) : spread steps ticks =
    upTo steps ticks j ++
      .step :: (turns steps ticks (j + 1) (steps - (j + 1)) ++ trail steps ticks) := by
  obtain ⟨k, hk⟩ : ∃ k, steps = j + (k + 1) := ⟨steps - (j + 1), by omega⟩
  have hsub : steps - (j + 1) = k := by omega
  have hturns : turns steps ticks 0 steps = turns steps ticks 0 j ++ (lead steps ticks j ++
      .step :: turns steps ticks (j + 1) k) := by
    have hadd := turns_add steps ticks j 0 (k + 1)
    rw [← hk, Nat.zero_add, turns] at hadd
    exact hadd
  rw [spread, upTo, hturns, hsub, List.append_assoc, List.append_assoc, List.append_assoc,
    List.cons_append]

theorem spread_zero (ticks : ℕ) : spread 0 ticks = List.replicate ticks .tick := by
  simp [spread, turns, trail]

@[simp] theorem count_step_spread (steps ticks : ℕ) : (spread steps ticks).count .step = steps := by
  rcases Nat.eq_zero_or_pos steps with rfl | hs
  · simp [spread_zero, List.count_replicate]
  · rw [spread_eq_upTo (Nat.sub_lt hs Nat.one_pos), List.count_append, count_step_upTo,
      Nat.sub_add_cancel hs, Nat.sub_self]
    simp [turns, trail, List.count_replicate]
    omega

@[simp] theorem count_tick_spread (steps ticks : ℕ) : (spread steps ticks).count .tick = ticks := by
  rcases Nat.eq_zero_or_pos steps with rfl | hs
  · simp [spread_zero]
  · have hle : owed steps ticks (steps - 1) ≤ ticks := owed_le (Nat.sub_le _ _)
    rw [spread_eq_upTo (Nat.sub_lt hs Nat.one_pos), List.count_append, count_tick_upTo,
      Nat.sub_add_cancel hs, Nat.sub_self]
    simp [turns, trail]
    omega

/-! ### A batch finds the order by comparing products -/

/-- A batch that has done no more than its order wants: the ticks are at most
those owed before the next instruction, and all those owed before the latest
one have been done. -/
structure Fair (b : Batch) : Prop where
  stepped_le : b.stepped ≤ b.steps
  ticked_le : b.ticked ≤ b.ticks
  ticked_le_owed : b.stepped < b.steps → b.ticked ≤ owed b.steps b.ticks b.stepped
  owed_le_ticked : owed b.steps b.ticks (b.stepped - 1) ≤ b.ticked

/-- What is left to do of a batch. -/
def rest (b : Batch) : List Due :=
  if b.stepped < b.steps then
    List.replicate (owed b.steps b.ticks b.stepped - b.ticked) .tick ++
      .step :: (turns b.steps b.ticks (b.stepped + 1) (b.steps - (b.stepped + 1)) ++
        trail b.steps b.ticks)
  else List.replicate (b.ticks - b.ticked) .tick

theorem fair_ofCounts (steps ticks : ℕ) : (ofCounts steps ticks).Fair :=
  ⟨Nat.zero_le _, Nat.zero_le _, fun _ => Nat.zero_le _, (owed_zero steps ticks).le⟩

/-- At the start the whole order is left. -/
theorem rest_ofCounts (steps ticks : ℕ) : (ofCounts steps ticks).rest = spread steps ticks := by
  rcases Nat.eq_zero_or_pos steps with rfl | hs
  · exact (spread_zero ticks).symm
  · have hpos : 0 < steps := hs
    rw [spread_eq_upTo hs]
    simp [rest, ofCounts, upTo, turns, lead, hpos]

theorem rest_of_next_none {b : Batch} (h : b.next = none) : b.rest = [] := by
  unfold next at h
  split at h
  · split at h <;> cases h
  · next hs =>
    split at h
    · cases h
    · next ht =>
      rw [rest, if_neg hs, Nat.sub_eq_zero_of_le (Nat.le_of_not_lt ht)]
      rfl

/-- What comes next is the first thing left, and fairness is kept. -/
theorem rest_of_fair {b : Batch} (hb : b.Fair) {due : Due} (h : b.next = some due) :
    (b.count due).Fair ∧ b.rest = due :: (b.count due).rest := by
  unfold next at h
  split at h
  · next hs =>
    have hpos : 0 < b.steps := Nat.zero_lt_of_lt hs
    have howed := hb.ticked_le_owed hs
    split at h
    · -- a tick is owed before the next instruction
      next hlt =>
      cases h
      have hlt : b.ticked < owed b.steps b.ticks b.stepped := (lt_owed_iff hpos _ _ _).mpr hlt
      have hle : owed b.steps b.ticks b.stepped ≤ b.ticks := owed_le hb.stepped_le
      refine ⟨⟨hb.stepped_le, Nat.le_trans hlt hle, fun _ => hlt,
        Nat.le_succ_of_le hb.owed_le_ticked⟩, ?_⟩
      obtain ⟨n, hn⟩ := Nat.exists_eq_add_of_lt hlt
      have h1 : owed b.steps b.ticks b.stepped - b.ticked = n + 1 := by omega
      have h2 : owed b.steps b.ticks b.stepped - (b.ticked + 1) = n := by omega
      simp only [rest, count, if_pos hs, h1, h2, List.replicate_succ, List.cons_append]
    · -- all of them have been done
      next hge =>
      cases h
      have heq : b.ticked = owed b.steps b.ticks b.stepped := by
        have := (lt_owed_iff hpos b.ticks b.stepped b.ticked).not.mpr hge
        omega
      have hmono : owed b.steps b.ticks b.stepped ≤ owed b.steps b.ticks (b.stepped + 1) :=
        owed_mono (Nat.le_succ _)
      refine ⟨⟨hs, hb.ticked_le, fun _ => heq.le.trans hmono, heq.ge⟩, ?_⟩
      rw [rest, if_pos hs, ← heq, Nat.sub_self, List.replicate_zero, List.nil_append]
      by_cases hlast : b.stepped + 1 < b.steps
      · obtain ⟨k, hk⟩ : ∃ k, b.steps - (b.stepped + 1) = k + 1 :=
          ⟨b.steps - (b.stepped + 2), by omega⟩
        have hk' : b.steps - (b.stepped + 1 + 1) = k := by omega
        simp only [rest, count, if_pos hlast, hk, hk', turns, lead, heq, Nat.add_sub_cancel,
          List.append_assoc, List.cons_append]
      · have hsteps : b.steps - 1 = b.stepped := by omega
        have hnone : b.steps - (b.stepped + 1) = 0 := by omega
        simp only [rest, count, if_neg hlast, hnone, turns, trail, hsteps, heq, List.nil_append]
  · next hs =>
    split at h
    · next hlt =>
      cases h
      refine ⟨⟨hb.stepped_le, hlt, fun hs' => absurd hs' hs,
        Nat.le_succ_of_le hb.owed_le_ticked⟩, ?_⟩
      obtain ⟨n, hn⟩ := Nat.exists_eq_add_of_lt hlt
      have h1 : b.ticks - b.ticked = n + 1 := by omega
      have h2 : b.ticks - (b.ticked + 1) = n := by omega
      simp only [rest, count, if_neg hs, h1, h2, List.replicate_succ]
    · cases h

/-! ### The products that are compared -/

/-- The batches that come about while `steps` instructions and `ticks` ticks are
worked off. -/
inductive Visited (steps ticks : ℕ) : Batch → Prop
  | start : Visited steps ticks (ofCounts steps ticks)
  | next {b : Batch} {due : Due} : Visited steps ticks b → b.next = some due →
    Visited steps ticks (b.count due)

theorem Visited.fair {steps ticks : ℕ} {b : Batch} (h : Visited steps ticks b) :
    b.Fair ∧ b.steps = steps ∧ b.ticks = ticks := by
  induction h with
  | start => exact ⟨fair_ofCounts steps ticks, rfl, rfl⟩
  | @next b due _ hn ih =>
    refine ⟨(rest_of_fair ih.1 hn).1, ?_⟩
    cases due <;> exact ih.2

/-- Below `2 ^ 32` instructions and ticks, no product outgrows sixty-four bits. -/
theorem Visited.products_lt {steps ticks : ℕ} {b : Batch} (h : Visited steps ticks b)
    (hs : steps < 2 ^ 32) (ht : ticks < 2 ^ 32) :
    b.ticked * b.steps < 2 ^ 64 ∧ b.stepped * b.ticks < 2 ^ 64 := by
  obtain ⟨hf, rfl, rfl⟩ := h.fair
  have h1 : b.ticked < 2 ^ 32 := Nat.lt_of_le_of_lt hf.ticked_le ht
  have h2 : b.stepped < 2 ^ 32 := Nat.lt_of_le_of_lt hf.stepped_le hs
  rw [show 2 ^ 64 = 2 ^ 32 * 2 ^ 32 from rfl]
  exact ⟨Nat.mul_lt_mul'' h1 hs, Nat.mul_lt_mul'' h2 ht⟩

end Batch
end ChipEight
