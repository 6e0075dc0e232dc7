/-
# Scripted keys

The key events of a plan are in frame order, so reading number `n` of the keys
applies the events of frame `n`, in the order they were written, and no other
(`due_readings`). On a keypad that nobody else writes, a key is therefore down
exactly if the last event for it was a press (`isDown_of_last`,
`isDown_of_untouched`).

Key definitions: `Replay.readings`, `Replay.LastFor`.
-/
import ChipEight.Replay
import ChipEight.Proofs.Keypad
import ChipEight.Proofs.Plan

namespace ChipEight
namespace Replay

open Plan

/-! ### What is due -/

/-- Where the frames ascend, the events up to a frame stand at the front, and
those of later frames behind them. -/
theorem split_isDue (n : ℕ) : ∀ {keys : List KeyEvent}, Ascending keys →
    keys.takeWhile (isDue n) = keys.filter (·.frame ≤ n) ∧
      keys.dropWhile (isDue n) = keys.filter (n < ·.frame)
  | [], _ => ⟨rfl, rfl⟩
  | e :: keys, h => by
    obtain ⟨hfirst, hrest⟩ := List.pairwise_cons.mp h
    obtain ⟨htake, hdrop⟩ := split_isDue n hrest
    by_cases hdue : e.frame ≤ n
    · have hnot : ¬n < e.frame := Nat.not_lt.mpr hdue
      simp only [isDue, hdue, hnot, List.takeWhile_cons, List.dropWhile_cons, List.filter_cons,
        decide_true, decide_false, if_true, if_false, Bool.false_eq_true]
      exact ⟨congrArg (e :: ·) htake, hdrop⟩
    · have hlater : ∀ a ∈ e :: keys, n < a.frame :=
        List.forall_mem_cons.mpr ⟨Nat.lt_of_not_le hdue, fun a ha =>
          Nat.lt_of_lt_of_le (Nat.lt_of_not_le hdue) (hfirst a ha)⟩
      have hnone : (e :: keys).filter (·.frame ≤ n) = [] :=
        List.filter_eq_nil_iff.mpr fun a ha => by simpa using hlater a ha
      have hall : (e :: keys).filter (n < ·.frame) = e :: keys :=
        List.filter_eq_self.mpr fun a ha => decide_eq_true (hlater a ha)
      have hstop : isDue n e = false := decide_eq_false hdue
      rw [hnone, hall, List.takeWhile_cons, List.dropWhile_cons, hstop]
      exact ⟨rfl, rfl⟩

/-! ### Readings -/

/-- The replay and the keypad after `n` readings of the keys. Before reading
number `k`, others do `meanwhile k` to the keypad. -/
def readings (meanwhile : ℕ → Keypad → Keypad) (r : Replay) (p : Keypad) : ℕ → Replay × Keypad
  | 0 => (r, p)
  | n + 1 =>
    let (r, p) := readings meanwhile r p n
    let (r, p, _) := r.readKeys (meanwhile n p)
    (r, p)

section Readings

variable (meanwhile : ℕ → Keypad → Keypad) (p : Keypad) {keys : List KeyEvent}

/-- After `n` readings, the events still to come are those of frame `n` and
later. -/
theorem pending_readings (h : Ascending keys) : ∀ n,
    (readings meanwhile (ofKeys keys) p n).1.frame = n ∧
      (readings meanwhile (ofKeys keys) p n).1.pending = keys.filter (n ≤ ·.frame)
  | 0 => by
    refine ⟨rfl, ?_⟩
    simp [readings, ofKeys]
  | n + 1 => by
    obtain ⟨hframe, hpending⟩ := pending_readings h n
    have hlater : Ascending (keys.filter (n ≤ ·.frame)) := List.Pairwise.filter _ h
    refine ⟨congrArg Nat.succ hframe, ?_⟩
    calc (readings meanwhile (ofKeys keys) p (n + 1)).1.pending
        = (keys.filter (n ≤ ·.frame)).dropWhile (isDue n) := by
          rw [← hpending]
          exact congrArg (fun k => List.dropWhile (isDue k) _) hframe
      _ = (keys.filter (n ≤ ·.frame)).filter (n < ·.frame) := (split_isDue n hlater).2
      _ = keys.filter (n + 1 ≤ ·.frame) := by
          rw [List.filter_filter]
          refine List.filter_congr fun e _ => ?_
          rw [← Bool.decide_and, decide_eq_decide]
          omega

/-- Reading number `n` applies the events of frame `n`. -/
theorem due_readings (h : Ascending keys) (n : ℕ) :
    (readings meanwhile (ofKeys keys) p n).1.due = keys.filter (·.frame = n) := by
  obtain ⟨hframe, hpending⟩ := pending_readings meanwhile p h n
  have hlater : Ascending (keys.filter (n ≤ ·.frame)) := List.Pairwise.filter _ h
  rw [due, hframe, hpending, (split_isDue n hlater).1, List.filter_filter]
  refine List.filter_congr fun e _ => ?_
  rw [← Bool.decide_and, decide_eq_decide]
  omega

/-- What the readings applied, one after another, and what is still to come
make up the list. -/
theorem flatMap_due_append (n : ℕ) (r : Replay) :
    ((List.range n).flatMap fun k => (readings meanwhile r p k).1.due) ++
      (readings meanwhile r p n).1.pending = r.pending := by
  induction n with
  | zero => rfl
  | succ n ih =>
    rw [List.range_succ, List.flatMap_append, List.flatMap_singleton, List.append_assoc, ← ih]
    congr 1
    exact List.takeWhile_append_dropWhile

end Readings

/-! ### Which keys are down -/

theorem isDown_applyKeys_of_ne {k : Key} : ∀ {keys : List KeyEvent} (p : Keypad),
    (∀ e ∈ keys, e.key ≠ k) → (applyKeys p keys).isDown k = p.isDown k
  | [], _, _ => rfl
  | e :: keys, p, h => by
    obtain ⟨he, hrest⟩ := List.forall_mem_cons.mp h
    have hset : (p.set e.key.val e.pressed).isDown k = p.isDown k := by
      rw [Keypad.isDown_set_val, if_neg he]
    exact (isDown_applyKeys_of_ne _ hrest).trans hset

theorem isDown_applyKeys_last {before after : List KeyEvent} {e : KeyEvent} (p : Keypad)
    (h : ∀ e' ∈ after, e'.key ≠ e.key) :
    (applyKeys p (before ++ e :: after)).isDown e.key = e.pressed := by
  rw [applyKeys, List.foldl_append, List.foldl_cons]
  refine (isDown_applyKeys_of_ne _ h).trans ?_
  rw [Keypad.isDown_set_val, if_pos rfl]

/-- Of the key events for a key in the frames before `n`, this is the last: none
has a later frame, and of those in its own frame it is written last. -/
def LastFor (written : List KeyEvent) (n : ℕ) (k : Key) (e : KeyEvent) : Prop :=
  e.key = k ∧ e.frame < n ∧ ∃ before after, written = before ++ e :: after ∧
    (∀ e' ∈ before, e'.key = k → e'.frame < n → e'.frame ≤ e.frame) ∧
    ∀ e' ∈ after, e'.key = k → e'.frame < n → e'.frame < e.frame

/-- If there is any event for a key, there is a last one. -/
theorem exists_lastFor {n : ℕ} {k : Key} : ∀ {written : List KeyEvent},
    (∃ e ∈ written, e.key = k ∧ e.frame < n) → ∃ e, LastFor written n k e
  | [], h => by
    obtain ⟨e, he, -⟩ := h
    cases he
  | e :: written, h => by
    by_cases hrest : ∃ e' ∈ written, e'.key = k ∧ e'.frame < n
    · obtain ⟨l, hkey, hframe, before, after, rfl, hbefore, hafter⟩ := exists_lastFor hrest
      by_cases hfirst : e.key = k ∧ e.frame < n ∧ l.frame < e.frame
      · obtain ⟨hk, hn, hlt⟩ := hfirst
        refine ⟨e, hk, hn, [], _, rfl, nofun, fun e' he' hk' hn' => ?_⟩
        rcases List.mem_append.mp he' with hb | ha
        · exact Nat.lt_of_le_of_lt (hbefore e' hb hk' hn') hlt
        · rcases List.mem_cons.mp ha with rfl | ha
          · exact hlt
          · exact Nat.lt_trans (hafter e' ha hk' hn') hlt
      · refine ⟨l, hkey, hframe, e :: before, after, rfl, ?_, hafter⟩
        rintro e' (_ | ⟨_, hb⟩) hk' hn'
        · exact Nat.le_of_not_lt fun hlt => hfirst ⟨hk', hn', hlt⟩
        · exact hbefore e' hb hk' hn'
    · obtain ⟨l, hl, hkey, hframe⟩ := h
      rcases List.mem_cons.mp hl with rfl | hl
      · exact ⟨l, hkey, hframe, [], written, rfl, nofun,
          fun e' he' hk' hn' => absurd ⟨e', he', hk', hn'⟩ hrest⟩
      · exact absurd ⟨l, hl, hkey, hframe⟩ hrest

section Held

variable {meanwhile : ℕ → Keypad → Keypad} {written : List KeyEvent} {p : Keypad} {k : Key}

/-- A reading changes which keys are down by the events of its frame alone. -/
theorem readings_succ (n : ℕ) :
    (readings meanwhile (ofKeys (sortKeys written)) p (n + 1)).2 =
      applyKeys (meanwhile n (readings meanwhile (ofKeys (sortKeys written)) p n).2)
        (written.filter (·.frame = n)) := by
  rw [← filter_sortKeys, ← due_readings meanwhile p (ascending_sortKeys _)]
  rfl

variable (hquiet : ∀ n p, (meanwhile n p).isDown k = p.isDown k)
include hquiet

/-- A key that has no event before frame `n` is as it was. -/
theorem isDown_of_untouched : ∀ {n : ℕ}, (∀ e ∈ written, e.key = k → n ≤ e.frame) →
    (readings meanwhile (ofKeys (sortKeys written)) p n).2.isDown k = p.isDown k
  | 0, _ => rfl
  | n + 1, h => by
    have hnone : ∀ e ∈ written.filter (·.frame = n), e.key ≠ k := by
      intro e he hk
      obtain ⟨hmem, hframe⟩ := List.mem_filter.mp he
      exact Nat.not_succ_le_self n (of_decide_eq_true hframe ▸ h e hmem hk)
    rw [readings_succ, isDown_applyKeys_of_ne _ hnone, hquiet]
    exact isDown_of_untouched fun e he hk => Nat.le_of_succ_le (h e he hk)

/-- A key is down or up as the last event for it says. -/
theorem isDown_of_last {e : KeyEvent} : ∀ {n : ℕ}, LastFor written n k e →
    (readings meanwhile (ofKeys (sortKeys written)) p n).2.isDown k = e.pressed
  | 0, h => absurd h.2.1 (Nat.not_lt_zero _)
  | n + 1, h => by
    obtain ⟨hkey, hlt, before, after, hwritten, hbefore, hafter⟩ := h
    rw [readings_succ]
    rcases Nat.lt_or_eq_of_le (Nat.le_of_lt_succ hlt) with hearlier | rfl
    · -- The event is of an earlier frame: frame `n` has none for the key.
      have hnone : ∀ e' ∈ written.filter (·.frame = n), e'.key ≠ k := by
        intro e' he' hk
        obtain ⟨hmem, hframe⟩ := List.mem_filter.mp he'
        have hn : e'.frame = n := of_decide_eq_true hframe
        rw [hwritten] at hmem
        rcases List.mem_append.mp hmem with hb | ha
        · have := hbefore e' hb hk (by omega)
          omega
        · rcases List.mem_cons.mp ha with rfl | ha
          · omega
          · have := hafter e' ha hk (by omega)
            omega
      rw [isDown_applyKeys_of_ne _ hnone, hquiet]
      exact isDown_of_last ⟨hkey, hearlier, before, after, hwritten,
        fun e' hb hk hn => hbefore e' hb hk (Nat.lt_succ_of_lt hn),
        fun e' ha hk hn => hafter e' ha hk (Nat.lt_succ_of_lt hn)⟩
    · have hnone : ∀ e' ∈ after.filter (·.frame = e.frame), e'.key ≠ e.key := by
        intro e' he' hk
        obtain ⟨hmem, hframe⟩ := List.mem_filter.mp he'
        have hn : e'.frame = e.frame := of_decide_eq_true hframe
        have := hafter e' hmem (hk.trans hkey) (by omega)
        omega
      have hsplit : written.filter (·.frame = e.frame) =
          before.filter (·.frame = e.frame) ++ e :: after.filter (·.frame = e.frame) := by
        rw [hwritten, List.filter_append, List.filter_cons, if_pos (decide_eq_true rfl)]
      rw [hsplit, ← hkey]
      exact isDown_applyKeys_last _ hnone

end Held

end Replay

namespace Plan

open Replay

/-- Let a plan be written, with key events in any order. The plan that is read
has the same events in frame order, those of one frame in writing order. Reading
number `n` of the keys applies the events of frame `n` to the keypad it finds,
in writing order, and no other; what the readings applied, one after another, is
always a front part of the plan. So on a keypad on which nobody else presses or
releases keys, those keys are down for which the last event was a press. -/
theorem keys_replayed (plan : Plan) :
    (∀ bytes, written? bytes = some plan → ofBytes? bytes = some plan.arranged) ∧
      plan.arranged.keys.Perm plan.keys ∧ Ascending plan.arranged.keys ∧
      (∀ n, plan.arranged.keys.filter (·.frame = n) = plan.keys.filter (·.frame = n)) ∧
      (∀ meanwhile p n keypad,
        ((readings meanwhile (.ofKeys plan.arranged.keys) p n).1.readKeys keypad).2 =
          (applyKeys keypad (plan.keys.filter (·.frame = n)),
            (plan.keys.filter (·.frame = n)).map fun e => .scripted n e.key e.pressed)) ∧
      (∀ meanwhile p n,
        ((List.range n).flatMap fun k =>
            (readings meanwhile (.ofKeys plan.arranged.keys) p k).1.due) ++
          (readings meanwhile (.ofKeys plan.arranged.keys) p n).1.pending = plan.arranged.keys) ∧
      ∀ meanwhile, (∀ n p k, (meanwhile n p).isDown k = p.isDown k) → ∀ n k,
        ((readings meanwhile (.ofKeys plan.arranged.keys) .released n).2.isDown k = true ↔
          ∃ e, LastFor plan.keys n k e ∧ e.pressed = true) := by
  refine ⟨fun bytes h => ?_, sortKeys_perm _, ascending_sortKeys _, filter_sortKeys _,
    fun meanwhile p n keypad => ?_, fun meanwhile p n => flatMap_due_append meanwhile p n _,
    fun meanwhile hquiet n k => ⟨fun hdown => ?_, ?_⟩⟩
  · rw [ofBytes?_eq, h]
    rfl
  · have hascending : Ascending plan.arranged.keys := ascending_sortKeys _
    have hframe := (pending_readings meanwhile p hascending n).1
    have hdue := due_readings meanwhile p hascending n
    rw [readKeys, hframe, hdue, arranged, filter_sortKeys]
  · by_cases hany : ∃ e ∈ plan.keys, e.key = k ∧ e.frame < n
    · obtain ⟨e, hlast⟩ := exists_lastFor hany
      exact ⟨e, hlast, (isDown_of_last (hquiet · · k) hlast).symm.trans hdown⟩
    · have hnone : ∀ e ∈ plan.keys, e.key = k → n ≤ e.frame :=
        fun e he hk => Nat.le_of_not_lt fun hlt => hany ⟨e, he, hk, hlt⟩
      rw [arranged, isDown_of_untouched (hquiet · · k) hnone, Keypad.isDown_released] at hdown
      cases hdown
  · rintro ⟨e, hlast, hpressed⟩
    exact (isDown_of_last (hquiet · · k) hlast).trans hpressed

/-- A plan that presses the key `5` in frame `0`, and in frame `2` presses and
releases it, written with the later frame first. -/
def shuffled : List UInt8 :=
  "keys: [{frame: 2, key: 5, pressed: true}, {frame: 2, key: 5, pressed: false},
    {frame: 0, key: 5, pressed: true}]".toUTF8.toList

/-- It is down after two readings, and up after three. -/
theorem shuffled_replayed :
    let plan : Plan := ⟨.unset, none, [⟨2, 5, true⟩, ⟨2, 5, false⟩, ⟨0, 5, true⟩]⟩
    let held n := (readings (fun _ p => p) (.ofKeys plan.arranged.keys) .released n).2.isDown 5
    written? shuffled = some plan ∧ ofBytes? shuffled = some plan.arranged ∧
      plan.arranged.keys.filter (·.frame = 2) = [⟨2, 5, true⟩, ⟨2, 5, false⟩] ∧
      held 2 = true ∧ held 3 = false := by
  intro plan held
  have hwritten : written? shuffled = some plan := by decide +kernel
  obtain ⟨hread, -, -, hframes, -, -, hdown⟩ := keys_replayed plan
  have hheld (n : ℕ) : held n = true ↔ ∃ e, LastFor plan.keys n 5 e ∧ e.pressed = true :=
    hdown (fun _ p => p) (fun _ _ _ => rfl) n 5
  have hpress : LastFor plan.keys 2 5 ⟨0, 5, true⟩ :=
    ⟨rfl, by decide, [⟨2, 5, true⟩, ⟨2, 5, false⟩], [], rfl, by decide, by decide⟩
  have hrelease : LastFor plan.keys 3 5 ⟨2, 5, false⟩ :=
    ⟨rfl, by decide, [⟨2, 5, true⟩], [⟨0, 5, true⟩], rfl, by decide, by decide⟩
  exact ⟨hwritten, hread _ hwritten, hframes 2, (hheld 2).mpr ⟨_, hpress, rfl⟩,
    isDown_of_last (fun _ _ => rfl) hrelease⟩

end Plan
end ChipEight
