/-
# What a keypad tells of its history

A keypad starts with every key up. Which keys are down and which are fresh can then
be told from the calls alone: a key is down if the last call for it since the keypad
was cleared was a press (`isDown_after`), and fresh if it went down from up and since
then the keypad was neither cleared nor made to forget, and the key was not taken
(`isFresh_after`). So its two words stand for two sets of keys, of which taking gives
the lowest one by one (`after_exact`).

Key definitions: `Since`, `Keypad.Use`, `Keypad.after`, `Keypad.Pressed`,
`Keypad.Pending`.
-/
import Mathlib.Data.List.Induction
import ChipEight.Proofs.Keypad.Taking

namespace ChipEight

/-- Something in a history started it, and nothing has stopped it since. What starts
or stops it may depend on what was there before. -/
def Since {α : Type} (starts stops : List α → α → Prop) (l : List α) : Prop :=
  ∃ pre a post, l = pre ++ a :: post ∧ starts pre a ∧
    ∀ mid b rest, post = mid ++ b :: rest → ¬ stops (pre ++ a :: mid) b

section Since

variable {α : Type} {starts stops : List α → α → Prop} {l : List α}

theorem not_since_nil : ¬ Since starts stops [] := by
  rintro ⟨pre, a, post, h, -⟩
  exact List.append_ne_nil_of_right_ne_nil pre (List.cons_ne_nil a post) h.symm

/-- The last of the history starts it, or it held before and the last does not stop
it. -/
theorem since_snoc {b : α} :
    Since starts stops (l ++ [b]) ↔ starts l b ∨ Since starts stops l ∧ ¬ stops l b := by
  constructor
  · rintro ⟨pre, a, post, h, hstart, hstop⟩
    rcases List.eq_nil_or_concat post with rfl | ⟨post, c, rfl⟩
    · obtain ⟨rfl, ha⟩ := List.append_inj' h rfl
      rw [List.head_eq_of_cons_eq ha]
      exact .inl hstart
    · rw [List.concat_eq_append, ← List.cons_append, ← List.append_assoc] at h
      obtain ⟨rfl, hb⟩ := List.append_inj' h rfl
      rw [List.head_eq_of_cons_eq hb]
      refine .inr ⟨⟨pre, a, post, rfl, hstart, fun mid d rest hpost => ?_⟩,
        hstop post c [] List.concat_eq_append⟩
      refine hstop mid d (rest ++ [c]) ?_
      rw [List.concat_eq_append, hpost, List.append_assoc, List.cons_append]
  · rintro (hstart | ⟨⟨pre, a, post, rfl, hstart, hstop⟩, hb⟩)
    · refine ⟨l, b, [], rfl, hstart, fun mid d rest h => ?_⟩
      exact absurd h.symm (List.append_ne_nil_of_right_ne_nil mid (List.cons_ne_nil d rest))
    · refine ⟨pre, a, post ++ [b], by rw [List.append_assoc, List.cons_append], hstart, ?_⟩
      intro mid d rest hpost
      rcases List.eq_nil_or_concat rest with rfl | ⟨rest, c, rfl⟩
      · obtain ⟨rfl, hd⟩ := List.append_inj' hpost rfl
        rw [← List.head_eq_of_cons_eq hd]
        exact hb
      · rw [List.concat_eq_append, ← List.cons_append, ← List.append_assoc] at hpost
        obtain ⟨rfl, -⟩ := List.append_inj' hpost rfl
        exact hstop mid d rest rfl

/-- What does not start again held before. -/
theorem Since.of_append {more : List α} (h : Since starts stops (l ++ more))
    (hmore : ∀ mid b rest, more = mid ++ b :: rest → ¬ starts (l ++ mid) b) :
    Since starts stops l := by
  induction more using List.reverseRecOn with
  | nil => rwa [List.append_nil] at h
  | append_singleton more b ih =>
    rw [← List.append_assoc, since_snoc] at h
    rcases h with hstart | ⟨h, -⟩
    · exact absurd hstart (hmore more b [] rfl)
    · refine ih h fun mid c rest hsplit => hmore mid c (rest ++ [b]) ?_
      rw [hsplit, List.append_assoc, List.cons_append]

end Since

namespace Keypad

/-- One call on a keypad. -/
inductive Use where
  /-- The key with this number goes down or up. -/
  | set (id : ℕ) (pressed : Bool)
  | forget
  | take
  | clear
  deriving DecidableEq, Repr

/-- The keypad after one call. -/
def use (p : Keypad) : Use → Keypad
  | .set id pressed => p.set id pressed
  | .forget => p.forget
  | .take => p.take.2
  | .clear => p.clear

/-- A new keypad after calls one after the other. -/
def after (l : List Use) : Keypad := l.foldl use released

theorem after_snoc (l : List Use) (u : Use) : after (l ++ [u]) = (after l).use u := by
  rw [after, List.foldl_append]
  rfl

/-! ### The two sets, call by call -/

/-- The last call for the number since the keypad was cleared was a press. -/
def Pressed (id : ℕ) : List Use → Prop :=
  Since (fun _ u => u = .set id true) fun _ u => (∃ pressed, u = .set id pressed) ∨ u = .clear

/-- A call by which a key goes down from up. -/
def Strikes (k : Key) (l : List Use) (u : Use) : Prop := u = .set k.val true ∧ ¬ Pressed k l

/-- A key went down from up, and since then the keypad was neither cleared nor made
to forget, and the key was not taken. -/
def Pending (k : Key) : List Use → Prop :=
  Since (Strikes k) fun l u => u = .clear ∨ u = .forget ∨ u = .take ∧ (after l).take.1 = some k

theorem isDown_after (l : List Use) (k : Key) : (after l).isDown k = true ↔ Pressed k l := by
  -- the last call decides, so the list is taken apart at its end
  induction l using List.reverseRecOn with
  | nil => simp [after, Pressed, not_since_nil]
  | append_singleton l u ih =>
    rw [after_snoc, Pressed, since_snoc, ← Pressed, ← ih]
    cases u with
    | set id pressed =>
      simp only [use, isDown_set]
      cases pressed <;> by_cases hid : id = k.val <;> simp [hid]
    | forget => simp [use]
    | take => simp [use, isDown_take]
    | clear => simp [use, clear]

theorem isFresh_after (l : List Use) (k : Key) : (after l).isFresh k = true ↔ Pending k l := by
  induction l using List.reverseRecOn with
  | nil => simp [after, Pending, not_since_nil]
  | append_singleton l u ih =>
    rw [after_snoc, Pending, since_snoc, ← Pending, ← ih, Strikes, ← isDown_after]
    cases u with
    | set id pressed =>
      simp only [use, isFresh_set]
      cases pressed <;> by_cases hid : id = k.val <;> simp [hid, or_comm]
    | forget => simp [use]
    | take => simp [use, isFresh_take]
    | clear => simp [use, clear]

theorem isPressed_after (l : List Use) (id : ℕ) :
    (after l).isPressed id = true ↔ id < 16 ∧ Pressed id l := by
  unfold isPressed
  rcases Nat.lt_or_ge id 16 with hid | hid
  · obtain ⟨k, rfl⟩ : ∃ k : Key, id = k.val := ⟨⟨id, hid⟩, rfl⟩
    rw [Key.ofNat?_val]
    simp only [isDown_after, hid, true_and]
  · simp [Key.ofNat?, Nat.not_lt.mpr hid]

/-- However a new keypad is used, a number is pressed if it stands for a key and the
last call for it since the keypad was cleared was a press, and the fresh keys are the
pending ones. Taking gives the lowest of them, which is the number of zeros below the
lowest bit of the word that holds them, and makes it alone no longer fresh; where none
is pending it gives nothing. A number of no key changes nothing. Taking again and
again gives the pending keys in ascending order. Once it gives nothing, it does so
until a key goes down from up. -/
theorem after_exact (l : List Use) :
    let p := after l
    (∀ id, p.isPressed id = true ↔ id < 16 ∧ Pressed id l) ∧
      (∀ k, p.isFresh k = true ↔ Pending k l) ∧
      (∀ k, p.take.1 = some k ↔ Pending k l ∧ ∀ j, Pending j l → k ≤ j) ∧
      (p.take.1 = none ↔ ∀ k, ¬ Pending k l) ∧
      p.take.1.map Fin.val = (if p.fresh = 0#16 then none else some p.fresh.ctz.toNat) ∧
      (∀ k, p.take.2.isDown k = p.isDown k ∧
        (p.take.2.isFresh k = true ↔ Pending k l ∧ p.take.1 ≠ some k)) ∧
      (∀ id pressed, 16 ≤ id → p.set id pressed = p) ∧
      (p.freshKeys.Pairwise (· < ·) ∧ (∀ k, k ∈ p.freshKeys ↔ Pending k l) ∧
        ∀ n, p.takes n = (List.range n).map (p.freshKeys[·]?)) ∧
      ∀ more, p.take.1 = none →
        (∀ mid u rest, more = mid ++ u :: rest → ∀ k, ¬ Strikes k (l ++ mid) u) →
        (after (l ++ more)).take.1 = none := by
  intro p
  have hfresh : ∀ k, p.isFresh k = true ↔ Pending k l := isFresh_after l
  have hnone : ∀ l, (after l).take.1 = none ↔ ∀ k, ¬ Pending k l := by
    intro l
    simp only [take_fst_eq_none, ← isFresh_after, Bool.not_eq_true]
  refine ⟨isPressed_after l, hfresh, fun k => ?_, hnone l, take_fst_eq_ctz p, fun k => ?_,
    fun id pressed hid => set_of_le hid p pressed,
    ⟨freshKeys_pairwise p, fun k => mem_freshKeys.trans (hfresh k), fun n => takes_eq n p⟩,
    fun more hl hmore => ?_⟩
  · simp only [take_fst_eq_some, hfresh]
  · refine ⟨isDown_take p k, ?_⟩
    rw [isFresh_take, Bool.and_eq_true, hfresh, Bool.not_eq_true', decide_eq_false_iff_not]
  · refine (hnone _).mpr fun k hk => (hnone l).mp hl k (hk.of_append ?_)
    exact fun mid u rest hsplit => hmore mid u rest hsplit k

/-- Key 3 goes down and is forgotten, and goes down once more after it was let go, and
so does key 9. The number 20 stands for no key. -/
def dialled : List Use :=
  [.set 3 true, .forget, .set 3 true, .set 9 true, .set 20 true, .set 3 false, .set 3 true]

/-- The two keys are taken in order, and nothing after them, though key 9 is told once
more to be down and key 3 to be up. -/
theorem dialled_exact :
    let all := dialled ++ [.take, .take]
    (after dialled).isPressed 20 = false ∧
      (after dialled).takes 4 = [some 3, some 9, none, none] ∧ (after all).take.1 = none ∧
      (after (all ++ [.set 9 true, .set 3 false])).take.1 = none := by
  intro all
  obtain ⟨hpressed, -, -, -, -, -, -, ⟨-, -, htakes⟩, -⟩ := after_exact dialled
  obtain ⟨hdown, -, -, -, -, -, -, -, hlater⟩ := after_exact all
  have hkeys : (after dialled).freshKeys = [3, 9] := by decide +kernel
  have hnone : (after all).take.1 = none := by decide +kernel
  have hheld : Pressed 9 all := ((hdown 9).mp (by decide +kernel)).2
  refine ⟨?_, ?_, hnone, hlater _ hnone ?_⟩
  · exact Bool.eq_false_iff.mpr fun h => absurd ((hpressed 20).mp h).1 (by decide)
  · rw [htakes, hkeys]
    rfl
  · rintro mid u rest hsplit k ⟨rfl, hup⟩
    -- only the first of the two calls is a press, and that key is held
    rcases mid with _ | ⟨u, _ | ⟨u', mid⟩⟩
    · have hk : 9 = k.val ∧ true = true := Use.set.inj (List.head_eq_of_cons_eq hsplit)
      rw [← hk.1, List.append_nil] at hup
      exact hup hheld
    · simp at hsplit
    · simp at hsplit

end Keypad
end ChipEight
