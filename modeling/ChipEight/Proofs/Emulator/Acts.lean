/-
# What a host does by hand

A host that drives an emulator by hand makes steps and ticks, and tells it of
keys (`Act`). Of the acts alone, without looking at the emulator, one can tell
which keys are held (`held`) and which were struck, that is, went down from up
and were not cleared since (`Struck`).

Key definitions: `Act`, `Emulator.acts`, `held`, `Struck`.
-/
import Mathlib.Data.List.Induction
import ChipEight.Emulator

namespace ChipEight

/-- One call by which a host drives an emulator by hand. -/
inductive Act where
  | step
  | tick
  | key (k : Key) (pressed : Bool)
  | clear
  deriving DecidableEq, Repr

namespace Emulator

/-- The emulator after one act. -/
def act (e : Emulator) : Act → Emulator
  | .step => e.step.emulator
  | .tick => e.tick.2.1
  | .key k pressed => e.setKey k pressed
  | .clear => e.clearKeys

/-- The emulator after acts one after the other. -/
def acts (e : Emulator) (l : List Act) : Emulator := l.foldl act e

theorem step_of_reaction {e : Emulator} {r : Reaction}
    (h : e.machine.step e.settings.dialect = r) :
    e.step = ⟨r.outcome, { e with machine := r.machine }, r.events.toArray⟩ := by
  rw [step, h]

theorem acts_snoc (e : Emulator) (l : List Act) (a : Act) :
    e.acts (l ++ [a]) = (e.acts l).act a := by
  rw [acts, List.foldl_append]
  rfl

theorem acts_append (e : Emulator) (l k : List Act) : e.acts (l ++ k) = (e.acts l).acts k :=
  List.foldl_append

/-! ### The steps among the acts -/

/-- What the steps among the acts come to, in order. -/
def outcomes (e : Emulator) : List Act → List (Except Failure Signal)
  | [] => []
  | .step :: l => e.step.outcome :: (e.act .step).outcomes l
  | a :: l => (e.act a).outcomes l

theorem outcomes_cons_of_ne {a : Act} (h : a ≠ .step) (e : Emulator) (l : List Act) :
    e.outcomes (a :: l) = (e.act a).outcomes l := by
  cases a with
  | step => exact absurd rfl h
  | tick | key k pressed | clear => rfl

/-- Every step among the acts starts from a machine of the given kind. -/
def StepsFrom (e : Emulator) (kind : Machine → Prop) (l : List Act) : Prop :=
  ∀ pre post, l = pre ++ .step :: post → kind (e.acts pre).machine

section StepsFrom

variable {e : Emulator} {kind : Machine → Prop} {l k : List Act} {a : Act}

theorem stepsFrom_nil : e.StepsFrom kind [] := by
  intro pre post h
  exact absurd h.symm (List.append_ne_nil_of_right_ne_nil pre (List.cons_ne_nil _ post))

theorem stepsFrom_cons : e.StepsFrom kind (a :: l) ↔
    (a = .step → kind e.machine) ∧ (e.act a).StepsFrom kind l := by
  constructor
  · intro h
    refine ⟨fun ha => h [] l ?_, fun pre post hl => h (a :: pre) post ?_⟩
    · rw [ha]
      rfl
    · rw [hl]
      rfl
  · rintro ⟨hfirst, hrest⟩ pre post hl
    cases pre with
    | nil =>
      cases hl
      exact hfirst rfl
    | cons b pre =>
      cases hl
      exact hrest pre post rfl

theorem StepsFrom.of_append (h : e.StepsFrom kind (l ++ k)) : e.StepsFrom kind l := by
  intro pre post hl
  exact h pre (post ++ k) (by rw [hl, List.append_assoc, List.cons_append])

instance decidableStepsFrom [DecidablePred kind] : ∀ (e : Emulator) (l : List Act),
    Decidable (e.StepsFrom kind l)
  | _, [] => .isTrue stepsFrom_nil
  | e, a :: l =>
    have := decidableStepsFrom (e.act a) l
    decidable_of_iff' _ stepsFrom_cons

end StepsFrom

end Emulator

/-! ### Keys that were struck -/

/-- The keys that are down after an act, given those that were down before. -/
def Act.move (down : Key → Bool) : Act → Key → Bool
  | .key j pressed, k => if j = k then pressed else down k
  | .clear, _ => false
  | .step, k | .tick, k => down k

/-- The keys that are down after acts, given those that were down before. -/
def held (down : Key → Bool) (l : List Act) : Key → Bool := l.foldl Act.move down

/-- A key went down from up during the acts, and the keys were not cleared
since. -/
def Struck (down : Key → Bool) (l : List Act) (k : Key) : Prop :=
  ∃ pre post, l = pre ++ .key k true :: post ∧ held down pre k = false ∧ Act.clear ∉ post

variable {down : Key → Bool} {l : List Act} {a : Act} {k : Key}

theorem held_snoc : held down (l ++ [a]) k = a.move (held down l) k := by
  rw [held, List.foldl_append]
  rfl

theorem not_struck_nil : ¬ Struck down [] k := by
  rintro ⟨pre, post, h, -, -⟩
  exact List.append_ne_nil_of_right_ne_nil pre (List.cons_ne_nil _ post) h.symm

theorem struck_cons : Struck down (a :: l) k ↔
    (a = .key k true ∧ down k = false ∧ Act.clear ∉ l) ∨ Struck (a.move down) l k := by
  constructor
  · rintro ⟨pre, post, h, hup, hclear⟩
    cases pre with
    | nil => cases h; exact .inl ⟨rfl, hup, hclear⟩
    | cons b pre => cases h; exact .inr ⟨pre, post, rfl, hup, hclear⟩
  · rintro (⟨rfl, hup, hclear⟩ | ⟨pre, post, rfl, hup, hclear⟩)
    · exact ⟨[], l, rfl, hup, hclear⟩
    · exact ⟨a :: pre, post, rfl, hup, hclear⟩

instance decidableStruck : ∀ (down : Key → Bool) (l : List Act) (k : Key),
    Decidable (Struck down l k)
  | _, [], _ => .isFalse not_struck_nil
  | down, a :: l, k =>
    have := decidableStruck (a.move down) l k
    decidable_of_iff' _ struck_cons

/-- A key was struck by the last act, or before it, if that was no clearing. -/
theorem struck_snoc : Struck down (l ++ [a]) k ↔
    a ≠ .clear ∧ Struck down l k ∨ a = .key k true ∧ held down l k = false := by
  constructor
  · rintro ⟨pre, post, h, hup, hclear⟩
    rcases List.eq_nil_or_concat post with rfl | ⟨post, b, rfl⟩
    · obtain ⟨rfl, ha⟩ := List.append_inj' h rfl
      exact .inr ⟨List.head_eq_of_cons_eq ha, hup⟩
    · rw [List.concat_eq_append, ← List.cons_append, ← List.append_assoc] at h
      obtain ⟨rfl, ha⟩ := List.append_inj' h rfl
      rw [List.concat_eq_append, List.mem_append, List.mem_singleton, not_or] at hclear
      rw [← List.head_eq_of_cons_eq ha] at hclear
      exact .inl ⟨Ne.symm hclear.2, pre, post, rfl, hup, hclear.1⟩
  · rintro (⟨ha, pre, post, rfl, hup, hclear⟩ | ⟨rfl, hup⟩)
    · refine ⟨pre, post ++ [a], by rw [List.append_assoc, List.cons_append], hup, ?_⟩
      rw [List.mem_append, List.mem_singleton, not_or]
      exact ⟨hclear, Ne.symm ha⟩
    · exact ⟨l, [], rfl, hup, List.not_mem_nil⟩

/-- A key that is held and neither let go nor cleared stays held. -/
theorem held_of_not_mem (hk : down k = true) (hup : .key k false ∉ l) (hclear : .clear ∉ l) :
    held down l k = true := by
  induction l using List.reverseRecOn with
  | nil => exact hk
  | append_singleton l a ih =>
    rw [List.mem_append, List.mem_singleton, not_or] at hup hclear
    have hl := ih hup.1 hclear.1
    rw [held_snoc]
    cases a with
    | step | tick => exact hl
    | clear => exact absurd rfl hclear.2
    | key j pressed =>
      rw [Act.move]
      split
      · next hj =>
        subst hj
        cases pressed
        · exact absurd rfl hup.2
        · rfl
      · exact hl

/-- Such a key is not struck, however often it is pressed. -/
theorem not_struck_of_held (hk : down k = true) (hup : .key k false ∉ l) (hclear : .clear ∉ l) :
    ¬ Struck down l k := by
  rintro ⟨pre, post, rfl, hfalse, -⟩
  rw [held_of_not_mem hk (fun h => hup (List.mem_append_left _ h))
    (fun h => hclear (List.mem_append_left _ h))] at hfalse
  cases hfalse

end ChipEight
