/-
# Key events between steps

A step that asks for no key commutes with a key event (`act_step`), and so do any
number of such steps (`steps_act`). So where events come between steps that ask
for no key makes no difference: all the ways to interleave them come to the same
as the steps first and the events after them (`acts_interleaved`).

Key definitions: `Interleaved`, `Act.movesKeys`.
Key theorems: `Emulator.acts_interleaved`, `Emulator.keys_between_steps`.
-/
import ChipEight.Proofs.Emulator.Acts
import ChipEight.Proofs.Machine.Host

namespace ChipEight

/-- The third list is made of the first two, each in its own order. -/
inductive Interleaved {α : Type} : List α → List α → List α → Prop
  | nil : Interleaved [] [] []
  | left {x : α} {xs ys zs : List α} : Interleaved xs ys zs → Interleaved (x :: xs) ys (x :: zs)
  | right {y : α} {xs ys zs : List α} : Interleaved xs ys zs → Interleaved xs (y :: ys) (y :: zs)

/-- Whether an act is about the keys. -/
def Act.movesKeys : Act → Bool
  | .key _ _ | .clear => true
  | .step | .tick => false

namespace Emulator

variable {e : Emulator} {a : Act}

/-! ### One event -/

/-- An act about the keys changes the keypad alone, by what it was. -/
theorem exists_act_eq (ha : a.movesKeys = true) : ∃ f : Keypad → Keypad, ∀ e : Emulator,
    e.act a = { e with machine := e.machine.withKeypad (f e.machine.keypad) } := by
  cases a with
  | step | tick => cases ha
  | key k pressed => exact ⟨fun p => p.set k.val pressed, fun _ => rfl⟩
  | clear => exact ⟨Keypad.clear, fun _ => rfl⟩

theorem asksKeys_act (ha : a.movesKeys = true) :
    (e.act a).machine.AsksKeys ↔ e.machine.AsksKeys := by
  obtain ⟨f, hf⟩ := exists_act_eq ha
  rw [hf]
  rfl

/-- A step that asks for no key, and an event before or after it. -/
theorem act_step (ha : a.movesKeys = true) (h : ¬ e.machine.AsksKeys) :
    (e.act a).step.outcome = e.step.outcome ∧
      (e.act a).act .step = (e.act .step).act a := by
  obtain ⟨f, hf⟩ := exists_act_eq ha
  have hstep := step_of_reaction (e := e.act a) (r :=
    (e.machine.step e.settings.dialect).withKeypad (f e.machine.keypad)) (by
      rw [hf]
      exact Machine.step_withKeypad h _)
  have hkeypad : (e.act .step).machine.keypad = e.machine.keypad := Machine.step_keypad h
  constructor
  · rw [hstep]
    rfl
  · calc (e.act a).act .step = (e.act a).step.emulator := rfl
      _ = { e with machine := (e.act .step).machine.withKeypad (f e.machine.keypad) } := by
          rw [hstep, hf]
          rfl
      _ = (e.act .step).act a := by
          rw [hf, hkeypad]
          rfl

/-! ### Any number of steps -/

/-- Steps that ask for no key, and an event before or after all of them. -/
theorem steps_act (ha : a.movesKeys = true) : ∀ {steps : List Act} {e : Emulator},
    (∀ b ∈ steps, b = .step) → e.StepsFrom (fun m => ¬ m.AsksKeys) steps →
    (e.act a).StepsFrom (fun m => ¬ m.AsksKeys) steps ∧
      (e.act a).outcomes steps = e.outcomes steps ∧
      (e.act a).acts steps = (e.acts steps).act a
  | [], _, _, _ => ⟨stepsFrom_nil, rfl, rfl⟩
  | b :: steps, e, hsteps, h => by
    obtain ⟨rfl, hothers⟩ := List.forall_mem_cons.mp hsteps
    obtain ⟨hfirst, hrest⟩ := stepsFrom_cons.mp h
    obtain ⟨hout, hcomm⟩ := act_step ha (hfirst rfl)
    obtain ⟨hfrom, houts, hacts⟩ := steps_act ha hothers hrest
    rw [← hcomm] at hfrom houts hacts
    refine ⟨stepsFrom_cons.mpr ⟨fun _ => ?_, hfrom⟩, ?_, hacts⟩
    · rw [asksKeys_act ha]
      exact hfirst rfl
    · rw [outcomes, outcomes, hout, houts]

/-- Wherever the events come between the steps, they might as well come after
them all. -/
theorem acts_interleaved {steps events l : List Act} (hl : Interleaved steps events l) :
    ∀ {e : Emulator}, (∀ b ∈ steps, b = .step) → (∀ b ∈ events, b.movesKeys = true) →
    e.StepsFrom (fun m => ¬ m.AsksKeys) steps →
    e.outcomes l = e.outcomes steps ∧ e.acts l = e.acts (steps ++ events) := by
  induction hl with
  | nil => exact fun _ _ _ => ⟨rfl, rfl⟩
  | @left b steps events l _ ih =>
    intro e hsteps hevents h
    obtain ⟨rfl, hothers⟩ := List.forall_mem_cons.mp hsteps
    obtain ⟨houts, hacts⟩ := ih hothers hevents (stepsFrom_cons.mp h).2
    exact ⟨by rw [outcomes, outcomes, houts], hacts⟩
  | @right a steps events l _ ih =>
    intro e hsteps hevents h
    obtain ⟨ha, hothers⟩ := List.forall_mem_cons.mp hevents
    obtain ⟨hfrom, hsame, hcomm⟩ := steps_act ha hsteps h
    obtain ⟨houts, hacts⟩ := ih hsteps hothers hfrom
    have hne : a ≠ .step := by
      rintro rfl
      cases ha
    constructor
    · rw [outcomes_cons_of_ne hne, houts, hsame]
    · calc e.acts (a :: l) = (e.act a).acts (steps ++ events) := hacts
        _ = ((e.acts steps).act a).acts events := by rw [acts_append, hcomm]
        _ = e.acts (steps ++ a :: events) := (acts_append e steps (a :: events)).symm

/-- Let an emulator make `n` steps of which none asks for a key and none fails.
If it is told of key events before, between and after these steps, in whatever
way the two are interleaved, then no step fails, the steps tell the same, and the
emulator ends up the same, the fresh keys included. -/
theorem keys_between_steps {e : Emulator} {n : ℕ} {keys : List (Key × Bool)} {l : List Act}
    (hasks : e.StepsFrom (fun m => ¬ m.AsksKeys) (List.replicate n .step))
    (hok : ∀ r ∈ e.outcomes (List.replicate n .step), ∃ s, r = .ok s)
    (hl : Interleaved (List.replicate n .step) (keys.map fun k => .key k.1 k.2) l) :
    (∀ r ∈ e.outcomes l, ∃ s, r = .ok s) ∧
      e.outcomes l = e.outcomes (List.replicate n .step) ∧
      e.acts l = e.acts (List.replicate n .step ++ keys.map fun k => .key k.1 k.2) := by
  have hsteps : ∀ b ∈ List.replicate n Act.step, b = .step := fun b => List.eq_of_mem_replicate
  have hevents : ∀ b ∈ keys.map fun k => Act.key k.1 k.2, b.movesKeys = true :=
    List.forall_mem_map.mpr fun _ _ => rfl
  obtain ⟨houts, hacts⟩ := acts_interleaved hl hsteps hevents hasks
  refine ⟨?_, houts, hacts⟩
  rw [houts]
  exact hok

/-- An emulator that draws what a random byte says, over and over. -/
def drawing : Emulator :=
  ((Emulator.new .unset (.ofWords [7, 8])).load
    [0xC1, 0xFF, 0xA2, 0x00, 0xD0, 0x12, 0x12, 0x00]).2.1

/-- Three events between four steps. -/
theorem drawing_between :
    let keys : List (Key × Bool) := [(3, true), (9, true), (3, false)]
    let steps : List Act := List.replicate 4 .step
    let l : List Act :=
      [.key 3 true, .step, .step, .key 9 true, .key 3 false, .step, .step]
    drawing.outcomes l = [.ok .quiet, .ok .quiet, .ok .drew, .ok .jumped] ∧
      drawing.acts l = drawing.acts (steps ++ keys.map fun k => .key k.1 k.2) ∧
      ∀ k, (drawing.acts l).machine.keypad.isFresh k = true ↔ k = 3 ∨ k = 9 := by
  intro keys steps l
  obtain ⟨hasks, hout, hfresh⟩ : drawing.StepsFrom (fun m => ¬ m.AsksKeys) steps ∧
      drawing.outcomes steps = [.ok .quiet, .ok .quiet, .ok .drew, .ok .jumped] ∧
      ∀ k, (drawing.acts (steps ++ keys.map fun k => .key k.1 k.2)).machine.keypad.isFresh k =
        true ↔ k = 3 ∨ k = 9 := by decide +kernel
  have hok : ∀ r ∈ drawing.outcomes steps, ∃ s, r = .ok s := by
    rw [hout]
    simp
  have hl : Interleaved steps (keys.map fun k => .key k.1 k.2) l :=
    .right (.left (.left (.right (.right (.left (.left .nil))))))
  obtain ⟨-, hsame, hacts⟩ := keys_between_steps hasks hok hl
  refine ⟨hsame.trans hout, hacts, ?_⟩
  rw [hacts]
  exact hfresh

end Emulator
end ChipEight
