/-
# Standing still for a key

From the instruction that awaits a key until a step finds one, the machine
stands still but for its timers and its keypad (`stood_acts`). The key that
ends the wait is the lowest of those that were struck since, as the acts of the
host alone tell (`awaited_key`).

Key definitions: `Idle`, `Timers.ticked`.
-/
import ChipEight.Proofs.Emulator.Acts
import ChipEight.Proofs.Keypad
import ChipEight.Proofs.Machine.Step

namespace ChipEight

/-- The timers after some ticks. -/
def Timers.ticked (t : Timers) : ℕ → Timers
  | 0 => t
  | n + 1 => (t.ticked n).tick.1

theorem Timers.toNat_ticked (t : Timers) : ∀ n : ℕ, (t.ticked n).delay.toNat = t.delay.toNat - n ∧
    (t.ticked n).sound.toNat = t.sound.toNat - n
  | 0 => ⟨rfl, rfl⟩
  | n + 1 => by
    obtain ⟨hdelay, hsound⟩ := toNat_ticked t n
    simp only [ticked, tick, settle_delay, settle_sound, toNat_countDown, hdelay, hsound]
    exact ⟨Nat.sub_sub _ _ _, Nat.sub_sub _ _ _⟩

namespace Machine

/-! ### One step -/

theorem step_awaitKey {m : Machine} {x : Reg} (h : m.current = some (.awaitKey x)) (d : Dialect) :
    m.step d = ⟨.ok .waiting,
      { m with pc := m.pc + 2, keypad := m.keypad.forget, awaiting := some x },
      [.executing m.pc (.awaitKey x), .waiting x]⟩ :=
  step_of_current h d

/-- While no key is fresh, nothing happens. -/
theorem step_of_unstruck {m : Machine} {x : Reg} (hx : m.awaiting = some x)
    (hfresh : ∀ k, m.keypad.isFresh k = false) (d : Dialect) : m.step d = ⟨.ok .waiting, m, []⟩ := by
  rw [step_of_awaiting hx, resume, Keypad.takeFresh_eq_none.mpr hfresh]
  rfl

/-- The lowest fresh key ends the wait. -/
theorem step_of_struck {m : Machine} {x : Reg} (hx : m.awaiting = some x)
    (hfresh : ∃ k, m.keypad.isFresh k = true) (d : Dialect) : ∃ k keypad,
      m.keypad.isFresh k = true ∧ (∀ j < k, m.keypad.isFresh j = false) ∧
      (∀ j, keypad.isDown j = m.keypad.isDown j) ∧
      (∀ j, keypad.isFresh j = (m.keypad.isFresh j && !decide (k = j))) ∧
      m.step d = ⟨.ok .quiet,
        ({ m with keypad := keypad, awaiting := none }).setV x (UInt8.ofNat k.val),
        [.resumed x k]⟩ := by
  rw [step_of_awaiting hx, resume]
  rcases htake : m.keypad.takeFresh with _ | ⟨k, keypad⟩
  · obtain ⟨k, hk⟩ := hfresh
    rw [Keypad.takeFresh_eq_none.mp htake k] at hk
    cases hk
  · obtain ⟨hk, hbelow, hdown, hrest⟩ := Keypad.takeFresh_eq_some htake
    exact ⟨k, keypad, hk, hbelow, hdown, hrest, rfl⟩

end Machine

/-! ### The keypad tells what the host did -/

/-- The keys that are down are those that are held, and the fresh ones those
that were struck. -/
structure Keypad.Shows (p : Keypad) (down : Key → Bool) (l : List Act) : Prop where
  isDown_eq : ∀ k, p.isDown k = held down l k
  isFresh_iff : ∀ k, p.isFresh k = true ↔ Struck down l k

namespace Keypad.Shows

variable {p : Keypad} {down : Key → Bool} {l : List Act}

theorem forget (p : Keypad) : p.forget.Shows p.isDown [] := by
  refine ⟨fun k => rfl, fun k => ?_⟩
  rw [isFresh_forget]
  exact iff_of_false Bool.false_ne_true not_struck_nil

theorem still (h : p.Shows down l) {a : Act} (ha : a = .step ∨ a = .tick) :
    p.Shows down (l ++ [a]) := by
  refine ⟨fun k => ?_, fun k => ?_⟩
  · rw [held_snoc, h.isDown_eq]
    rcases ha with rfl | rfl <;> rfl
  · rw [struck_snoc, h.isFresh_iff]
    rcases ha with rfl | rfl <;> simp

theorem set (h : p.Shows down l) (j : Key) (pressed : Bool) :
    (p.set j.val pressed).Shows down (l ++ [.key j pressed]) := by
  refine ⟨fun k => ?_, fun k => ?_⟩
  · rw [isDown_set_val, held_snoc, Act.move, h.isDown_eq]
  · rw [isFresh_set_val, struck_snoc, ← h.isDown_eq, ← h.isFresh_iff]
    cases pressed <;> by_cases hk : j = k <;> simp [hk]

theorem clear (p : Keypad) (down : Key → Bool) (l : List Act) :
    p.clear.Shows down (l ++ [.clear]) := by
  refine ⟨fun k => ?_, fun k => ?_⟩
  · rw [held_snoc, Keypad.clear, isDown_released, Act.move]
  · rw [struck_snoc, Keypad.clear, isFresh_released]
    simp

theorem unfresh (h : p.Shows down l) (hl : ∀ k, ¬ Struck down l k) (k : Key) :
    p.isFresh k = false :=
  Bool.eq_false_iff.mpr fun hk => hl k ((h.isFresh_iff k).mp hk)

end Keypad.Shows

/-! ### Any number of acts -/

/-- No step is made once a key was struck. -/
def Idle (down : Key → Bool) (l : List Act) : Prop :=
  ∀ pre post, l = pre ++ .step :: post → ∀ k, ¬ Struck down pre k

theorem idle_iff_take {down : Key → Bool} {l : List Act} : Idle down l ↔
    ∀ i < l.length, l[i]? = some .step → ∀ k, ¬ Struck down (l.take i) k := by
  constructor
  · intro h i hi hstep
    refine h (l.take i) (l.drop (i + 1)) ?_
    rw [List.getElem?_eq_getElem hi, Option.some.injEq] at hstep
    rw [← hstep, List.getElem_cons_drop, List.take_append_drop]
  · rintro h pre post rfl k
    have hk := h pre.length (by simp) (by simp) k
    rwa [List.take_left] at hk

instance (down : Key → Bool) (l : List Act) : Decidable (Idle down l) :=
  decidable_of_iff' _ idle_iff_take

theorem Idle.of_snoc {down : Key → Bool} {l : List Act} {a : Act} (h : Idle down (l ++ [a])) :
    Idle down l ∧ (a = .step → ∀ k, ¬ Struck down l k) := by
  refine ⟨fun pre post hl => h pre (post ++ [a]) ?_, fun ha => h l [] (by rw [ha])⟩
  rw [hl, List.append_assoc, List.cons_append]

namespace Emulator

/-- An emulator that stood still for some ticks, with another keypad. -/
def stood (e : Emulator) (n : ℕ) (keypad : Keypad) : Emulator :=
  { e with machine := { e.machine with timers := e.machine.timers.ticked n, keypad := keypad } }

/-- Every act leaves a waiting emulator standing, unless it is a step and a key
was struck. -/
theorem stood_act {e : Emulator} {x : Reg} {down : Key → Bool} {l : List Act} {keypad : Keypad}
    (hx : e.machine.awaiting = some x) (h : keypad.Shows down l) (a : Act)
    (ha : a = .step → ∀ k, ¬ Struck down l k) : ∃ next : Keypad, next.Shows down (l ++ [a]) ∧
      (e.stood (l.count .tick) keypad).act a = e.stood ((l ++ [a]).count .tick) next := by
  rw [List.count_append]
  cases a with
  | step =>
    refine ⟨keypad, h.still (.inl rfl), ?_⟩
    -- the stood emulator is named, or unifying its fields unfolds the count of ticks
    let s := e.stood (l.count .tick) keypad
    have hidle := Machine.step_of_unstruck (m := s.machine) hx (h.unfresh (ha rfl))
      s.settings.dialect
    exact congrArg Report.emulator (step_of_reaction hidle)
  | tick => exact ⟨keypad, h.still (.inr rfl), rfl⟩
  | key j pressed => exact ⟨keypad.set j.val pressed, h.set j pressed, rfl⟩
  | clear => exact ⟨keypad.clear, .clear keypad down l, rfl⟩

theorem stood_acts {e : Emulator} {x : Reg} {down : Key → Bool} {keypad : Keypad}
    (hx : e.machine.awaiting = some x) (h : keypad.Shows down []) (he : e.machine.keypad = keypad) :
    ∀ l, Idle down l → ∃ next : Keypad, next.Shows down l ∧
      e.acts l = e.stood (l.count .tick) next := by
  intro l
  -- the last act decides, so the list is taken apart at its end
  induction l using List.reverseRecOn with
  | nil => exact fun _ => ⟨keypad, h, he ▸ rfl⟩
  | append_singleton l a ih =>
    intro hidle
    obtain ⟨hl, ha⟩ := hidle.of_snoc
    obtain ⟨next, hnext, hacts⟩ := ih hl
    rw [acts_snoc, hacts]
    exact stood_act hx hnext a ha

/-- While no key was struck, a step says that it waits, and does nothing. -/
theorem step_of_unstruck {e : Emulator} {x : Reg} {down : Key → Bool} {l : List Act}
    (hx : e.machine.awaiting = some x) (h : e.machine.keypad.Shows down l)
    (hl : ∀ k, ¬ Struck down l k) : e.step.outcome = .ok .waiting ∧ e.step.emulator = e := by
  rw [step_of_reaction (Machine.step_of_unstruck hx (h.unfresh hl) e.settings.dialect)]
  exact ⟨rfl, rfl⟩

/-- Once a key was struck, a step ends the wait with the lowest one. -/
theorem step_of_struck {e : Emulator} {x : Reg} {down : Key → Bool} {l : List Act}
    (hx : e.machine.awaiting = some x) (h : e.machine.keypad.Shows down l)
    (hl : ∃ k, Struck down l k) : ∃ k keypad, Struck down l k ∧ (∀ j, Struck down l j → k ≤ j) ∧
      e.step.outcome = .ok .quiet ∧
      e.step.emulator = { e with machine :=
        ({ e.machine with keypad := keypad, awaiting := none }).setV x (UInt8.ofNat k.val) } ∧
      (∀ j, keypad.isDown j = e.machine.keypad.isDown j) ∧
      ∀ j, keypad.isFresh j = true ↔ Struck down l j ∧ j ≠ k := by
  simp only [← h.isFresh_iff] at hl ⊢
  obtain ⟨k, keypad, hk, hbelow, hdown, hfresh, hstep⟩ :=
    Machine.step_of_struck hx hl e.settings.dialect
  rw [step_of_reaction hstep]
  refine ⟨k, keypad, hk, fun j hj => ?_, rfl, rfl, hdown, fun j => ?_⟩
  · by_contra hlt
    rw [hbelow j (Nat.lt_of_not_le hlt)] at hj
    cases hj
  · rw [hfresh, Bool.and_eq_true, Bool.not_eq_true', decide_eq_false_iff_not, eq_comm (a := k)]

/-- Let an emulator carry out an instruction that awaits a key for `Vx`, and let
any acts follow in which no step is made once a key was struck. Then the program
counter has passed the instruction, the timers have counted down, the keypad
shows what the acts did, and all else is as it was. If no key was struck, a
step says that it waits and changes nothing. If one was, a step puts the lowest
of them in `Vx`, ends the wait and leaves the others fresh, and changes nothing
else. A key that is held from before and not let go is not among them. -/
theorem awaited_key {e : Emulator} {x : Reg} {l : List Act}
    (he : e.machine.current = some (.awaitKey x)) (hl : Idle e.machine.keypad.isDown l) :
    let struck := Struck e.machine.keypad.isDown l
    let n := l.count .tick
    let a := e.step.emulator.acts l
    e.step.outcome = .ok .waiting ∧
      (∃ timers keypad, a = { e with machine := { e.machine with
          pc := e.machine.pc + 2, awaiting := some x, timers := timers, keypad := keypad } } ∧
        timers = e.machine.timers.ticked n ∧
        timers.delay.toNat = e.machine.timers.delay.toNat - n ∧
        timers.sound.toNat = e.machine.timers.sound.toNat - n ∧
        (∀ k, keypad.isDown k = held e.machine.keypad.isDown l k) ∧
        ∀ k, keypad.isFresh k = true ↔ struck k) ∧
      ((∀ k, ¬ struck k) → a.step.outcome = .ok .waiting ∧ a.step.emulator = a) ∧
      ((∃ k, struck k) → ∃ k keypad, struck k ∧ (∀ j, struck j → k ≤ j) ∧
        a.step.outcome = .ok .quiet ∧
        a.step.emulator = { a with machine :=
          ({ a.machine with keypad := keypad, awaiting := none }).setV x (UInt8.ofNat k.val) } ∧
        (∀ j, keypad.isDown j = a.machine.keypad.isDown j) ∧
        ∀ j, keypad.isFresh j = true ↔ struck j ∧ j ≠ k) ∧
      ∀ k, e.machine.keypad.isDown k = true → .key k false ∉ l → .clear ∉ l → ¬ struck k := by
  intro struck n a
  have hstep := step_of_reaction (Machine.step_awaitKey he e.settings.dialect)
  have hw : e.step.emulator = { e with machine := { e.machine with
      pc := e.machine.pc + 2, keypad := e.machine.keypad.forget, awaiting := some x } } := by
    rw [hstep]
  have hx : e.step.emulator.machine.awaiting = some x := by rw [hw]
  have hkeypad : e.step.emulator.machine.keypad = e.machine.keypad.forget := by rw [hw]
  obtain ⟨keypad, hshows, ha⟩ := stood_acts hx (.forget e.machine.keypad) hkeypad l hl
  have ha : a = e.step.emulator.stood n keypad := ha
  have hax : a.machine.awaiting = some x := by rw [ha]; exact hx
  have hashows : a.machine.keypad.Shows e.machine.keypad.isDown l := by rw [ha]; exact hshows
  obtain ⟨hdelay, hsound⟩ := e.machine.timers.toNat_ticked n
  refine ⟨congrArg Report.outcome hstep, ⟨e.machine.timers.ticked n, keypad, ?_, rfl, hdelay,
    hsound, hshows.isDown_eq, hshows.isFresh_iff⟩, fun hnone => ?_, fun hsome => ?_,
    fun k => not_struck_of_held⟩
  · rw [ha, hw]
    rfl
  · exact step_of_unstruck hax hashows hnone
  · exact step_of_struck hax hashows hsome

/-- An emulator about to await a key for `V3`, with one key held and another
that went down and up before. -/
def asking : Emulator :=
  ((((Emulator.new .unset (.ofWords [])).load [0xF3, 0x0A]).2.1.setKey 3 true).setKey 9 true).setKey
    9 false

/-- The keys 7 and 5 are struck, and the lower one is taken, though it is up
again. -/
theorem asking_answered :
    let l : List Act := [.key 3 true, .tick, .step, .key 7 true, .key 5 true, .key 5 false]
    let e := (asking.step.emulator.acts l).step.emulator
    asking.machine.current = some (.awaitKey 3) ∧ Idle asking.machine.keypad.isDown l ∧
      e.machine.get 3 = 5 ∧ e.machine.awaiting = none ∧
      ∀ j, e.machine.keypad.isFresh j = true ↔ j = 7 := by
  intro l e
  have hcurrent : asking.machine.current = some (.awaitKey 3) := by decide +kernel
  have hidle : Idle asking.machine.keypad.isDown l := by decide +kernel
  have hstruck : ∀ k, Struck asking.machine.keypad.isDown l k ↔ k = 5 ∨ k = 7 := by decide +kernel
  obtain ⟨-, -, -, hend, -⟩ := awaited_key hcurrent hidle
  obtain ⟨k, keypad, hk, hmin, -, he, -, hfresh⟩ := hend ⟨7, (hstruck 7).mpr (.inr rfl)⟩
  have hle : k ≤ 5 := hmin 5 ((hstruck 5).mpr (.inl rfl))
  obtain rfl : k = 5 := by
    rcases (hstruck k).mp hk with rfl | rfl
    · rfl
    · exact absurd hle (by decide)
  have he' : e = _ := he
  refine ⟨hcurrent, hidle, ?_, ?_, fun j => ?_⟩
  · rw [he']
    exact Vector.getElem_set_self _
  · rw [he']
    rfl
  · rw [he']
    refine (hfresh j).trans ?_
    rw [hstruck]
    constructor
    · rintro ⟨rfl | rfl, hne⟩
      · exact absurd rfl hne
      · rfl
    · rintro rfl
      exact ⟨.inr rfl, by decide⟩

end Emulator
end ChipEight
