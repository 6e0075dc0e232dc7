/-
# The key events of a plan

A plan is read from a text as it is written there, and then its key events are
put in frame order (`ofBytes?_eq`). None is lost or added (`sortKeys_perm`), the
frames ascend (`ascending_sortKeys`), and the events of one frame stay in
writing order (`filter_sortKeys`).

Key definitions: `Plan.written?`, `Plan.arranged`, `Plan.Ascending`.
-/
import ChipEight.Plan
import Mathlib.Data.List.Basic

namespace ChipEight
namespace Plan

open Yaml

/-- The plan in a node, with its key events in writing order. -/
def writtenIn? (node : Node) : Option Plan := do
  match ← node.fields? ["vm", "frames", "keys"] with
  | [settings, frames, keys] =>
    return ⟨← settings? settings, ← number? frames, ← keyEvents? keys⟩
  | _ => none

/-- The plan in a file's bytes, with its key events in writing order. -/
def written? (bytes : List UInt8) : Option Plan := do
  writtenIn? (← Yaml.read (← String.fromUTF8? ⟨bytes.toArray⟩))

/-- The plan with its key events in frame order. -/
def arranged (plan : Plan) : Plan := { plan with keys := sortKeys plan.keys }

/-- The frames of key events ascend. -/
def Ascending (keys : List KeyEvent) : Prop := keys.Pairwise fun a b => a.frame ≤ b.frame

theorem ofNode?_eq (node : Node) : ofNode? node = (writtenIn? node).map arranged := by
  unfold ofNode? writtenIn?
  rcases node.fields? ["vm", "frames", "keys"] with _ | fields
  · rfl
  · match fields with
    | [settings, frames, keys] =>
      simp only [Option.bind_eq_bind, Option.bind_some]
      cases settings? settings <;> cases number? frames <;> cases keyEvents? keys <;> rfl
    | [] | [_] | [_, _] | _ :: _ :: _ :: _ :: _ => rfl

/-- Reading a plan puts the key events that are written in frame order, and does
nothing else. -/
theorem ofBytes?_eq (bytes : List UInt8) : ofBytes? bytes = (written? bytes).map arranged := by
  have hread (text : String) : ofText? text = ((Yaml.read text).bind writtenIn?).map arranged := by
    rw [Option.map_bind]
    exact Option.bind_congr fun node _ => ofNode?_eq node
  unfold ofBytes? written?
  simp only [Option.bind_eq_bind, Option.map_bind]
  exact Option.bind_congr fun text _ => hread text

theorem sortKeys_perm (keys : List KeyEvent) : (sortKeys keys).Perm keys := List.mergeSort_perm _ _

theorem frameLE_trans (a b c : KeyEvent) (hab : decide (a.frame ≤ b.frame) = true)
    (hbc : decide (b.frame ≤ c.frame) = true) : decide (a.frame ≤ c.frame) = true :=
  decide_eq_true (Nat.le_trans (of_decide_eq_true hab) (of_decide_eq_true hbc))

theorem frameLE_total (a b : KeyEvent) :
    (decide (a.frame ≤ b.frame) || decide (b.frame ≤ a.frame)) = true := by
  simpa using Nat.le_total a.frame b.frame

theorem ascending_sortKeys (keys : List KeyEvent) : Ascending (sortKeys keys) :=
  (List.pairwise_mergeSort frameLE_trans frameLE_total keys).imp of_decide_eq_true

/-- The events of one frame stay in writing order. -/
theorem filter_sortKeys (keys : List KeyEvent) (n : ℕ) :
    (sortKeys keys).filter (·.frame = n) = keys.filter (·.frame = n) := by
  have hmember (e : KeyEvent) (he : e ∈ keys.filter (·.frame = n)) : e.frame = n :=
    of_decide_eq_true (List.mem_filter.mp he).2
  -- The events of frame `n` are in order, so sorting keeps them as they are.
  have hordered : (keys.filter (·.frame = n)).Pairwise fun a b => decide (a.frame ≤ b.frame) :=
    List.pairwise_of_forall_mem_list fun a ha b hb =>
      decide_eq_true (Nat.le_of_eq ((hmember a ha).trans (hmember b hb).symm))
  have hkept : (keys.filter (·.frame = n)).Sublist (sortKeys keys) :=
    List.sublist_mergeSort frameLE_trans frameLE_total hordered List.filter_sublist
  have hsub : (keys.filter (·.frame = n)).Sublist ((sortKeys keys).filter (·.frame = n)) := by
    simpa only [List.filter_filter, Bool.and_self] using hkept.filter (·.frame = n)
  exact (hsub.eq_of_length ((sortKeys_perm keys).filter _).length_eq.symm).symm

end Plan
end ChipEight
