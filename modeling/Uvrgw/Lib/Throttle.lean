import Mathlib.Algebra.Order.Group.Int
import Mathlib.Data.List.Chain

/-!
# Events that keep a distance in time

Of a list of events those are let through that come at least `d` after the last one let through.
-/

namespace Uvrgw.Lib

variable {α : Type} (time : α → Int) (d : Int)

/-- None before `next`. -/
def throttle : Int → List α → List α
  | _, [] => []
  | next, a :: l => if time a < next then throttle next l else a :: throttle (time a + d) l

/-- When the next event is let through. -/
def nextTime (next : Int) (l : List α) : Int := ((throttle time d next l).getLast?.map (time · + d)).getD next

variable {time d}

theorem throttle_skip {next : Int} {a : α} (h : time a < next) (l : List α) :
    throttle time d next (a :: l) = throttle time d next l := if_pos h

theorem throttle_pass {next : Int} {a : α} (h : next ≤ time a) (l : List α) :
    throttle time d next (a :: l) = a :: throttle time d (time a + d) l := if_neg (by omega)

theorem throttle_sublist (next : Int) (l : List α) : List.Sublist (throttle time d next l) l := by
  induction l generalizing next with
  | nil => exact List.Sublist.slnil
  | cons a l ih =>
    by_cases h : time a < next
    · rw [throttle_skip h]
      exact (ih next).cons a
    · rw [throttle_pass (by omega)]
      exact (ih _).cons_cons a

theorem nextTime_skip {next : Int} {a : α} (h : time a < next) (l : List α) :
    nextTime time d next (a :: l) = nextTime time d next l := by
  unfold nextTime
  rw [throttle_skip h]

theorem nextTime_pass {next : Int} {a : α} (h : next ≤ time a) (l : List α) :
    nextTime time d next (a :: l) = nextTime time d (time a + d) l := by
  unfold nextTime
  rw [throttle_pass h, List.getLast?_cons]
  cases (throttle time d (time a + d) l).getLast? <;> rfl

theorem throttle_append (next : Int) (l m : List α) :
    throttle time d next (l ++ m) = throttle time d next l ++ throttle time d (nextTime time d next l) m := by
  induction l generalizing next with
  | nil => rfl
  | cons a l ih =>
    rw [List.cons_append]
    by_cases h : time a < next
    · rw [throttle_skip h, throttle_skip h, nextTime_skip h, ih]
    · rw [throttle_pass (by omega), throttle_pass (by omega), nextTime_pass (by omega), ih, List.cons_append]

theorem throttle_map {β : Type} (f : β → α) (next : Int) (l : List β) :
    throttle time d next (l.map f) = (throttle (fun b => time (f b)) d next l).map f := by
  induction l generalizing next with
  | nil => rfl
  | cons b l ih =>
    rw [List.map_cons]
    by_cases h : time (f b) < next
    · simp only [throttle, if_pos h, ih]
    · simp only [throttle, if_neg h, ih, List.map_cons]

/-- The first comes at `next` or later. -/
theorem throttle_isChain (next : Int) (l : List α) :
    (∀ a ∈ (throttle time d next l).head?, next ≤ time a) ∧
      (throttle time d next l).IsChain fun a b => time a + d ≤ time b := by
  induction l generalizing next with
  | nil => exact ⟨by simp [throttle], List.IsChain.nil⟩
  | cons a l ih =>
    by_cases h : time a < next
    · rw [throttle_skip h]
      exact ih next
    · rw [throttle_pass (by omega)]
      refine ⟨by simpa using h, List.isChain_cons.mpr ⟨fun b hb => ?_, (ih _).2⟩⟩
      exact (ih _).1 b hb

theorem nextTime_eq (next : Int) (l : List α) :
    (throttle time d next l = [] ∧ nextTime time d next l = next) ∨
      ∃ b ∈ throttle time d next l, nextTime time d next l = time b + d := by
  unfold nextTime
  cases h : (throttle time d next l).getLast? with
  | none => exact .inl ⟨List.getLast?_eq_none_iff.mp h, rfl⟩
  | some b => exact .inr ⟨b, List.mem_of_getLast? h, rfl⟩

/-- An event is held back only before `next`, or less than `d` after one before it that was let through. -/
theorem throttle_near (hd : 0 < d) (next : Int) (l : List α) (a : α) :
    time a < next ∨ ∃ b ∈ throttle time d next (l ++ [a]), time a < time b + d := by
  rw [throttle_append]
  by_cases h : time a < nextTime time d next l
  · rcases @nextTime_eq α time d next l with ⟨-, hn⟩ | ⟨b, hb, hn⟩
    · exact .inl (hn ▸ h)
    · exact .inr ⟨b, List.mem_append_left _ hb, hn ▸ h⟩
  · refine .inr ⟨a, List.mem_append_right _ ?_, by omega⟩
    rw [throttle_pass (by omega)]
    exact List.mem_cons_self

end Uvrgw.Lib
