import Mathlib.Data.List.Destutter

/-!
# Conditions that are reported once

A flag remembers what was last reported of a condition, and only a change is reported.
-/

namespace Uvrgw.Lib

variable {α : Type} [DecidableEq α]

/-- The changes of a condition that was `a` before it was observed to be `l`. -/
def changes (a : α) (l : List α) : List α := (l.destutter' (· ≠ ·) a).tail

@[simp] theorem changes_nil (a : α) : changes a [] = [] := rfl

theorem cons_changes (a : α) (l : List α) : a :: changes a l = l.destutter' (· ≠ ·) a := by
  unfold changes
  induction l generalizing a with
  | nil => rfl
  | cons b l ih =>
    by_cases h : a = b
    · rw [List.destutter'_cons_neg _ (by simpa using h)]
      exact ih a
    · rw [List.destutter'_cons_pos _ h]
      rfl

theorem changes_cons_self (a : α) (l : List α) : changes a (a :: l) = changes a l := by
  unfold changes
  rw [List.destutter'_cons_neg _ (by simp)]

theorem changes_cons_ne {a b : α} (h : a ≠ b) (l : List α) : changes a (b :: l) = b :: changes b l := by
  rw [changes, List.destutter'_cons_pos _ h, List.tail_cons, cons_changes]

theorem changes_append (a : α) (l m : List α) : changes a (l ++ m) = changes a l ++ changes (l.getLastD a) m := by
  induction l generalizing a with
  | nil => rfl
  | cons b l ih =>
    rw [List.cons_append, List.getLastD_cons]
    by_cases h : a = b
    · subst h
      rw [changes_cons_self, changes_cons_self, ih]
    · rw [changes_cons_ne h, changes_cons_ne h, ih, List.cons_append]

/-- The observations `obs` take the flag from `a` to `b` with these reports. -/
structure Reported (a : α) (obs : List α) (b : α) (reports : List α) : Prop where
  flag_eq : b = obs.getLastD a
  reports_eq : reports = changes a obs

theorem Reported.nil (a : α) : Reported a [] a [] := ⟨rfl, rfl⟩

theorem Reported.same (a : α) : Reported a [a] a [] := ⟨rfl, (changes_cons_self a []).symm⟩

theorem Reported.change {a b : α} (h : a ≠ b) : Reported a [b] b [b] := ⟨rfl, (changes_cons_ne h []).symm⟩

theorem Reported.append {a b c : α} {obs obs' reports reports' : List α} (h : Reported a obs b reports)
    (h' : Reported b obs' c reports') : Reported a (obs ++ obs') c (reports ++ reports') := by
  obtain ⟨rfl, rfl⟩ := h
  obtain ⟨rfl, rfl⟩ := h'
  refine ⟨?_, (changes_append a obs obs').symm⟩
  cases obs' using List.reverseRecOn with
  | nil => simp
  | append_singleton obs' c => rw [← List.append_assoc, List.getLastD_concat, List.getLastD_concat]

end Uvrgw.Lib
