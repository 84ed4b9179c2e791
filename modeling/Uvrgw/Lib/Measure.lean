import Mathlib.Algebra.BigOperators.Group.Finset.Basic
import Mathlib.Algebra.Order.BigOperators.Group.Finset
import Uvrgw.Lib.Run

/-! # Measures of runs -/

namespace Uvrgw.Lib

variable {σ α : Type} (step : σ → α → Option σ)

/-- How many steps of the run of `l` from `s` meet `C`. -/
def countSteps (C : σ → α → Prop) [∀ s a, Decidable (C s a)] : σ → List α → Nat
  | _, [] => 0
  | s, a :: l => (if C s a then 1 else 0) + (step s a).elim 0 fun t => countSteps C t l

variable {step} {C Q : σ → α → Prop} [∀ s a, Decidable (C s a)] {I P : σ → Prop} {μ : σ → Nat}

theorem countSteps_cons {s t : σ} {a : α} {l : List α} (h : step s a = some t) :
    countSteps step C s (a :: l) = (if C s a then 1 else 0) + countSteps step C t l := by
  rw [countSteps, h]
  rfl

theorem countSteps_append {s t : σ} {l m : List α} (h : Run step s l t) :
    countSteps step C s (l ++ m) = countSteps step C s l + countSteps step C t m := by
  induction l generalizing s with
  | nil =>
    rw [run_nil] at h
    subst h
    simp [countSteps]
  | cons a l ih =>
    obtain ⟨u, hu, h⟩ := (run_cons s a l t).mp h
    rw [List.cons_append, countSteps_cons hu, countSteps_cons hu, ih h, Nat.add_assoc]

/-- A measure that pays one for each step that counts. -/
theorem Run.countSteps_le (hstep : ∀ s a t, I s → Q s a → step s a = some t →
      I t ∧ μ t + (if C s a then 1 else 0) ≤ μ s)
    {s t : σ} {l : List α} (h : Run step s l t) (hQ : Meets step Q s l) (hs : I s) :
    countSteps step C s l + μ t ≤ μ s := by
  induction l generalizing s with
  | nil =>
    rw [run_nil] at h
    rw [h, countSteps]
    omega
  | cons a l ih =>
    obtain ⟨u, hu, h⟩ := (run_cons s a l t).mp h
    obtain ⟨hIu, hμ⟩ := hstep s a u hs hQ.1 hu
    have := ih h (hQ.2 u hu) hIu
    rw [countSteps_cons hu]
    omega

/-- If it pays only where the step does not lead to `P`, a long run passes through `P`. -/
theorem Run.passes (hstep : ∀ s a t, I s → Q s a → step s a = some t →
      I t ∧ (P t ∨ μ t + (if C s a then 1 else 0) ≤ μ s))
    {s t : σ} {l : List α} (h : Run step s l t) (hQ : Meets step Q s l) (hs : I s)
    (hlong : μ s < countSteps step C s l) : ∃ l₁ l₂ u, l = l₁ ++ l₂ ∧ Run step s l₁ u ∧ P u := by
  induction l generalizing s with
  | nil => simp [countSteps] at hlong
  | cons a l ih =>
    obtain ⟨u, hu, h⟩ := (run_cons s a l t).mp h
    obtain ⟨hIu, hP | hμ⟩ := hstep s a u hs hQ.1 hu
    · exact ⟨[a], l, u, rfl, by simpa using hu, hP⟩
    · rw [countSteps_cons hu] at hlong
      obtain ⟨l₁, l₂, v, rfl, hv, hP⟩ := ih h (hQ.2 u hu) hIu (by omega)
      exact ⟨a :: l₁, l₂, v, rfl, (run_cons ..).mpr ⟨u, hu, hv⟩, hP⟩

theorem sum_change {ι : Type} [DecidableEq ι] {s : Finset ι} {f g : ι → Nat} {i : ι} (hi : i ∈ s)
    (h : ∀ j, j ≠ i → f j = g j) : ∑ j ∈ s, f j + g i = ∑ j ∈ s, g j + f i := by
  have hf := Finset.add_sum_erase s f hi
  have hg := Finset.add_sum_erase s g hi
  have hrest : ∑ j ∈ s.erase i, f j = ∑ j ∈ s.erase i, g j :=
    Finset.sum_congr rfl fun j hj => h j (Finset.ne_of_mem_erase hj)
  omega

end Uvrgw.Lib
