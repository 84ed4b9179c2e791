import Mathlib.Data.List.Basic
import Mathlib.Logic.Function.Basic

/-!
# Runs of a partial step function

The action of a step carries everything that the environment decides: a clock reading, the result
of a system call, which thread is next. `none` means that the action is not possible in this state.
A theorem about every run is then a theorem about every interleaving.
-/

namespace Uvrgw.Lib

variable {σ α : Type} (step : σ → α → Option σ)

/-- The actions `l` lead from `s` to `t`. -/
def Run (s : σ) (l : List α) (t : σ) : Prop := l.foldlM step s = some t

/-- `P` holds in every state of the run of `l` from `s`, both ends included. -/
def Throughout (P : σ → Prop) : σ → List α → Prop
  | s, [] => P s
  | s, a :: l => P s ∧ ∀ t, step s a = some t → Throughout P t l

/-- Every step of the run of `l` from `s` meets `C`. -/
def Meets (C : σ → α → Prop) : σ → List α → Prop
  | _, [] => True
  | s, a :: l => C s a ∧ ∀ t, step s a = some t → Meets C t l

/-- Some step of the run of `l` from `s` meets `C`. -/
def Occurs (C : σ → α → Prop) : σ → List α → Prop
  | _, [] => False
  | s, a :: l => C s a ∨ ∃ t, step s a = some t ∧ Occurs C t l

def Reachable (init : σ → Prop) (t : σ) : Prop := ∃ s l, init s ∧ Run step s l t

variable {step}

/-! ## Runs -/

@[simp] theorem run_nil (s t : σ) : Run step s [] t ↔ s = t := by
  simp [Run]

@[simp] theorem run_cons (s : σ) (a : α) (l : List α) (t : σ) :
    Run step s (a :: l) t ↔ ∃ u, step s a = some u ∧ Run step u l t := by
  simp [Run, List.foldlM_cons, Option.bind_eq_some_iff]

@[simp] theorem run_append (s : σ) (l m : List α) (t : σ) :
    Run step s (l ++ m) t ↔ ∃ u, Run step s l u ∧ Run step u m t := by
  simp [Run, List.foldlM_append, Option.bind_eq_some_iff]

/-- What every step keeps, a run keeps. -/
theorem Run.invariant {I : σ → Prop} (hstep : ∀ s a t, I s → step s a = some t → I t)
    {s : σ} {l : List α} {t : σ} (h : Run step s l t) (hs : I s) : I t := by
  induction l generalizing s with
  | nil => exact (run_nil s t).mp h ▸ hs
  | cons a l ih =>
    obtain ⟨u, hu, h⟩ := (run_cons s a l t).mp h
    exact ih h (hstep s a u hs hu)

/-- What every step that meets `C` keeps, a run of such steps keeps. -/
theorem Run.invariant_of_meets {I : σ → Prop} {C : σ → α → Prop}
    (hstep : ∀ s a t, I s → C s a → step s a = some t → I t)
    {s : σ} {l : List α} {t : σ} (h : Run step s l t) (hC : Meets step C s l) (hs : I s) : I t := by
  induction l generalizing s with
  | nil => exact (run_nil s t).mp h ▸ hs
  | cons a l ih =>
    obtain ⟨u, hu, h⟩ := (run_cons s a l t).mp h
    exact ih h (hC.2 u hu) (hstep s a u hs hC.1 hu)

/-! ## Reachable states -/

variable {init : σ → Prop}

theorem Reachable.of_init {s : σ} (h : init s) : Reachable step init s := ⟨s, [], h, by simp⟩

theorem Reachable.run {s t : σ} {l : List α} (hs : Reachable step init s) (h : Run step s l t) :
    Reachable step init t := by
  obtain ⟨s₀, l₀, h0, hl⟩ := hs
  exact ⟨s₀, l₀ ++ l, h0, (run_append _ _ _ _).mpr ⟨s, hl, h⟩⟩

theorem Reachable.next {s t : σ} {a : α} (hs : Reachable step init s) (h : step s a = some t) :
    Reachable step init t :=
  hs.run (l := [a]) (by simpa using h)

theorem Reachable.invariant {I : σ → Prop} (h0 : ∀ s, init s → I s)
    (hstep : ∀ s a t, I s → Reachable step init s → step s a = some t → I t)
    {t : σ} (h : Reachable step init t) : I t := by
  obtain ⟨s, l, hs, hl⟩ := h
  have := hl.invariant (I := fun u => I u ∧ Reachable step init u)
    (fun u a v hu huv => ⟨hstep u a v hu.1 hu.2 huv, hu.2.next huv⟩) ⟨h0 s hs, .of_init hs⟩
  exact this.1

/-! ## Conditions along a run -/

instance Run.decidable (step : σ → α → Option σ) [DecidableEq σ] (s : σ) (l : List α) (t : σ) :
    Decidable (Run step s l t) :=
  inferInstanceAs (Decidable (l.foldlM step s = some t))

theorem throughout_cons {P : σ → Prop} {s t : σ} {a : α} {l : List α} (h : step s a = some t) :
    Throughout step P s (a :: l) ↔ P s ∧ Throughout step P t l := by
  simp [Throughout, h]

theorem meets_cons {C : σ → α → Prop} {s t : σ} {a : α} {l : List α} (h : step s a = some t) :
    Meets step C s (a :: l) ↔ C s a ∧ Meets step C t l := by
  simp [Meets, h]

theorem meets_append {C : σ → α → Prop} {s t : σ} {l m : List α} (h : Run step s l t) :
    Meets step C s (l ++ m) ↔ Meets step C s l ∧ Meets step C t m := by
  induction l generalizing s with
  | nil =>
    rw [run_nil] at h
    subst h
    simp [Meets]
  | cons a l ih =>
    obtain ⟨u, hu, h⟩ := (run_cons s a l t).mp h
    rw [List.cons_append, meets_cons hu, meets_cons hu, ih h, and_assoc]

instance Throughout.decidable (step : σ → α → Option σ) (P : σ → Prop) [DecidablePred P] :
    ∀ s l, Decidable (Throughout step P s l)
  | s, [] => inferInstanceAs (Decidable (P s))
  | s, a :: l =>
    match h : step s a with
    | none => decidable_of_iff (P s) (by simp [Throughout, h])
    | some t =>
      have := Throughout.decidable step P t l
      decidable_of_iff _ (throughout_cons h).symm

instance Meets.decidable (step : σ → α → Option σ) (C : σ → α → Prop) [∀ s a, Decidable (C s a)] :
    ∀ s l, Decidable (Meets step C s l)
  | _, [] => isTrue trivial
  | s, a :: l =>
    match h : step s a with
    | none => decidable_of_iff (C s a) (by simp [Meets, h])
    | some t =>
      have := Meets.decidable step C t l
      decidable_of_iff _ (meets_cons h).symm

theorem occurs_cons {C : σ → α → Prop} {s t : σ} {a : α} {l : List α} (h : step s a = some t) :
    Occurs step C s (a :: l) ↔ C s a ∨ Occurs step C t l := by
  simp [Occurs, h]

instance Occurs.decidable (step : σ → α → Option σ) (C : σ → α → Prop) [∀ s a, Decidable (C s a)] :
    ∀ s l, Decidable (Occurs step C s l)
  | _, [] => isFalse id
  | s, a :: l =>
    match h : step s a with
    | none => decidable_of_iff (C s a) (by simp [Occurs, h])
    | some t =>
      have := Occurs.decidable step C t l
      decidable_of_iff _ (occurs_cons h).symm

theorem Throughout.head {P : σ → Prop} {s : σ} {l : List α} (h : Throughout step P s l) : P s := by
  cases l with
  | nil => exact h
  | cons a l => exact h.1

theorem Throughout.last {P : σ → Prop} {s t : σ} {l : List α} (h : Throughout step P s l)
    (hl : Run step s l t) : P t := by
  induction l generalizing s with
  | nil => rw [run_nil] at hl; exact hl ▸ h
  | cons a l ih =>
    obtain ⟨u, hu, hl⟩ := (run_cons s a l t).mp hl
    exact ih (h.2 u hu) hl

/-! ## Independent components -/

section Product

variable {ι : Type} [DecidableEq ι]

/-- A family of machines: an action is a step of one of them. -/
def product (step : σ → α → Option σ) (s : ι → σ) (x : ι × α) : Option (ι → σ) :=
  (step (s x.1) x.2).map (Function.update s x.1)

def actsOf (i : ι) (l : List (ι × α)) : List α :=
  l.filterMap fun x => if x.1 = i then some x.2 else none

theorem Run.component {s t : ι → σ} {l : List (ι × α)} (h : Run (product step) s l t) (i : ι) :
    Run step (s i) (actsOf i l) (t i) := by
  induction l generalizing s with
  | nil =>
    rw [(run_nil s t).mp h]
    exact (run_nil ..).mpr rfl
  | cons x l ih =>
    obtain ⟨u, hu, h⟩ := (run_cons s x l t).mp h
    obtain ⟨v, hv, rfl⟩ := Option.map_eq_some_iff.mp hu
    have hrest := ih h
    by_cases hx : x.1 = i
    · subst hx
      rw [Function.update_self] at hrest
      simpa [actsOf] using ⟨v, hv, hrest⟩
    · rw [Function.update_of_ne (Ne.symm hx)] at hrest
      simpa [actsOf, hx] using hrest

end Product

end Uvrgw.Lib
