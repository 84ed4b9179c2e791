import Mathlib.Logic.Basic
import Mathlib.Logic.Relation
import Mathlib.Tactic.ByContra

/-!
# Loops that repeat a pass until it changes nothing

A pass returns the new state and a flag that says whether it changed anything. The pass itself is a
fold whose steps all satisfy a reflexive and transitive relation, for example that nothing is lost.
-/

namespace Uvrgw.Lib

variable {σ α : Type}

/-! ## Folds -/

section Fold

variable {R : σ → σ → Prop} {f : σ → α → σ}

theorem foldl_rel (hrefl : ∀ s, R s s) (htrans : ∀ s t u, R s t → R t u → R s u) (l : List α)
    (hf : ∀ s, ∀ a ∈ l, R s (f s a)) (s : σ) : R s (l.foldl f s) := by
  induction l generalizing s with
  | nil => exact hrefl s
  | cons a l ih =>
    refine htrans _ _ _ (hf s a List.mem_cons_self) ?_
    exact ih (fun s b hb => hf s b (List.mem_cons_of_mem _ hb)) _

theorem foldl_through (hrefl : ∀ s, R s s) (htrans : ∀ s t u, R s t → R t u → R s u) {l : List α}
    (hf : ∀ s, ∀ a ∈ l, R s (f s a)) {a : α} (ha : a ∈ l) (s : σ) :
    ∃ u, R s u ∧ R (f u a) (l.foldl f s) := by
  induction l generalizing s with
  | nil => cases ha
  | cons b l ih =>
    have hl := fun s c hc => hf s c (List.mem_cons_of_mem b hc)
    rcases List.mem_cons.mp ha with rfl | ha
    · exact ⟨s, hrefl s, foldl_rel hrefl htrans l hl _⟩
    · obtain ⟨u, hu, hr⟩ := ih hl ha (f s b)
      exact ⟨u, htrans _ _ _ (hf s b List.mem_cons_self) hu, hr⟩

end Fold

/-! ## Repetition -/

/-- `do … while (changed)`, at most `n + 1` times. -/
def saturate (pass : σ → σ × Bool) : Nat → σ → σ
  | 0, s => (pass s).1
  | n + 1, s => if (pass s).2 then saturate pass n (pass s).1 else (pass s).1

variable (pass : σ → σ × Bool)

theorem saturate_rel {R : σ → σ → Prop} (htrans : ∀ s t u, R s t → R t u → R s u)
    (hpass : ∀ s, R s (pass s).1) (n : Nat) (s : σ) : R s (saturate pass n s) := by
  induction n generalizing s with
  | zero => exact hpass s
  | succ n ih =>
    unfold saturate
    split
    · exact htrans _ _ _ (hpass s) (ih _)
    · exact hpass s

/-- `do … while (changed)` from `s` ends at `t`. -/
inductive Repeats : σ → σ → Prop where
  | last {s t : σ} (h : pass s = (t, false)) : Repeats s t
  | again {s t u : σ} (h : pass s = (u, true)) (hu : Repeats u t) : Repeats s t

variable {pass}

theorem Repeats.invariant {I : σ → Prop} (hI : ∀ s, I s → I (pass s).1) {s t : σ} (h : Repeats pass s t) (hs : I s) :
    I t := by
  induction h with
  | last h =>
    have := hI _ hs
    rwa [h] at this
  | again h _ ih =>
    have := hI _ hs
    rw [h] at this
    exact ih this

theorem Repeats.unique {s t u : σ} (ht : Repeats pass s t) (hu : Repeats pass s u) : t = u := by
  induction ht with
  | last h =>
    cases hu with
    | last h' => exact (Prod.mk.inj (h.symm.trans h')).1
    | again h' => cases (Prod.mk.inj (h.symm.trans h')).2
  | again h _ ih =>
    cases hu with
    | last h' => cases (Prod.mk.inj (h.symm.trans h')).2
    | again h' hu =>
      obtain ⟨rfl, -⟩ := Prod.mk.inj (h.symm.trans h')
      exact ih hu

/-- Where the loop ends, another pass changes nothing. -/
theorem Repeats.fixed {I : σ → Prop} (hI : ∀ s, I s → I (pass s).1)
    (hsame : ∀ s, I s → (pass s).2 = false → (pass s).1 = s) {s t : σ} (h : Repeats pass s t) (hs : I s) :
    I t ∧ pass t = (t, false) := by
  induction h with
  | last h =>
    have hfix := hsame _ hs (by rw [h])
    rw [h] at hfix
    obtain rfl := hfix
    exact ⟨hs, h⟩
  | again h _ ih =>
    have := hI _ hs
    rw [h] at this
    exact ih this

/-- A measure that every changing pass raises, and that has a bound, ends the loop: the bounded repetition is it. -/
theorem saturate_repeats (I : σ → Prop) (μ : σ → Nat) (bound : Nat) (hI : ∀ s, I s → I (pass s).1)
    (hgrow : ∀ s, I s → (pass s).2 = true → μ s < μ (pass s).1) (hbound : ∀ s, I s → μ s ≤ bound) (n : Nat) (s : σ)
    (hs : I s) (hn : bound ≤ μ s + n) : Repeats pass s (saturate pass n s) := by
  induction n generalizing s with
  | zero =>
    have hflag : (pass s).2 = false := by
      by_contra hne
      have h1 := hgrow s hs (by simpa using hne)
      have h2 := hbound _ (hI s hs)
      omega
    exact .last (Prod.ext rfl hflag)
  | succ n ih =>
    unfold saturate
    split
    · rename_i hflag
      have := hgrow s hs hflag
      have hpass : pass s = ((pass s).1, true) := Prod.ext rfl hflag
      exact .again hpass (ih _ (hI s hs) (by omega))
    · rename_i hflag
      exact .last (Prod.ext rfl (by simpa using hflag))

/-! ## Closures -/

/-- What starts below `init`, is closed under `r` and says nothing that `r` does not reach, is the closure. -/
theorem closure_iff {α β : Type} {r : α → α → Prop} (init closed : α → β → Prop)
    (hinit : ∀ a b, init a b → closed a b) (hclosed : ∀ a c b, r a c → closed c b → closed a b)
    (hsound : ∀ a b, closed a b → ∃ c, Relation.ReflTransGen r a c ∧ init c b) (a : α) (b : β) :
    closed a b ↔ ∃ c, Relation.ReflTransGen r a c ∧ init c b := by
  refine ⟨hsound a b, ?_⟩
  rintro ⟨c, hreach, hb⟩
  induction hreach using Relation.ReflTransGen.head_induction_on with
  | refl => exact hinit c b hb
  | head hstep _ ih => exact hclosed _ _ b hstep ih

end Uvrgw.Lib
