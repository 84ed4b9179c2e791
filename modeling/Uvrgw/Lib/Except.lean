import Mathlib.Data.List.Basic

/-! # Computations that may fail -/

namespace Uvrgw.Lib

variable {ε σ τ α : Type}

/-- A result satisfies `P`, a failure `Q`. -/
def Ends (P : σ → Prop) (Q : ε → Prop) : Except ε σ → Prop
  | .ok s => P s
  | .error err => Q err

theorem Ends.mono {P P' : σ → Prop} {Q Q' : ε → Prop} {x : Except ε σ} (h : Ends P Q x)
    (hP : ∀ s, P s → P' s) (hQ : ∀ err, Q err → Q' err) : Ends P' Q' x := by
  cases x with
  | ok s => exact hP s h
  | error err => exact hQ err h

theorem Ends.bind {P : σ → Prop} {P' : τ → Prop} {Q : ε → Prop} {x : Except ε σ} {f : σ → Except ε τ}
    (h : Ends P Q x) (hf : ∀ s, P s → Ends P' Q (f s)) : Ends P' Q (x >>= f) := by
  cases x with
  | ok s => exact hf s h
  | error err => exact h

/-- A loop whose invariant speaks of the elements already seen. -/
theorem Ends.foldlM {f : σ → α → Except ε σ} {Q : ε → Prop} (I : List α → σ → Prop) (l : List α)
    (hf : ∀ (seen : List α) (a : α) (s : σ), seen ++ [a] <+: l → I seen s → Ends (I (seen ++ [a])) Q (f s a))
    {s : σ} (hs : I [] s) : Ends (I l) Q (l.foldlM f s) := by
  suffices h : ∀ seen rest s, seen ++ rest = l → I seen s → Ends (I l) Q (rest.foldlM f s) from h [] l s rfl hs
  intro seen rest
  induction rest generalizing seen with
  | nil =>
    rintro s rfl hs
    rw [List.append_nil]
    exact hs
  | cons a rest ih =>
    intro s hl hs
    rw [List.foldlM_cons]
    refine (hf seen a s ⟨rest, by simpa using hl⟩ hs).bind fun s' hs' => ?_
    exact ih (seen ++ [a]) s' (by simpa using hl) hs'

end Uvrgw.Lib
