import Mathlib.Tactic.Common

/-!
# Binary search

The range is closed, as in most C code: it is empty when the upper end is below the lower one. `cmp i` tells
where the sought entry is from `i`: above for a positive number, below for a negative one.
-/

namespace Uvrgw.Lib

/-- The search in `imin..imax`; every round takes one index at least, so `fuel` is the length of the range. -/
def binSearch (cmp : Int → Int) : Nat → Int → Int → Option Int
  | 0, _, _ => none
  | fuel + 1, imin, imax =>
    if imin ≤ imax then
      let i := imin + (imax - imin) / 2
      if cmp i = 0 then some i
      else if 0 < cmp i then binSearch cmp fuel (i + 1) imax
      else binSearch cmp fuel imin (i - 1)
    else none

variable {cmp : Int → Int}

theorem binSearch_sound {fuel : Nat} {imin imax i : Int} (h : binSearch cmp fuel imin imax = some i) :
    imin ≤ i ∧ i ≤ imax ∧ cmp i = 0 := by
  induction fuel generalizing imin imax with
  | zero => simp [binSearch] at h
  | succ fuel ih =>
    unfold binSearch at h
    split at h
    · dsimp only at h
      split at h
      · have hi := Option.some.inj h
        rename_i hcmp
        rw [hi] at hcmp
        omega
      · split at h
        · have := ih h
          omega
        · have := ih h
          omega
    · cases h

/-- The entries stand in the order of `cmp`, in the range. -/
def Sorted (cmp : Int → Int) (imin imax : Int) : Prop :=
  ∀ i j, imin ≤ i → i < j → j ≤ imax → (0 ≤ cmp j → 0 < cmp i) ∧ (cmp i ≤ 0 → cmp j < 0)

theorem Sorted.mono {imin imax imin' imax' : Int} (h : Sorted cmp imin imax) (hmin : imin ≤ imin')
    (hmax : imax' ≤ imax) : Sorted cmp imin' imax' :=
  fun i j hi hij hj => h i j (by omega) hij (by omega)

/-- What is there is found. -/
theorem binSearch_complete {fuel : Nat} {imin imax i : Int} (hsorted : Sorted cmp imin imax)
    (hfuel : imax - imin + 1 ≤ fuel) (hmin : imin ≤ i) (hmax : i ≤ imax) (hi : cmp i = 0) :
    binSearch cmp fuel imin imax = some i := by
  induction fuel generalizing imin imax with
  | zero => omega
  | succ fuel ih =>
    unfold binSearch
    rw [if_pos (by omega)]
    dsimp only
    have hmid : imin ≤ imin + (imax - imin) / 2 ∧ imin + (imax - imin) / 2 ≤ imax := by omega
    generalize imin + (imax - imin) / 2 = m at hmid
    rcases Int.lt_trichotomy i m with hlt | heq | hgt
    · have hm := (hsorted i m hmin hlt hmid.2).2 (by omega)
      rw [if_neg (by omega), if_neg (by omega)]
      exact ih (hsorted.mono (by omega) (by omega)) (by omega) hmin (by omega)
    · rw [if_pos (by rw [← heq]; exact hi), heq]
    · have hm := (hsorted m i hmid.1 hgt hmax).1 (by omega)
      rw [if_neg (by omega), if_pos hm]
      exact ih (hsorted.mono (by omega) (by omega)) (by omega) (by omega) hmax

end Uvrgw.Lib
