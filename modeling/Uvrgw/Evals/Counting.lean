import Mathlib.Data.Nat.Choose.Basic
import Uvrgw.Evals.Functions

/-!
# `fac`, `ncr` and `npr` (`tinyexpr.c`)

They count in an `unsigned long`, which wraps around, and return infinity before that happens.
-/

namespace Uvrgw.Evals

/-- `UINT_MAX` -/
def uintMax : Nat := 2 ^ 32 - 1

/-- `ULONG_MAX` -/
def ulongMax : Nat := 2 ^ 64 - 1

def mulUlong (a b : Nat) : Nat := a * b % (ulongMax + 1)

/-- The loop of `fac` with `n` passes left; `none` is the return of infinity. -/
def facLoop : (n i result : Nat) → Option Nat
  | 0, _, result => some result
  | n + 1, i, result => if ulongMax / result < i then none else facLoop n (i + 1) (mulUlong result i)

/-- The loop of `ncr` with `n` passes left. -/
def ncrLoop (un ur : Nat) : (n i result : Nat) → Option Nat
  | 0, _, result => some result
  | n + 1, i, result =>
    if ulongMax / (un - ur + i) < result then none
    else ncrLoop un ur n (i + 1) (mulUlong result (un - ur + i) / i)

/-- `(unsigned int) a` of a number that fits. -/
def toUint (a : Double) : Nat := ⌊a.num⌋.toNat

section Functions

-- the conversion from `unsigned long`
variable (double : Nat → Double)

def fac (a : Double) : Double :=
  if !lessEq (.fin 0) a then .nan
  else if less (.fin uintMax) a then .inf false
  else (facLoop (toUint a) 1 1).elim (.inf false) double

def ncr (n r : Double) : Double :=
  if !lessEq (.fin 0) n || !lessEq (.fin 0) r || less n r then .nan
  else if less (.fin uintMax) n || less (.fin uintMax) r then .inf false
  else
    let un := toUint n
    let ur := if un / 2 < toUint r then un - toUint r else toUint r
    (ncrLoop un ur ur 1 1).elim (.inf false) double

def npr (n r : Double) : Double := mul (ncr double n r) (fac double r)

end Functions

/-! ## The loops -/

theorem mulUlong_eq {a b : Nat} (h : a * b ≤ ulongMax) : mulUlong a b = a * b := Nat.mod_eq_of_lt (by omega)

theorem facLoop_eq (n k : Nat) (hk : k.factorial ≤ ulongMax) : facLoop n (k + 1) k.factorial =
    if (k + n).factorial ≤ ulongMax then some (k + n).factorial else none := by
  induction n generalizing k with
  | zero => rw [facLoop, Nat.add_zero, if_pos hk]
  | succ n ih =>
    have hnext : k.factorial * (k + 1) = (k + 1).factorial := by rw [Nat.factorial_succ, Nat.mul_comm]
    rw [facLoop]
    by_cases h : (k + 1).factorial ≤ ulongMax
    · rw [if_neg, mulUlong_eq (by rwa [hnext]), hnext, ih (k + 1) h, show k + 1 + n = k + (n + 1) by omega]
      rw [Nat.not_lt, Nat.le_div_iff_mul_le (Nat.factorial_pos k), Nat.mul_comm, hnext]
      exact h
    · have hmono : (k + 1).factorial ≤ (k + (n + 1)).factorial := Nat.factorial_le (by omega)
      rw [if_pos, if_neg (by omega)]
      rw [Nat.div_lt_iff_lt_mul (Nat.factorial_pos k), Nat.mul_comm, hnext]
      omega

/-- What a pass of `ncr` holds before its division. -/
def dividend (m i : Nat) : Nat := (m + i).choose i * i

theorem choose_mul_eq (m i : Nat) : (m + i).choose i * (m + i + 1) = dividend m (i + 1) := by
  rw [Nat.mul_comm, Nat.add_one_mul_choose_eq]
  rfl

theorem dividend_mono (m : Nat) {i j : Nat} (h : i ≤ j) : dividend m i ≤ dividend m j := by
  induction j, h using Nat.le_induction with
  | base => exact le_rfl
  | succ j _ ih =>
    rw [← choose_mul_eq]
    exact ih.trans (Nat.mul_le_mul_left _ (by omega))

theorem ncrLoop_eq (un ur n i : Nat) (hi : dividend (un - ur) i ≤ ulongMax) :
    ncrLoop un ur n (i + 1) ((un - ur + i).choose i) =
      if dividend (un - ur) (i + n) ≤ ulongMax then some ((un - ur + (i + n)).choose (i + n)) else none := by
  induction n generalizing i with
  | zero => rw [ncrLoop, Nat.add_zero, if_pos hi]
  | succ n ih =>
    have hnext := choose_mul_eq (un - ur) i
    rw [ncrLoop, ← Nat.add_assoc]
    by_cases h : dividend (un - ur) (i + 1) ≤ ulongMax
    · have hdiv : dividend (un - ur) (i + 1) / (i + 1) = (un - ur + (i + 1)).choose (i + 1) :=
        Nat.mul_div_cancel _ (by omega)
      rw [if_neg, mulUlong_eq (by rwa [hnext]), hnext, hdiv, ih (i + 1) h, show i + 1 + n = i + (n + 1) by omega]
      rw [Nat.not_lt, Nat.le_div_iff_mul_le (by omega), hnext]
      exact h
    · have hmono := dividend_mono (un - ur) (i := i + 1) (j := i + (n + 1)) (by omega)
      rw [if_pos, if_neg (by omega)]
      rw [Nat.div_lt_iff_lt_mul (by omega), hnext]
      omega

/-! ## The functions -/

theorem lessEq_fin (a b : ℚ) : lessEq (.fin a) (.fin b) = decide (a ≤ b) := by
  unfold lessEq less same
  rw [← Bool.decide_or, decide_eq_decide]
  exact le_iff_lt_or_eq.symm

theorem less_fin (a b : ℚ) : less (.fin a) (.fin b) = decide (a < b) := rfl

theorem toUint_fin (q : ℚ) : toUint (.fin q) = ⌊q⌋₊ := Int.floor_toNat q

theorem fac_eq (double : Nat → Double) {a : ℚ} (h0 : 0 ≤ a) (ha : a ≤ uintMax) :
    fac double (.fin a) =
      if ⌊a⌋₊.factorial ≤ ulongMax then double ⌊a⌋₊.factorial else .inf false := by
  have hloop := facLoop_eq ⌊a⌋₊ 0 (by decide)
  unfold fac
  rw [lessEq_fin, less_fin, decide_eq_true h0, decide_eq_false (not_lt.mpr ha), toUint_fin]
  rw [Nat.zero_add, Nat.zero_add, Nat.factorial_zero] at hloop
  simp only [Bool.not_true, Bool.false_eq_true, if_false, hloop]
  split <;> rfl

/-- The smaller of the two ways to count. -/
theorem ncr_half {un ur : Nat} (h : ur ≤ un) : (if un / 2 < ur then un - ur else ur) = min ur (un - ur) := by
  split <;> omega

theorem choose_min {un ur : Nat} (h : ur ≤ un) : un.choose (min ur (un - ur)) = un.choose ur := by
  rcases Nat.le_total ur (un - ur) with hle | hle
  · rw [min_eq_left hle]
  · rw [min_eq_right hle, Nat.choose_symm h]

theorem ncr_eq (double : Nat → Double) {n r : ℚ} (hr : 0 ≤ r) (hle : r ≤ n) (hn : n ≤ uintMax) :
    ncr double (.fin n) (.fin r) =
      if ⌊n⌋₊.choose ⌊r⌋₊ * min ⌊r⌋₊ (⌊n⌋₊ - ⌊r⌋₊) ≤ ulongMax then
        double (⌊n⌋₊.choose ⌊r⌋₊) else .inf false := by
  have hfloor : ⌊r⌋₊ ≤ ⌊n⌋₊ := Nat.floor_le_floor hle
  unfold ncr
  rw [lessEq_fin, lessEq_fin, less_fin, less_fin, less_fin, decide_eq_true (hr.trans hle),
    decide_eq_true hr, decide_eq_false (not_lt.mpr hle), decide_eq_false (not_lt.mpr hn),
    decide_eq_false (not_lt.mpr (hle.trans hn)), toUint_fin, toUint_fin]
  generalize ⌊n⌋₊ = un at hfloor ⊢
  generalize ⌊r⌋₊ = ur at hfloor ⊢
  dsimp only
  rw [ncr_half hfloor, ← choose_min hfloor]
  have hmin : min ur (un - ur) ≤ un := (Nat.min_le_left _ _).trans hfloor
  generalize min ur (un - ur) = k at hmin ⊢
  have hloop := ncrLoop_eq un k k 0 (Nat.zero_le _)
  rw [Nat.choose_zero_right, Nat.zero_add, Nat.zero_add, dividend, Nat.sub_add_cancel hmin] at hloop
  simp only [Bool.not_true, Bool.or_self, Bool.false_eq_true, if_false, hloop]
  split <;> rfl

/-- **Counting.** On every number that they accept, `fac`, `ncr` and `npr` return the exact count or infinity. -/
theorem counting_exact (double : Nat → Double) (n r : ℚ) (hr : 0 ≤ r) (hle : r ≤ n) (hn : n ≤ uintMax) :
    fac double (.fin n) = (if ⌊n⌋₊.factorial ≤ ulongMax then double ⌊n⌋₊.factorial else .inf false) ∧
      ncr double (.fin n) (.fin r) = (if ⌊n⌋₊.choose ⌊r⌋₊ * min ⌊r⌋₊ (⌊n⌋₊ - ⌊r⌋₊) ≤ ulongMax then
        double (⌊n⌋₊.choose ⌊r⌋₊) else .inf false) ∧
      npr (fun k => .fin k) (.fin n) (.fin r) =
        if ⌊n⌋₊.choose ⌊r⌋₊ * min ⌊r⌋₊ (⌊n⌋₊ - ⌊r⌋₊) ≤ ulongMax ∧ ⌊r⌋₊.factorial ≤ ulongMax then
          .fin (⌊n⌋₊.descFactorial ⌊r⌋₊) else .inf false := by
  refine ⟨fac_eq double (hr.trans hle) hn, ncr_eq double hr hle hn, ?_⟩
  have hfloor : ⌊r⌋₊ ≤ ⌊n⌋₊ := Nat.floor_le_floor hle
  have hchoose : (0 : ℚ) < ⌊n⌋₊.choose ⌊r⌋₊ := by exact_mod_cast Nat.choose_pos hfloor
  have hfac : (0 : ℚ) < ⌊r⌋₊.factorial := by exact_mod_cast Nat.factorial_pos ⌊r⌋₊
  unfold npr
  rw [ncr_eq _ hr hle hn, fac_eq _ hr (hle.trans hn), Nat.descFactorial_eq_factorial_mul_choose]
  by_cases h1 : ⌊n⌋₊.choose ⌊r⌋₊ * min ⌊r⌋₊ (⌊n⌋₊ - ⌊r⌋₊) ≤ ulongMax <;>
    by_cases h2 : ⌊r⌋₊.factorial ≤ ulongMax
  · rw [if_pos h1, if_pos h2, if_pos ⟨h1, h2⟩, mul, Nat.cast_mul, mul_comm]
  · rw [if_pos h1, if_neg h2, if_neg fun h => h2 h.2, mul, if_neg hchoose.ne',
      decide_eq_false (not_lt.mpr hchoose.le)]
    rfl
  · rw [if_neg h1, if_pos h2, if_neg fun h => h1 h.1, mul, if_neg hfac.ne', decide_eq_false (not_lt.mpr hfac.le)]
    rfl
  · rw [if_neg h1, if_neg h2, if_neg fun h => h1 h.1]
    rfl

/-- The count of 31 out of 63 would fit, but not the product before the last division. -/
theorem counting_exact_example : ncr (fun k => .fin k) (.fin 63) (.fin 31) = .inf false ∧
    Nat.choose 63 31 ≤ ulongMax ∧ npr (fun k => .fin k) (.fin 5) (.fin (5 / 2)) = .fin 20 := by
  have h63 := (counting_exact (fun k => .fin k) 63 31 (by norm_num) (by norm_num) (by norm_num [uintMax])).2.1
  have h5 := (counting_exact (fun k => .fin k) 5 (5 / 2) (by norm_num) (by norm_num) (by norm_num [uintMax])).2.2
  have hhalf : ⌊(5 / 2 : ℚ)⌋₊ = 2 := by
    rw [Nat.floor_eq_iff (by norm_num)]
    norm_num
  rw [Nat.floor_ofNat, Nat.floor_ofNat, if_neg (by decide +kernel)] at h63
  rw [Nat.floor_ofNat, hhalf, if_pos (by decide +kernel)] at h5
  refine ⟨h63, by decide +kernel, h5.trans ?_⟩
  norm_num [Nat.descFactorial]

end Uvrgw.Evals
