import Mathlib.Algebra.Order.Floor.Ring
import Mathlib.Data.Rat.Defs
import Mathlib.Data.Rat.Floor
import Mathlib.Tactic.Linarith

/-! # Numbers and directions of the source -/

namespace Uvrgw

/-- A C `double`: an exact rational, or one of the values that `isfinite` rejects. -/
inductive Double where
  | fin (q : ℚ)
  | inf (neg : Bool)
  | nan
  deriving DecidableEq, Repr

namespace Double

def isfinite : Double → Bool
  | fin _ => true
  | _ => false

def num : Double → ℚ
  | fin q => q
  | _ => 0

@[simp] theorem isfinite_fin (q : ℚ) : (fin q).isfinite = true := rfl
@[simp] theorem num_fin (q : ℚ) : (fin q).num = q := rfl

end Double

/-- C `round`: halves go away from zero. -/
def cRound (q : ℚ) : ℤ := if 0 ≤ q then ⌊q + 1 / 2⌋ else ⌈q - 1 / 2⌉

def utlValLimit (val min max : ℤ) : ℤ := if val < min then min else if max < val then max else val

theorem cRound_intCast (n : Int) : cRound n = n := by
  unfold cRound
  split
  · rw [Int.floor_eq_iff]
    constructor <;> linarith
  · rw [Int.ceil_eq_iff]
    constructor <;> linarith

theorem abs_cRound_sub_le (q : ℚ) : |(cRound q : ℚ) - q| ≤ 1 / 2 := by
  unfold cRound
  rw [abs_le]
  split
  · have hle := Int.floor_le (q + 1 / 2)
    have hlt := Int.lt_floor_add_one (q + 1 / 2)
    constructor <;> linarith
  · have hle := Int.le_ceil (q - 1 / 2)
    have hlt := Int.ceil_lt_add_one (q - 1 / 2)
    constructor <;> linarith

/-- Rounding does not leave a range that ends at integers. -/
theorem cRound_mem {q : ℚ} {min max : ℤ} (hmin : min ≤ q) (hmax : q ≤ max) : min ≤ cRound q ∧ cRound q ≤ max := by
  have h := abs_le.mp (abs_cRound_sub_le q)
  have hlo : ((min - 1 : ℤ) : ℚ) < cRound q := by push_cast; linarith
  have hhi : (cRound q : ℚ) < ((max + 1 : ℤ) : ℚ) := by push_cast; linarith
  have hlo' := Int.cast_lt.mp hlo
  have hhi' := Int.cast_lt.mp hhi
  omega

theorem utlValLimit_of_mem {n min max : Int} (hmin : min ≤ n) (hmax : n ≤ max) : utlValLimit n min max = n := by
  unfold utlValLimit
  rw [if_neg (by omega), if_neg (by omega)]

theorem utlValLimit_mem (n : ℤ) {min max : ℤ} (h : min ≤ max) :
    min ≤ utlValLimit n min max ∧ utlValLimit n min max ≤ max := by
  unfold utlValLimit
  split_ifs <;> omega

theorem utlValLimit_eq (n : ℤ) {lo hi : ℤ} (h : lo ≤ hi) : utlValLimit n lo hi = max lo (min n hi) := by
  unfold utlValLimit
  split_ifs <;> omega

/-- Addition of two `int`, which wraps around. -/
def addInt (a b : Int) : Int := Int.bmod (a + b) (2 ^ 32)

theorem addInt_eq {a b : Int} (hlo : -2 ^ 31 ≤ a + b) (hhi : a + b < 2 ^ 31) : addInt a b = a + b :=
  Int.bmod_eq_of_le (by simpa using hlo) (by simpa using hhi)

theorem addInt_wrap {a b : Int} (hlo : 2 ^ 31 ≤ a + b) (hhi : a + b < 2 ^ 32) : addInt a b < 0 := by
  unfold addInt
  have hdvd : ((2 ^ 32 : Nat) : Int) ∣ (a + b) - (a + b).bmod (2 ^ 32) := Int.dvd_self_sub_of_bmod_eq rfl
  have hlt := Int.bmod_lt (x := a + b) (m := 2 ^ 32) (by decide)
  omega

theorem addInt_inj {a b c : Int} (hb : 0 ≤ b ∧ b < 2 ^ 31) (hc : 0 ≤ c ∧ c < 2 ^ 31)
    (h : addInt a b = addInt a c) : b = c := by
  have hdvd : ((2 ^ 32 : Nat) : Int) ∣ (a + b) - (a + c) := by
    rw [Int.dvd_iff_bmod_eq_zero, ← Int.bmod_eq_bmod_iff_bmod_sub_eq_zero]
    exact h
  omega

/-- `UVRGW_CONF_VAL_DIR_*`. -/
inductive Dir where
  | input
  | output
  deriving DecidableEq, Repr

end Uvrgw
