import Mathlib.Algebra.Order.Ring.Int
import Mathlib.Data.Int.ModEq

/-!
# Points of a grid

Times that are a multiple of `period` away from `start`.
-/

namespace Uvrgw.Lib

def OnGrid (start period t : Int) : Prop := t ≡ start [ZMOD period]

/-- The latest point that is not after `now`. -/
def lastPoint (start period now : Int) : Int := start + (now - start) / period * period

/-- The first point after `now`. -/
def nextPoint (start period now : Int) : Int := start + ((now - start) / period + 1) * period

section Points

variable {start period : Int}

theorem nextPoint_eq (start period now : Int) : nextPoint start period now = lastPoint start period now + period := by
  unfold nextPoint lastPoint
  rw [add_one_mul, add_assoc]

theorem OnGrid.add_period {t : Int} (h : OnGrid start period t) : OnGrid start period (t + period) :=
  Int.add_modEq_right.trans h

theorem OnGrid.add_le {a b : Int} (ha : OnGrid start period a) (hb : OnGrid start period b) (hlt : a < b) :
    a + period ≤ b := by
  have := Int.le_of_dvd (by omega) (Int.ModEq.dvd (ha.trans hb.symm))
  omega

theorem onGrid_lastPoint (start period now : Int) : OnGrid start period (lastPoint start period now) := by
  apply Int.ModEq.symm
  rw [Int.modEq_iff_dvd]
  unfold lastPoint
  rw [add_sub_cancel_left]
  exact Int.dvd_mul_left ..

theorem onGrid_nextPoint (start period now : Int) : OnGrid start period (nextPoint start period now) := by
  rw [nextPoint_eq]
  exact (onGrid_lastPoint ..).add_period

variable (h : 0 < period)

include h

theorem lastPoint_le (now : Int) : lastPoint start period now ≤ now := by
  have := Int.ediv_mul_le (now - start) h.ne'
  unfold lastPoint
  omega

theorem lt_lastPoint_add (now : Int) : now < lastPoint start period now + period := by
  have := Int.lt_ediv_add_one_mul_self (now - start) h
  rw [← nextPoint_eq]
  unfold nextPoint
  omega

theorem le_lastPoint {t now : Int} (ht : OnGrid start period t) (hle : t ≤ now) : t ≤ lastPoint start period now := by
  by_contra hlt
  have := (onGrid_lastPoint start period now).add_le ht (by omega)
  have : now < lastPoint start period now + period := lt_lastPoint_add h now
  omega

theorem eq_lastPoint {t now : Int} (ht : OnGrid start period t) (hle : t ≤ now) (hlt : now < t + period) :
    t = lastPoint start period now := by
  apply (le_lastPoint h ht hle).antisymm
  by_contra hgt
  have := ht.add_le (onGrid_lastPoint start period now) (by omega)
  have : lastPoint start period now ≤ now := lastPoint_le h now
  omega

theorem lt_nextPoint (now : Int) : now < nextPoint start period now := by
  rw [nextPoint_eq]
  exact lt_lastPoint_add h now

theorem nextPoint_le (now : Int) : nextPoint start period now ≤ now + period := by
  rw [nextPoint_eq]
  exact Int.add_le_add_right (lastPoint_le h now) period

theorem nextPoint_le_of_lt {now t : Int} (ht : OnGrid start period t) (hlt : now < t) :
    nextPoint start period now ≤ t := by
  rw [nextPoint_eq]
  exact (onGrid_lastPoint ..).add_le ht ((lastPoint_le h now).trans_lt hlt)

/-- The grid does not depend on which of its points it starts from. -/
theorem nextPoint_of_onGrid {t : Int} (ht : OnGrid start period t) (now : Int) :
    nextPoint t period now = nextPoint start period now := by
  have hon : OnGrid start period (nextPoint t period now) := (onGrid_nextPoint t period now).trans ht
  have hon' : OnGrid t period (nextPoint start period now) := (onGrid_nextPoint start period now).trans ht.symm
  apply le_antisymm
  · exact nextPoint_le_of_lt h hon' (lt_nextPoint h now)
  · exact nextPoint_le_of_lt h hon (lt_nextPoint h now)

end Points

end Uvrgw.Lib
