import Mathlib.Algebra.Group.Nat.Defs
import Mathlib.Tactic.SplitIfs

/-!
# Bits of a byte list

Bit `k` of a list of bytes is bit `k % 8` of byte `k / 8`.
-/

namespace Uvrgw.Lib

def bitAt (data : List (BitVec 8)) (k : Nat) : Bool := (data.getD (k / 8) 0).getLsbD (k % 8)

def setBitAt (data : List (BitVec 8)) (k : Nat) (on : Bool) : List (BitVec 8) :=
  let b := data.getD (k / 8) 0
  data.set (k / 8) (if on then b ||| 1#8 <<< (k % 8) else b &&& ~~~(1#8 <<< (k % 8)))

/-- The low bytes of `val`, the least significant one first, from byte `p` on. -/
def writeLE {w : Nat} (data : List (BitVec 8)) (p : Nat) : Nat → BitVec w → List (BitVec 8)
  | 0, _ => data
  | len + 1, val => writeLE (data.set p (val.setWidth 8)) (p + 1) len (val >>> 8)

/-- The number whose low bytes are `len` bytes from `p` on, the least significant one first. -/
def readLE (w : Nat) (data : List (BitVec 8)) (p : Nat) : Nat → BitVec w
  | 0 => 0
  | len + 1 => readLE w data (p + 1) len <<< 8 ||| (data.getD p 0).setWidth w

theorem length_setBitAt (data : List (BitVec 8)) (k : Nat) (on : Bool) :
    (setBitAt data k on).length = data.length := List.length_set

theorem length_writeLE {w : Nat} (data : List (BitVec 8)) (p len : Nat) (val : BitVec w) :
    (writeLE data p len val).length = data.length := by
  induction len generalizing data p val with
  | zero => rfl
  | succ len ih =>
    rw [writeLE, ih]
    exact List.length_set

theorem bitAt_set {data : List (BitVec 8)} {p : Nat} (b : BitVec 8) (k : Nat) (hp : p < data.length) :
    bitAt (data.set p b) k = if k / 8 = p then b.getLsbD (k % 8) else bitAt data k := by
  unfold bitAt
  rw [List.getD_eq_getElem?_getD, List.getElem?_set]
  by_cases h : p = k / 8
  · subst h
    simp [hp]
  · have h' : ¬ k / 8 = p := fun e => h e.symm
    simp [h, h']

theorem bitAt_setBitAt {data : List (BitVec 8)} {k : Nat} (on : Bool) (j : Nat) (hk : k / 8 < data.length) :
    bitAt (setBitAt data k on) j = if j = k then on else bitAt data j := by
  unfold setBitAt
  rw [bitAt_set _ _ hk]
  by_cases hbyte : j / 8 = k / 8
  · rw [if_pos hbyte]
    by_cases hj : j = k
    · subst hj
      have := Nat.mod_lt j (show 0 < 8 by omega)
      cases on <;> simp [this]
    · -- the same byte, another bit
      have hne : j % 8 ≠ k % 8 := by omega
      have hlt := Nat.mod_lt j (show 0 < 8 by omega)
      rw [if_neg hj, bitAt, ← hbyte]
      cases on
      · simp [hlt]
        intro _
        omega
      · simp [hlt]
        intro _ _
        omega
  · rw [if_neg hbyte, if_neg]
    rintro rfl
    exact hbyte rfl

theorem bitAt_writeLE {w : Nat} {data : List (BitVec 8)} {p len : Nat} (val : BitVec w) (k : Nat)
    (hlen : p + len ≤ data.length) :
    bitAt (writeLE data p len val) k =
      if 8 * p ≤ k ∧ k < 8 * (p + len) then val.getLsbD (k - 8 * p) else bitAt data k := by
  induction len generalizing data p val with
  | zero => rw [writeLE, if_neg (by omega)]
  | succ len ih =>
    rw [writeLE, ih _ (by rw [List.length_set]; omega), bitAt_set _ _ (by omega)]
    by_cases hbyte : k / 8 = p
    · have hk : k - 8 * p = k % 8 := by omega
      have hlt := Nat.mod_lt k (show 0 < 8 by omega)
      rw [if_neg (by omega), if_pos hbyte, if_pos (by omega), hk]
      simp [hlt]
    · rw [if_neg hbyte]
      by_cases hin : 8 * (p + 1) ≤ k ∧ k < 8 * (p + 1 + len)
      · rw [if_pos hin, if_pos (by omega), BitVec.getLsbD_ushiftRight]
        congr 1
        omega
      · rw [if_neg hin, if_neg (by omega)]

theorem getLsbD_readLE (w : Nat) (data : List (BitVec 8)) (p len k : Nat) :
    (readLE w data p len).getLsbD k = (decide (k < w) && decide (k < 8 * len) && bitAt data (8 * p + k)) := by
  induction len generalizing p k with
  | zero => simp [readLE]
  | succ len ih =>
    rw [readLE, BitVec.getLsbD_or, BitVec.getLsbD_shiftLeft, BitVec.getLsbD_setWidth, ih]
    by_cases hk : k < 8
    · have hdiv : (8 * p + k) / 8 = p := by omega
      have hmod : (8 * p + k) % 8 = k := by omega
      have hlen : k < 8 * (len + 1) := by omega
      simp [hk, bitAt, hdiv, hmod, hlen]
    · -- a higher byte
      have hbyte : BitVec.getLsbD (data.getD p 0) k = false := BitVec.getLsbD_of_ge _ _ (by omega)
      have hpos : 8 * (p + 1) + (k - 8) = 8 * p + k := by omega
      have hlen : k - 8 < 8 * len ↔ k < 8 * (len + 1) := by omega
      have hw : (k < w ∧ k - 8 < w ∧ k < 8 * (len + 1)) ↔ k < w ∧ k < 8 * (len + 1) := by omega
      rw [hbyte, hpos]
      simp only [hk, hlen, decide_false, Bool.not_false, Bool.and_true, Bool.and_false, Bool.or_false,
        ← Bool.and_assoc, ← Bool.decide_and, hw]

theorem readLE_lt (w : Nat) (data : List (BitVec 8)) (p len : Nat) :
    (readLE w data p len).toNat < 2 ^ (8 * len) := by
  apply Nat.lt_pow_two_of_testBit
  intro k hk
  have hlen : ¬ k < 8 * len := by omega
  rw [BitVec.testBit_toNat, getLsbD_readLE]
  simp [hlen]

end Uvrgw.Lib
