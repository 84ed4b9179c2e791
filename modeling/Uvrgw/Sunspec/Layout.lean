import Uvrgw.Sunspec.Code

/-!
# The layout of a SunSpec map

What a client makes of the registers: the marker, the models behind it up to the end model, and the points of
models 1 and 213 at their offsets.
-/

namespace Uvrgw.Sunspec

/-! ## Models -/

/-- Id and registers of each model, up to the end model. -/
def models (regs : List (BitVec 16)) : Option (List (BitVec 16 × List (BitVec 16))) :=
  match regs with
  | id :: len :: rest =>
    if id = 0xffff then (if len = 0 ∧ rest = [] then some [] else none)
    else if len.toNat ≤ rest.length then (models (rest.drop len.toNat)).map ((id, rest.take len.toNat) :: ·)
    else none
  | _ => none
termination_by regs.length
decreasing_by
  simp only [List.length_drop, List.length_cons]
  omega

theorem models_cons {id len : BitVec 16} {block rest : List (BitVec 16)} (hid : id ≠ 0xffff)
    (hlen : block.length = len.toNat) :
    models (id :: len :: (block ++ rest)) = (models rest).map ((id, block) :: ·) := by
  rw [models, if_neg hid, if_pos (by simp [hlen]), ← hlen, List.drop_left, List.take_left]

theorem models_end : models [0xffff, 0] = some [] := by
  rw [models]
  simp

/-! ## Points -/

/-- The points of model 213 that have a total and a value for each phase. -/
inductive Point where
  | current
  | voltage
  | voltagePp
  | power
  | apparentPower
  | reactivePower
  | pf
  | energyExp
  | energyImp
  deriving DecidableEq, Repr

/-- The offset of the total in model 213; the phases follow. -/
def Point.offset : Point → Nat
  | current => 0
  | voltage => 8
  | voltagePp => 16
  | power => 26
  | apparentPower => 34
  | reactivePower => 42
  | pf => 50
  | energyExp => 58
  | energyImp => 66

def frequencyOffset : Nat := 24

/-- The offset of the first point that is not supported. -/
def restOffset : Nat := 74

/-- What a client reads from a map. -/
structure Map where
  manufacturer : Bytes
  model : Bytes
  options : Bytes
  version : Bytes
  serial : Bytes
  unitId : Nat
  total : Point → BitVec 32
  phase : Point → Fin 3 → BitVec 32
  frequency : BitVec 32
  /-- Everything behind the energies. -/
  rest : List (BitVec 16)

def float (regs : List (BitVec 16)) (offset : Nat) : BitVec 32 := regs.getD offset 0 ++ regs.getD (offset + 1) 0

/-- A string, up to the first NUL or the end of its field. -/
def string (regs : List (BitVec 16)) : Bytes :=
  (regs.flatMap fun w : BitVec 16 => [(w >>> 8).setWidth 8, w.setWidth 8]).takeWhile (· ≠ 0)

def field (regs : List (BitVec 16)) (offset len : Nat) : List (BitVec 16) := (regs.drop offset).take len

/-- `SunS`. -/
def marker : List (BitVec 16) := [0x5375, 0x6e53]

/-- The points of models 1 and 213. -/
def readMap (common meter : List (BitVec 16)) : Map where
  manufacturer := string (field common 0 16)
  model := string (field common 16 16)
  options := string (field common 32 8)
  version := string (field common 40 8)
  serial := string (field common 48 16)
  unitId := (common.getD 64 0).toNat
  total := fun p => float meter p.offset
  phase := fun p i => float meter (p.offset + 2 + 2 * i)
  frequency := float meter frequencyOffset
  rest := meter.drop restOffset

/-- The map, if it holds just models 1 and 213 of the right lengths. -/
def decode (regs : List (BitVec 16)) : Option Map :=
  if regs.take 2 ≠ marker then none
  else
    match models (regs.drop 2) with
    | some [common, meter] =>
      if common.1 = 1 ∧ common.2.length = 65 ∧ meter.1 = 213 ∧ meter.2.length = 124 then
        some (readMap common.2 meter.2)
      else none
    | _ => none

/-! ## Strings -/

theorem split_join (a b : BitVec 8) : ((a ++ b) >>> 8).setWidth 8 = a ∧ (a ++ b).setWidth 8 = b := by
  constructor
  · apply BitVec.eq_of_getLsbD_eq
    intro i hi
    rw [BitVec.getLsbD_setWidth, BitVec.getLsbD_ushiftRight, BitVec.getLsbD_append, if_neg (by omega),
      Nat.add_sub_cancel_left]
    simp [hi]
  · apply BitVec.eq_of_getLsbD_eq
    intro i hi
    rw [BitVec.getLsbD_setWidth, BitVec.getLsbD_append, if_pos hi]
    simp [hi]

theorem padded_eq {s : Bytes} {len : Nat} (h : s.length ≤ len) :
    (List.range len).map (s.getD · 0) = s ++ List.replicate (len - s.length) 0 := by
  apply List.ext_getElem
  · simp [h]
  · intro i h1 h2
    rcases Nat.lt_or_ge i s.length with hi | hi
    · simp [List.getElem_append_left hi, hi]
    · simp [List.getElem_append_right hi, hi]

theorem flatMap_pairs (f : Nat → BitVec 8) (n : Nat) :
    (List.range n).flatMap (fun k => [f (2 * k), f (2 * k + 1)]) = (List.range (2 * n)).map f := by
  induction n with
  | zero => rfl
  | succ n ih =>
    rw [List.range_succ, List.flatMap_append, ih, show 2 * (n + 1) = 2 * n + 1 + 1 by omega, List.range_succ,
      List.range_succ]
    simp

/-- A string without NUL is read back from any field that holds it. -/
theorem string_putStr {s : Option Bytes} {len : Nat} (heven : len % 2 = 0) (hlen : (s.getD []).length ≤ len)
    (hnul : 0 ∉ s.getD []) : string (putStr s len) = s.getD [] := by
  unfold string putStr
  generalize s.getD [] = s at hlen hnul
  dsimp only
  rw [List.flatMap_map]
  simp only [split_join]
  have hpairs : (List.range (len / 2)).flatMap (fun k => [s.getD (2 * k) 0, s.getD (2 * k + 1) 0]) =
      (List.range (2 * (len / 2))).map (s.getD · 0) := flatMap_pairs (fun i => s.getD i 0) (len / 2)
  rw [hpairs, show 2 * (len / 2) = len by omega, padded_eq hlen]
  have hkeep : ∀ b ∈ s, (decide (b ≠ 0)) = true := by
    intro b hb
    rw [decide_eq_true_eq]
    rintro rfl
    exact hnul hb
  rw [List.takeWhile_append_of_pos hkeep]
  cases len - s.length with
  | zero => simp
  | succ n => simp [List.replicate_succ]

end Uvrgw.Sunspec
