import Mathlib.Algebra.GroupWithZero.Nat
import Mathlib.Data.Rat.Defs
import Mathlib.Algebra.Order.Ring.Unbundled.Rat
import Mathlib.Data.List.FinRange

/-!
# SunSpec meters (`sunspec.c`)

Numbers are exact rationals: the dispatcher stores finite ones only. The functions of libm and the
rounding to `float` are parameters.
-/

namespace Uvrgw.Sunspec

abbrev Bytes := List (BitVec 8)

/-- `SUNSPEC_PH_*`. -/
inductive Quantity where
  | current
  | voltage
  | power
  | pf
  | energyImp
  | energyExp
  deriving DecidableEq, Repr

/-- In the order of `SUNSPEC_PH_*`. -/
def Quantity.all : List Quantity := [current, voltage, power, pf, energyImp, energyExp]

/-- The places of `SUNSPEC_METER_T` that name a source. -/
inductive Src where
  | phase (ph : Fin 3) (q : Quantity)
  | power
  | energyImp
  | energyExp
  | frequency
  deriving DecidableEq, Repr

/-- In the order in which `meter_configure` and `update_image` visit them. -/
def Src.all : List Src :=
  (List.finRange 3).flatMap (fun ph => Quantity.all.map (.phase ph)) ++
    [power, energyImp, energyExp, frequency]

/-- The sources that `meter_configure` takes as power. -/
def Src.isPower : Src → Bool
  | phase _ q => q = .power
  | power => true
  | _ => false

structure Meter where
  name : String
  unitId : Int
  manufacturer : Option Bytes := none
  model : Option Bytes := none
  options : Option Bytes := none
  version : Option Bytes := none
  serial : Option Bytes := none
  /-- The name of each source; `none` is not configured. -/
  src : Src → Option String := fun _ => none
  /-- `mapping->tab_registers`. -/
  regs : List (BitVec 16) := List.replicate 197 0
  unavailable : Bool := false

def strConfigure (maxLen : Nat) (str : Option Bytes) : Bool := str.all (·.length ≤ maxLen)

/-- `meter_configure`, without the registrations. -/
def meterConfigure (m : Meter) : Bool :=
  decide (1 ≤ m.unitId ∧ m.unitId ≤ 247) &&
    strConfigure 32 m.manufacturer && strConfigure 32 m.model && strConfigure 16 m.options &&
    strConfigure 16 m.version && strConfigure 32 m.serial

/-! ## Register image -/

/-- What `sunspec.c` uses of the C library. -/
structure Math where
  sqrt : ℚ → ℚ
  /-- `cos(PHASE_SHIFT_RAD)`. -/
  cosShift : ℚ
  /-- `sin(PHASE_SHIFT_RAD)`. -/
  sinShift : ℚ
  /-- The bits of `(float) f`. -/
  f32 : ℚ → BitVec 32

structure PhaseVals where
  current : ℚ := 0
  voltage : ℚ := 0
  voltagePp : ℚ := 0
  power : ℚ := 0
  apparentPower : ℚ := 0
  reactivePower : ℚ := 0
  pf : ℚ := 0
  energyImp : ℚ := 0
  energyExp : ℚ := 0
  deriving DecidableEq, Repr

/-- `src_get`: the return value, `f` and `invalid`. `read` is what `uvrgw_conf_get_val` gives. -/
def srcGet (src : Option String) (read : ℚ × Bool) (f : ℚ) (invalid : Option String) :
    Bool × ℚ × Option String :=
  match src with
  | none => (false, f, invalid)
  | some name =>
    if !read.2 then (false, f, if invalid = none then some name else invalid) else (true, read.1, invalid)

/-- `invalid` after the sources `srcs`. -/
def invalidAfter (m : Meter) (read : Src → ℚ × Bool) (srcs : List Src) (invalid : Option String) :
    Option String :=
  srcs.foldl (fun invalid s => (srcGet (m.src s) (read s) 0 invalid).2.2) invalid

def phaseToPhase (math : Math) (v1 v2 : ℚ) : ℚ :=
  let parallel := v1 - v2 * math.cosShift
  let perpendicular := v2 * math.sinShift
  math.sqrt (parallel * parallel + perpendicular * perpendicular)

def putStr (s : Option Bytes) (len : Nat) : List (BitVec 16) :=
  let s := s.getD []
  (List.range (len / 2)).map fun k => s.getD (2 * k) 0 ++ s.getD (2 * k + 1) 0

def putF32 (math : Math) (f : ℚ) : List (BitVec 16) :=
  let u32 := math.f32 f
  [(u32 >>> 16).setWidth 16, u32.setWidth 16]

def putAll (math : Math) (tot : PhaseVals) (ph : Fin 3 → PhaseVals) (field : PhaseVals → ℚ) :
    List (BitVec 16) :=
  putF32 math (field tot) ++ (List.finRange 3).flatMap fun i => putF32 math (field (ph i))

/-- One phase, before the phase to phase voltages. -/
def phaseVals (math : Math) (has : Quantity → Bool) (val : Quantity → ℚ) : PhaseVals :=
  let apparentPower := if has .voltage && has .current then val .voltage * val .current else 0
  { current := val .current
    voltage := val .voltage
    power := val .power
    energyImp := val .energyImp
    energyExp := val .energyExp
    apparentPower := apparentPower
    reactivePower :=
      if has .voltage && has .current && has .power then
        math.sqrt |apparentPower * apparentPower - val .power * val .power|
      else 0
    pf :=
      if has .pf then val .pf else if 0 < apparentPower then val .power / apparentPower else 0 }

def sumPhases (f : Fin 3 → ℚ) : ℚ := (List.finRange 3).foldl (fun sum i => sum + f i) 0

/-- A total voltage: the mean over the phases that have one. -/
def meanPhases (has : Fin 3 → Bool) (f : Fin 3 → ℚ) : ℚ :=
  let count := ((List.finRange 3).filter fun i => has i).length
  let sum := sumPhases fun i => if has i then f i else 0
  if 0 < count then sum / count else sum

/-- The registers that `update_image` writes. -/
def image (math : Math) (m : Meter) (tot : PhaseVals) (ph : Fin 3 → PhaseVals) (frequency : ℚ) :
    List (BitVec 16) :=
  putStr (some ("SunS".toList.map fun c => BitVec.ofNat 8 c.toNat)) 4 ++
  [1, 65] ++
  putStr m.manufacturer 32 ++ putStr m.model 32 ++ putStr m.options 16 ++ putStr m.version 16 ++
  putStr m.serial 32 ++
  [BitVec.ofInt 16 m.unitId] ++
  [213, 124] ++
  putAll math tot ph (·.current) ++ putAll math tot ph (·.voltage) ++ putAll math tot ph (·.voltagePp) ++
  putF32 math frequency ++
  putAll math tot ph (·.power) ++ putAll math tot ph (·.apparentPower) ++
  putAll math tot ph (·.reactivePower) ++ putAll math tot ph (·.pf) ++
  putAll math tot ph (·.energyExp) ++ putAll math tot ph (·.energyImp) ++
  List.replicate (6 * 4 * 2) 0 ++ List.replicate 2 0 ++
  [0xffff, 0]

/-- The phases are counted round. -/
scoped instance phases_ne_zero : NeZero 3 := ⟨by decide⟩

/-- `update_image`: the meter and the return value. `read s` is what `uvrgw_conf_get_val` gives when
source `s` is read. -/
def updateImage (math : Math) (m : Meter) (read : Src → ℚ × Bool) : Meter × Int :=
  let has (s : Src) : Bool := (srcGet (m.src s) (read s) 0 none).1
  let val (s : Src) : ℚ := (srcGet (m.src s) (read s) 0 none).2.1
  let next (i : Fin 3) : Fin 3 := i + 1
  let hasV (i : Fin 3) : Bool := has (.phase i .voltage)
  let hasPp (i : Fin 3) : Bool := hasV i && hasV (next i)
  let ph₀ (i : Fin 3) := phaseVals math (fun q => has (.phase i q)) fun q => val (.phase i q)
  let ph (i : Fin 3) : PhaseVals :=
    { ph₀ i with
      voltagePp := if hasPp i then phaseToPhase math (ph₀ i).voltage (ph₀ (next i)).voltage else 0 }
  let sums : PhaseVals :=
    { current := sumPhases fun i => (ph i).current
      voltage := meanPhases hasV fun i => (ph i).voltage
      voltagePp := meanPhases hasPp fun i => (ph i).voltagePp
      power := if has .power then val .power else sumPhases fun i => (ph i).power
      apparentPower := sumPhases fun i => (ph i).apparentPower
      reactivePower := sumPhases fun i => (ph i).reactivePower
      energyImp := if has .energyImp then val .energyImp else sumPhases fun i => (ph i).energyImp
      energyExp := if has .energyExp then val .energyExp else sumPhases fun i => (ph i).energyExp }
  let tot : PhaseVals :=
    { sums with pf := if 0 < sums.apparentPower then sums.power / sums.apparentPower else 0 }
  if (invalidAfter m read Src.all none).isSome then ({ m with unavailable := true }, -1)
  else
    ({ m with
        unavailable := false
        regs := image math m tot ph (val .frequency) }, 0)

/-! ## Invalid sources -/

theorem srcGet_invalid (src : Option String) (read : ℚ × Bool) (invalid : Option String) :
    (srcGet src read 0 invalid).2.2.isSome = true ↔
      invalid.isSome = true ∨ src.isSome = true ∧ read.2 = false := by
  unfold srcGet
  rcases src with _ | name
  · simp
  · cases hr : read.2 <;> cases invalid <;> simp

theorem invalidAfter_isSome (m : Meter) (read : Src → ℚ × Bool) (srcs : List Src) (invalid : Option String) :
    (invalidAfter m read srcs invalid).isSome = true ↔
      invalid.isSome = true ∨ ∃ s ∈ srcs, (m.src s).isSome = true ∧ (read s).2 = false := by
  induction srcs generalizing invalid with
  | nil => simp [invalidAfter]
  | cons s srcs ih =>
    rw [invalidAfter, List.foldl_cons, ← invalidAfter, ih, srcGet_invalid, or_assoc]
    simp

theorem Src.mem_all (s : Src) : s ∈ Src.all := by
  cases s with
  | phase ph q =>
    refine List.mem_append_left _ (List.mem_flatMap.mpr ⟨ph, List.mem_finRange ph, List.mem_map.mpr ⟨q, ?_, rfl⟩⟩)
    cases q <;> decide
  | power | energyImp | energyExp | frequency => exact List.mem_append_right _ (by decide)

/-- One invalid source is enough: the request fails and the registers stay. -/
theorem updateImage_invalid (math : Math) (m : Meter) (read : Src → ℚ × Bool) (s : Src)
    (hs : (m.src s).isSome = true) (hr : (read s).2 = false) :
    (updateImage math m read).2 = -1 ∧ (updateImage math m read).1.regs = m.regs := by
  have h : (invalidAfter m read Src.all none).isSome = true :=
    (invalidAfter_isSome ..).mpr (.inr ⟨s, s.mem_all, hs, hr⟩)
  unfold updateImage
  simp [h]

end Uvrgw.Sunspec
