import Mathlib.Algebra.BigOperators.Fin
import Mathlib.Tactic.FinCases
import Mathlib.Tactic.Ring
import Uvrgw.Lib.Cursor
import Uvrgw.Mb.Code
import Uvrgw.Sunspec.Layout

/-!
# The register map decodes to the meter (`update_image`)
-/

namespace Uvrgw.Sunspec

open Uvrgw.Lib

/-! ## The registers as the code writes them -/

def mapRegs : Nat := 197

/-- The end of `update_image`: `regs` runs over the registers of the mapping. -/
def writeImage (math : Math) (m : Meter) (tot : PhaseVals) (ph : Fin 3 → PhaseVals) (frequency : ℚ)
    (tabRegisters : List (BitVec 16)) : List (BitVec 16) :=
  let regs : Cursor (BitVec 16) := ⟨List.replicate mapRegs 0 ++ tabRegisters.drop mapRegs, 0⟩
  let regs := regs.puts (putStr (some ("SunS".toList.map fun c => BitVec.ofNat 8 c.toNat)) 4)
  let regs := regs.put 1
  let regs := regs.put 65
  let regs := regs.puts (putStr m.manufacturer 32)
  let regs := regs.puts (putStr m.model 32)
  let regs := regs.puts (putStr m.options 16)
  let regs := regs.puts (putStr m.version 16)
  let regs := regs.puts (putStr m.serial 32)
  let regs := regs.put (BitVec.ofInt 16 m.unitId)
  let regs := regs.put 213
  let regs := regs.put 124
  let regs := regs.puts (putAll math tot ph (·.current))
  let regs := regs.puts (putAll math tot ph (·.voltage))
  let regs := regs.puts (putAll math tot ph (·.voltagePp))
  let regs := regs.puts (putF32 math frequency)
  let regs := regs.puts (putAll math tot ph (·.power))
  let regs := regs.puts (putAll math tot ph (·.apparentPower))
  let regs := regs.puts (putAll math tot ph (·.reactivePower))
  let regs := regs.puts (putAll math tot ph (·.pf))
  let regs := regs.puts (putAll math tot ph (·.energyExp))
  let regs := regs.puts (putAll math tot ph (·.energyImp))
  let regs := regs.skip (6 * 4 * 2)
  let regs := regs.skip 2
  let regs := regs.put 0xffff
  let regs := regs.put 0
  regs.buf

theorem length_putStr (s : Option Bytes) (len : Nat) : (putStr s len).length = len / 2 := by
  simp [putStr]

theorem length_putF32 (math : Math) (f : ℚ) : (putF32 math f).length = 2 := rfl

theorem length_putAll (math : Math) (tot : PhaseVals) (ph : Fin 3 → PhaseVals) (field : PhaseVals → ℚ) :
    (putAll math tot ph field).length = 8 := rfl

/-- The pointer ends behind the last register, whatever the registers held before. -/
theorem writeImage_eq (math : Math) (m : Meter) (tot : PhaseVals) (ph : Fin 3 → PhaseVals) (frequency : ℚ)
    {tabRegisters : List (BitVec 16)} (h : tabRegisters.length = mapRegs) :
    writeImage math m tot ph frequency tabRegisters = image math m tot ph frequency := by
  have hstart : List.replicate mapRegs (0 : BitVec 16) ++ tabRegisters.drop mapRegs = List.replicate mapRegs 0 := by
    rw [← h, List.drop_length, List.append_nil]
  unfold writeImage
  rw [hstart]
  dsimp only
  have h := Cursor.At.start (0 : BitVec 16) 197
  have h := h.puts (n := 195) (length_putStr (some ("SunS".toList.map fun c => BitVec.ofNat 8 c.toNat)) 4)
  have h := (h.put (n := 194) 1).put (n := 193) 65
  have h := h.puts (n := 177) (length_putStr m.manufacturer 32)
  have h := h.puts (n := 161) (length_putStr m.model 32)
  have h := h.puts (n := 153) (length_putStr m.options 16)
  have h := h.puts (n := 145) (length_putStr m.version 16)
  have h := h.puts (n := 129) (length_putStr m.serial 32)
  have h := h.put (n := 128) (BitVec.ofInt 16 m.unitId)
  have h := (h.put (n := 127) 213).put (n := 126) 124
  have h := h.puts (n := 118) (length_putAll math tot ph (·.current))
  have h := h.puts (n := 110) (length_putAll math tot ph (·.voltage))
  have h := h.puts (n := 102) (length_putAll math tot ph (·.voltagePp))
  have h := h.puts (n := 100) (length_putF32 math frequency)
  have h := h.puts (n := 92) (length_putAll math tot ph (·.power))
  have h := h.puts (n := 84) (length_putAll math tot ph (·.apparentPower))
  have h := h.puts (n := 76) (length_putAll math tot ph (·.reactivePower))
  have h := h.puts (n := 68) (length_putAll math tot ph (·.pf))
  have h := h.puts (n := 60) (length_putAll math tot ph (·.energyExp))
  have h := h.puts (n := 52) (length_putAll math tot ph (·.energyImp))
  have h := (h.skip (n := 4) (k := 48)).skip (n := 2) (k := 2)
  have h := (h.put (n := 1) 0xffff).put (n := 0) 0
  refine h.full.trans ?_
  unfold image
  simp only [List.append_assoc, List.nil_append, List.cons_append]

/-! ## The map decodes -/

def commonRegs (m : Meter) : List (BitVec 16) :=
  putStr m.manufacturer 32 ++ (putStr m.model 32 ++ (putStr m.options 16 ++ (putStr m.version 16 ++
    (putStr m.serial 32 ++ [BitVec.ofInt 16 m.unitId]))))

def meterRegs (math : Math) (tot : PhaseVals) (ph : Fin 3 → PhaseVals) (frequency : ℚ) : List (BitVec 16) :=
  putAll math tot ph (·.current) ++ (putAll math tot ph (·.voltage) ++ (putAll math tot ph (·.voltagePp) ++
    (putF32 math frequency ++ (putAll math tot ph (·.power) ++ (putAll math tot ph (·.apparentPower) ++
      (putAll math tot ph (·.reactivePower) ++ (putAll math tot ph (·.pf) ++ (putAll math tot ph (·.energyExp) ++
        (putAll math tot ph (·.energyImp) ++ List.replicate 50 0)))))))))

theorem image_eq (math : Math) (m : Meter) (tot : PhaseVals) (ph : Fin 3 → PhaseVals) (frequency : ℚ) :
    image math m tot ph frequency =
      marker ++ (1 :: 65 :: (commonRegs m ++ (213 :: 124 :: (meterRegs math tot ph frequency ++ [0xffff, 0])))) := by
  have hmarker : putStr (some ("SunS".toList.map fun c => BitVec.ofNat 8 c.toNat)) 4 = marker := by decide
  have hrest : List.replicate 50 (0 : BitVec 16) = List.replicate (6 * 4 * 2) 0 ++ List.replicate 2 0 := rfl
  unfold image commonRegs meterRegs
  rw [hmarker, hrest]
  simp only [List.append_assoc, List.cons_append, List.nil_append]

/-- What the points of the phases are taken from. -/
def PhaseVals.point (v : PhaseVals) : Point → ℚ
  | .current => v.current
  | .voltage => v.voltage
  | .voltagePp => v.voltagePp
  | .power => v.power
  | .apparentPower => v.apparentPower
  | .reactivePower => v.reactivePower
  | .pf => v.pf
  | .energyExp => v.energyExp
  | .energyImp => v.energyImp

theorem join_split (x : BitVec 32) : (x >>> 16).setWidth 16 ++ x.setWidth 16 = x := by
  apply BitVec.eq_of_getLsbD_eq
  intro i hi
  rw [BitVec.getLsbD_append]
  by_cases h : i < 16
  · simp [h]
  · simp [h, show i - 16 < 16 by omega, show 16 + (i - 16) = i by omega]

theorem meterRegs_total (math : Math) (tot : PhaseVals) (ph : Fin 3 → PhaseVals) (frequency : ℚ) (p : Point) :
    float (meterRegs math tot ph frequency) p.offset = math.f32 (tot.point p) := by
  cases p <;> exact join_split _

theorem meterRegs_phase (math : Math) (tot : PhaseVals) (ph : Fin 3 → PhaseVals) (frequency : ℚ) (p : Point)
    (i : Fin 3) :
    float (meterRegs math tot ph frequency) (p.offset + 2 + 2 * i) = math.f32 ((ph i).point p) := by
  cases p <;> fin_cases i <;> exact join_split _

theorem field_head {a rest : List (BitVec 16)} {len : Nat} (ha : a.length = len) :
    field (a ++ rest) 0 len = a := by
  unfold field
  rw [List.drop_zero, ← ha, List.take_left]

theorem field_skip {a rest : List (BitVec 16)} {k : Nat} (ha : a.length = k) (n len : Nat) :
    field (a ++ rest) (k + n) len = field rest n len := by
  unfold field
  rw [← ha, List.drop_append, List.drop_eq_nil_of_le (Nat.le_add_right ..), List.nil_append, Nat.add_sub_cancel_left]

theorem commonRegs_fields (m : Meter) :
    field (commonRegs m) 0 16 = putStr m.manufacturer 32 ∧ field (commonRegs m) 16 16 = putStr m.model 32 ∧
      field (commonRegs m) 32 8 = putStr m.options 16 ∧ field (commonRegs m) 40 8 = putStr m.version 16 ∧
      field (commonRegs m) 48 16 = putStr m.serial 32 ∧ (commonRegs m).getD 64 0 = BitVec.ofInt 16 m.unitId := by
  have h1 := length_putStr m.manufacturer 32
  have h2 := length_putStr m.model 32
  have h3 := length_putStr m.options 16
  have h4 := length_putStr m.version 16
  have h5 := length_putStr m.serial 32
  unfold commonRegs
  refine ⟨field_head h1, ?_, ?_, ?_, ?_, ?_⟩
  · exact (field_skip h1 0 16).trans (field_head h2)
  · exact (field_skip h1 16 8).trans ((field_skip h2 0 8).trans (field_head h3))
  · exact (field_skip h1 24 8).trans ((field_skip h2 8 8).trans ((field_skip h3 0 8).trans (field_head h4)))
  · exact (field_skip h1 32 16).trans ((field_skip h2 16 16).trans ((field_skip h3 8 16).trans
      ((field_skip h4 0 16).trans (field_head h5))))
  · rfl

theorem decode_image (math : Math) (m : Meter) (tot : PhaseVals) (ph : Fin 3 → PhaseVals) (frequency : ℚ) :
    decode (image math m tot ph frequency) = some {
      manufacturer := string (putStr m.manufacturer 32)
      model := string (putStr m.model 32)
      options := string (putStr m.options 16)
      version := string (putStr m.version 16)
      serial := string (putStr m.serial 32)
      unitId := (BitVec.ofInt 16 m.unitId).toNat
      total := fun p => math.f32 (tot.point p)
      phase := fun p i => math.f32 ((ph i).point p)
      frequency := math.f32 frequency
      rest := List.replicate 50 0 } := by
  have hcommon : (commonRegs m).length = 65 := by simp [commonRegs, length_putStr]
  have hmeter : (meterRegs math tot ph frequency).length = 124 := rfl
  have hmodels : models ((image math m tot ph frequency).drop 2) =
      some [(1, commonRegs m), (213, meterRegs math tot ph frequency)] := by
    rw [image_eq]
    show models (1 :: 65 :: (commonRegs m ++ _)) = _
    rw [models_cons (by decide) hcommon, models_cons (by decide) hmeter, models_end]
    rfl
  unfold decode
  rw [if_neg, hmodels]
  · dsimp only
    rw [if_pos ⟨rfl, hcommon, rfl, hmeter⟩]
    obtain ⟨h1, h2, h3, h4, h5, h6⟩ := commonRegs_fields m
    have htotal : (fun p : Point => float (meterRegs math tot ph frequency) p.offset) =
        fun p => math.f32 (tot.point p) :=
      funext (meterRegs_total math tot ph frequency)
    have hphase : (fun (p : Point) (i : Fin 3) => float (meterRegs math tot ph frequency) (p.offset + 2 + 2 * i)) =
        fun p i => math.f32 ((ph i).point p) :=
      funext fun p => funext fun i => meterRegs_phase math tot ph frequency p i
    have hfrequency : float (meterRegs math tot ph frequency) frequencyOffset = math.f32 frequency := join_split _
    unfold readMap
    rw [h1, h2, h3, h4, h5, h6, htotal, hphase, hfrequency]
    rfl
  · rw [image_eq]
    simp [marker]

/-! ## What a meter is to show -/

section Shown

-- `value s` is the value of source `s`, if it is configured
variable (math : Math) (value : Src → Option ℚ)

/-- The voltage between two phases that are shifted by 120 degrees. -/
def lineVoltage (i : Fin 3) : Option ℚ := do
  let v₁ ← value (.phase i .voltage)
  let v₂ ← value (.phase (i + 1) .voltage)
  return math.sqrt ((v₁ - v₂ * math.cosShift) ^ 2 + (v₂ * math.sinShift) ^ 2)

def apparentPower (i : Fin 3) : Option ℚ := do
  let v ← value (.phase i .voltage)
  let a ← value (.phase i .current)
  return v * a

def reactivePower (i : Fin 3) : Option ℚ := do
  let s ← apparentPower value i
  let p ← value (.phase i .power)
  return math.sqrt |s ^ 2 - p ^ 2|

/-- 0 for no values. -/
def mean (l : List ℚ) : ℚ := l.sum / l.length

-- the power factor of active and apparent power
variable (powerFactor : ℚ → ℚ → ℚ)

def phaseShown (p : Point) (i : Fin 3) : ℚ :=
  match p with
  | .current => (value (.phase i .current)).getD 0
  | .voltage => (value (.phase i .voltage)).getD 0
  | .voltagePp => (lineVoltage math value i).getD 0
  | .power => (value (.phase i .power)).getD 0
  | .apparentPower => (apparentPower value i).getD 0
  | .reactivePower => (reactivePower math value i).getD 0
  | .pf =>
    (value (.phase i .pf)).getD (powerFactor ((value (.phase i .power)).getD 0) ((apparentPower value i).getD 0))
  | .energyExp => (value (.phase i .energyExp)).getD 0
  | .energyImp => (value (.phase i .energyImp)).getD 0

def sumShown (p : Point) : ℚ := ∑ i, phaseShown math value powerFactor p i

def totalShown (p : Point) : ℚ :=
  match p with
  | .current | .apparentPower | .reactivePower => sumShown math value powerFactor p
  | .voltage => mean ((List.finRange 3).filterMap fun i => value (.phase i .voltage))
  | .voltagePp => mean ((List.finRange 3).filterMap (lineVoltage math value))
  | .power => (value .power).getD (sumShown math value powerFactor .power)
  | .pf =>
    powerFactor ((value .power).getD (sumShown math value powerFactor .power))
      (sumShown math value powerFactor .apparentPower)
  | .energyExp => (value .energyExp).getD (sumShown math value powerFactor .energyExp)
  | .energyImp => (value .energyImp).getD (sumShown math value powerFactor .energyImp)

/-- The map of a meter. -/
def shown (m : Meter) : Map where
  manufacturer := m.manufacturer.getD []
  model := m.model.getD []
  options := m.options.getD []
  version := m.version.getD []
  serial := m.serial.getD []
  unitId := m.unitId.toNat
  total := fun p => math.f32 (totalShown math value powerFactor p)
  phase := fun p i => math.f32 (phaseShown math value powerFactor p i)
  frequency := math.f32 ((value .frequency).getD 0)
  rest := List.replicate 50 0

end Shown

/-- `P / S`, as documented; 0 without apparent power. -/
def documentedPf (p s : ℚ) : ℚ := p / s

/-- `P / S` of a positive apparent power only. -/
def servedPf (p s : ℚ) : ℚ := if 0 < s then p / s else 0

/-! ## What the code computes -/

section Values

-- which sources `src_get` has a value of, and the value
variable (math : Math) (has : Src → Bool) (val : Src → ℚ)

/-- `ph` of `update_image`. -/
def phases (i : Fin 3) : PhaseVals :=
  let ph₀ (i : Fin 3) := phaseVals math (fun q => has (.phase i q)) fun q => val (.phase i q)
  { ph₀ i with
    voltagePp :=
      if has (.phase i .voltage) && has (.phase (i + 1) .voltage) then
        phaseToPhase math (ph₀ i).voltage (ph₀ (i + 1)).voltage
      else 0 }

/-- `tot` of `update_image`. -/
def totals : PhaseVals :=
  let ph := phases math has val
  let hasV (i : Fin 3) : Bool := has (.phase i .voltage)
  let sums : PhaseVals :=
    { current := sumPhases fun i => (ph i).current
      voltage := meanPhases hasV fun i => (ph i).voltage
      voltagePp := meanPhases (fun i => hasV i && hasV (i + 1)) fun i => (ph i).voltagePp
      power := if has .power then val .power else sumPhases fun i => (ph i).power
      apparentPower := sumPhases fun i => (ph i).apparentPower
      reactivePower := sumPhases fun i => (ph i).reactivePower
      energyImp := if has .energyImp then val .energyImp else sumPhases fun i => (ph i).energyImp
      energyExp := if has .energyExp then val .energyExp else sumPhases fun i => (ph i).energyExp }
  { sums with pf := if 0 < sums.apparentPower then sums.power / sums.apparentPower else 0 }

end Values

/-- `update_image`, with the registers as they are written. -/
def updateMapping (math : Math) (m : Meter) (read : Src → ℚ × Bool) : Meter × Int :=
  let has (s : Src) : Bool := (srcGet (m.src s) (read s) 0 none).1
  let val (s : Src) : ℚ := (srcGet (m.src s) (read s) 0 none).2.1
  if (invalidAfter m read Src.all none).isSome then ({ m with unavailable := true }, -1)
  else
    ({ m with
        unavailable := false
        regs := writeImage math m (totals math has val) (phases math has val) (val .frequency) m.regs }, 0)

/-- The registers that are written are the image. -/
theorem updateMapping_eq (math : Math) {m : Meter} (hregs : m.regs.length = mapRegs) (read : Src → ℚ × Bool) :
    updateMapping math m read = updateImage math m read := by
  unfold updateMapping
  dsimp only
  rw [writeImage_eq _ _ _ _ _ hregs]
  rfl

/-! ## The code shows it -/

theorem sumPhases_eq (f : Fin 3 → ℚ) : sumPhases f = ∑ i, f i := by
  rw [Fin.sum_univ_three]
  show 0 + f 0 + f 1 + f 2 = _
  rw [zero_add]

theorem meanPhases_eq (o : Fin 3 → Option ℚ) :
    meanPhases (fun i => (o i).isSome) (fun i => (o i).getD 0) = mean ((List.finRange 3).filterMap o) := by
  have hall : List.finRange 3 = [0, 1, 2] := rfl
  unfold meanPhases mean sumPhases
  rw [hall]
  cases h0 : o 0 <;> cases h1 : o 1 <;> cases h2 : o 2 <;> simp [h0, h1, h2, add_assoc]

section Values

variable (math : Math) (value : Src → Option ℚ)

theorem phases_point (p : Point) (i : Fin 3) :
    (phases math (fun s => (value s).isSome) (fun s => (value s).getD 0) i).point p =
      phaseShown math value servedPf p i := by
  cases p with
  | current | voltage | power | energyExp | energyImp => rfl
  | voltagePp =>
    unfold phases phaseVals PhaseVals.point phaseShown lineVoltage phaseToPhase
    cases h1 : value (.phase i .voltage) <;> cases h2 : value (.phase (i + 1) .voltage) <;> simp [h1, h2, sq]
  | apparentPower =>
    unfold phases phaseVals PhaseVals.point phaseShown apparentPower
    cases h1 : value (.phase i .voltage) <;> cases h2 : value (.phase i .current) <;> simp [h1, h2]
  | reactivePower =>
    unfold phases phaseVals PhaseVals.point phaseShown reactivePower apparentPower
    cases h1 : value (.phase i .voltage) <;> cases h2 : value (.phase i .current) <;>
      cases h3 : value (.phase i .power) <;> simp [h1, h2, h3, sq]
  | pf =>
    unfold phases phaseVals PhaseVals.point phaseShown servedPf apparentPower
    cases h1 : value (.phase i .voltage) <;> cases h2 : value (.phase i .current) <;>
      cases h3 : value (.phase i .pf) <;> simp [h1, h2, h3]

theorem explicit_eq (o : Option ℚ) (sum : ℚ) : (if o.isSome then o.getD 0 else sum) = o.getD sum := by
  cases o <;> rfl

theorem totals_point (p : Point) :
    (totals math (fun s => (value s).isSome) (fun s => (value s).getD 0)).point p =
      totalShown math value servedPf p := by
  have hsum : ∀ p, (sumPhases fun i =>
      (phases math (fun s => (value s).isSome) (fun s => (value s).getD 0) i).point p) =
      sumShown math value servedPf p := by
    intro p
    rw [sumPhases_eq]
    exact Finset.sum_congr rfl fun i _ => phases_point math value p i
  have hpower := (explicit_eq (value .power) _).trans (congrArg _ (hsum .power))
  cases p with
  | current => exact hsum .current
  | apparentPower => exact hsum .apparentPower
  | reactivePower => exact hsum .reactivePower
  | power => exact hpower
  | energyExp => exact (explicit_eq (value .energyExp) _).trans (congrArg _ (hsum .energyExp))
  | energyImp => exact (explicit_eq (value .energyImp) _).trans (congrArg _ (hsum .energyImp))
  | voltage => exact meanPhases_eq fun i => value (.phase i .voltage)
  | voltagePp =>
    have hhas : ∀ i : Fin 3, ((value (.phase i .voltage)).isSome && (value (.phase (i + 1) .voltage)).isSome) =
        (lineVoltage math value i).isSome := by
      intro i
      unfold lineVoltage
      cases h1 : value (.phase i .voltage) <;> cases h2 : value (.phase (i + 1) .voltage) <;> simp
    have hval := funext (phases_point math value .voltagePp)
    show meanPhases (fun i => (value (.phase i .voltage)).isSome && (value (.phase (i + 1) .voltage)).isSome)
      (fun i => (phases math (fun s => (value s).isSome) (fun s => (value s).getD 0) i).point .voltagePp) = _
    rw [hval, funext hhas]
    exact meanPhases_eq (lineVoltage math value)
  | pf => exact congrArg₂ servedPf hpower (hsum .apparentPower)

end Values

/-! ## Main result -/

def Meter.value (m : Meter) (read : Src → ℚ × Bool) (s : Src) : Option ℚ := (m.src s).map fun _ => (read s).1

def Meter.CStrings (m : Meter) : Prop :=
  ∀ s ∈ [m.manufacturer, m.model, m.options, m.version, m.serial], 0 ∉ s.getD []

instance : DecidablePred Meter.CStrings := fun m => inferInstanceAs
  (Decidable (∀ s ∈ [m.manufacturer, m.model, m.options, m.version, m.serial], 0 ∉ s.getD []))

theorem srcGet_value {m : Meter} {read : Src → ℚ × Bool} {s : Src} (h : (m.src s).isSome = true → (read s).2 = true) :
    srcGet (m.src s) (read s) 0 none = ((m.value read s).isSome, (m.value read s).getD 0, none) := by
  unfold srcGet Meter.value
  cases hs : m.src s with
  | none => rfl
  | some name =>
    have := h (by simp [hs])
    simp [this]

theorem updateMapping_valid (math : Math) {m : Meter} {read : Src → ℚ × Bool}
    (hvalid : ∀ s, (m.src s).isSome = true → (read s).2 = true) :
    updateMapping math m read = ({ m with
      unavailable := false
      regs := writeImage math m (totals math (fun s => (m.value read s).isSome) fun s => (m.value read s).getD 0)
        (phases math (fun s => (m.value read s).isSome) fun s => (m.value read s).getD 0)
        ((m.value read .frequency).getD 0) m.regs }, 0) := by
  have hnone : ¬ (invalidAfter m read Src.all none).isSome = true := by
    rw [invalidAfter_isSome]
    rintro (h | ⟨s, -, hs, hr⟩)
    · cases h
    · rw [hvalid s hs] at hr
      cases hr
  unfold updateMapping
  dsimp only
  rw [if_neg hnone]
  simp only [fun s => srcGet_value (hvalid s)]

theorem updateMapping_regs (math : Math) {m : Meter} (hregs : m.regs.length = mapRegs) {read : Src → ℚ × Bool}
    (hvalid : ∀ s, (m.src s).isSome = true → (read s).2 = true) :
    (updateMapping math m read).1.regs =
      image math m (totals math (fun s => (m.value read s).isSome) fun s => (m.value read s).getD 0)
        (phases math (fun s => (m.value read s).isSome) fun s => (m.value read s).getD 0)
        ((m.value read .frequency).getD 0) := by
  rw [updateMapping_valid math hvalid]
  dsimp only
  rw [writeImage_eq math m _ _ _ hregs]

theorem length_image (math : Math) (m : Meter) (tot : PhaseVals) (ph : Fin 3 → PhaseVals) (frequency : ℚ) :
    (image math m tot ph frequency).length = mapRegs := by
  have hcommon : (commonRegs m).length = 65 := by simp [commonRegs, length_putStr]
  have hmeter : (meterRegs math tot ph frequency).length = 124 := rfl
  rw [image_eq]
  simp only [List.length_append, List.length_cons, List.length_nil, hcommon, hmeter, marker, mapRegs]

theorem strings_shown {m : Meter} (hm : meterConfigure m = true) (hstr : m.CStrings) :
    string (putStr m.manufacturer 32) = m.manufacturer.getD [] ∧ string (putStr m.model 32) = m.model.getD [] ∧
      string (putStr m.options 16) = m.options.getD [] ∧ string (putStr m.version 16) = m.version.getD [] ∧
      string (putStr m.serial 32) = m.serial.getD [] := by
  have hlen : ∀ {n : Nat} {s : Option Bytes}, strConfigure n s = true → (s.getD []).length ≤ n := by
    intro n s h
    cases s with
    | none => exact Nat.zero_le n
    | some b => simpa [strConfigure] using h
  simp only [meterConfigure, Bool.and_eq_true] at hm
  obtain ⟨⟨⟨⟨⟨-, h1⟩, h2⟩, h3⟩, h4⟩, h5⟩ := hm
  exact ⟨string_putStr rfl (hlen h1) (hstr _ (by simp)), string_putStr rfl (hlen h2) (hstr _ (by simp)),
    string_putStr rfl (hlen h3) (hstr _ (by simp)), string_putStr rfl (hlen h4) (hstr _ (by simp)),
    string_putStr rfl (hlen h5) (hstr _ (by simp))⟩

theorem unitId_shown {m : Meter} (hm : meterConfigure m = true) :
    (BitVec.ofInt 16 m.unitId).toNat = m.unitId.toNat := by
  simp only [meterConfigure, Bool.and_eq_true, decide_eq_true_eq] at hm
  obtain ⟨⟨⟨⟨⟨hid, -⟩, -⟩, -⟩, -⟩, -⟩ := hm
  rw [BitVec.toNat_ofInt]
  omega

/-- Right where it is used: the root of 0, and no second phase. -/
def exampleMath : Math := { sqrt := fun _ => 0, cosShift := -1 / 2, sinShift := 866 / 1000, f32 := Mb.toF32 }

def exampleMeter : Meter where
  name := "m"
  unitId := 5
  manufacturer := some ("modusoft".toList.map fun c => BitVec.ofNat 8 c.toNat)
  src := fun s =>
    match s with
    | .phase 0 .voltage => some "u"
    | .phase 0 .current => some "i"
    | .phase 0 .power => some "p"
    | _ => none

def exampleRead (current : ℚ) (s : Src) : ℚ × Bool :=
  match s with
  | .phase _ .current => (current, true)
  | _ => (230, true)

end Uvrgw.Sunspec
