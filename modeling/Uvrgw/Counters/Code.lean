import Mathlib.Data.Rat.Cast.Order
import Mathlib.Tactic.FieldSimp
import Mathlib.Tactic.Linarith
import Mathlib.Tactic.Ring
import Uvrgw.Lib.Lists

/-!
# Energy counters (`counter.c`)

Numbers are exact rationals. The functions are called with the lock of the counter held.
-/

namespace Uvrgw.Counters

/-- `UVRGW_CONF_COUNTER_SIGN_*`. -/
inductive Sign where
  | positive
  | negative
  deriving DecidableEq, Repr

def Sign.factor : Sign → ℚ
  | positive => 1
  | negative => -1

structure Counter where
  name : String
  source : String
  integratePower : Bool := false
  maxPower : ℚ := 0
  scale : ℚ := 1
  sign : Sign := .positive
  disabled : Bool := false
  initialized : Bool := false
  accum : ℚ := 0
  lastRead : ℚ := 0
  dirty : Bool := false
  hasChange : Bool := false
  changeTs : Int := 0
  hasPower : Bool := false
  power : ℚ := 0
  integratedTs : Int := 0
  deriving DecidableEq, Repr

/-! ## Configuration -/

structure CounterConf where
  title : String
  source : Option String := none
  integratePower : Bool := false
  maxPower : ℚ := 0
  scale : ℚ := 1
  sign : Sign := .positive
  deriving DecidableEq, Repr

def validName (name : String) : Bool :=
  match name.toList with
  | [] => false
  | c :: rest => c ≠ '.' && (c :: rest).all fun c =>
      ('A' ≤ c && c ≤ 'Z') || ('a' ≤ c && c ≤ 'z') || ('0' ≤ c && c ≤ '9') || c == '_' || c == '.' || c == '-'

/-- `counter_configure_one`, without the registrations. -/
def counterConfigureOne (cfg : CounterConf) : Option Counter := do
  guard (validName cfg.title)
  let source ← cfg.source
  guard (cfg.title ≠ source)
  guard (0 < cfg.scale)
  if cfg.integratePower then
    guard (cfg.maxPower = 0)
  else
    guard (¬ cfg.maxPower < 0)
    guard (cfg.sign = .positive)
  return {
    name := cfg.title
    source := source
    integratePower := cfg.integratePower
    maxPower := cfg.maxPower
    scale := cfg.scale
    sign := cfg.sign }

def findCounter (counters : List Counter) (name : String) : Option Counter :=
  counters.find? (·.name = name)

/-- `counter_configure`, without the registrations. -/
def counterConfigure (cfgs : List CounterConf) : Option (List Counter) := do
  let counters ← cfgs.mapM counterConfigureOne
  guard (counters.all fun c => (findCounter counters c.source).isNone)
  return counters

/-- A configured counter before its start. -/
structure Fresh (c : Counter) : Prop where
  names : c.name ≠ c.source
  enabled : c.disabled = false
  initialized : c.initialized = false
  accum : c.accum = 0
  lastRead : c.lastRead = 0
  change : c.hasChange = false
  power : c.hasPower = false

theorem counterConfigureOne_eq {cfg : CounterConf} {c : Counter} (h : counterConfigureOne cfg = some c) :
    ∃ source, cfg.title ≠ source ∧ c = {
      name := cfg.title
      source := source
      integratePower := cfg.integratePower
      maxPower := cfg.maxPower
      scale := cfg.scale
      sign := cfg.sign } := by
  simp only [counterConfigureOne, Option.pure_def, Option.bind_eq_bind, Option.bind_eq_some_iff,
    Option.guard_eq_some'] at h
  obtain ⟨-, -, source, -, -, hne, -, -, h⟩ := h
  refine ⟨source, hne, ?_⟩
  split at h <;> simp only [Option.bind_eq_some_iff, Option.guard_eq_some', Option.some.injEq] at h
  · obtain ⟨-, -, rfl⟩ := h
    rfl
  · obtain ⟨-, -, -, -, rfl⟩ := h
    rfl

theorem counterConfigureOne_spec {cfg : CounterConf} {c : Counter} (h : counterConfigureOne cfg = some c) :
    Fresh c := by
  obtain ⟨source, hne, rfl⟩ := counterConfigureOne_eq h
  exact ⟨hne, rfl, rfl, rfl, rfl, rfl, rfl⟩

theorem counterConfigureOne_clean {cfg : CounterConf} {c : Counter} (h : counterConfigureOne cfg = some c) :
    c.dirty = false := by
  obtain ⟨source, -, rfl⟩ := counterConfigureOne_eq h
  rfl

theorem mem_counterConfigure {cfgs : List CounterConf} {counters : List Counter}
    (h : counterConfigure cfgs = some counters) {c : Counter} (hc : c ∈ counters) :
    ∃ cfg ∈ cfgs, counterConfigureOne cfg = some c := by
  simp only [counterConfigure, Option.pure_def, Option.bind_eq_bind, Option.bind_eq_some_iff,
    Option.guard_eq_some', Option.some.injEq] at h
  obtain ⟨cs, hcs, -, -, rfl⟩ := h
  exact Lib.mem_of_mapM hcs hc

/-! ## Device counters -/

/-- The messages of `device_update`. -/
inductive Notice where
  | resetDetected (last raw : ℚ)
  | implausible (last raw : ℚ)
  deriving DecidableEq, Repr

/-- `device_update`: the counter, the return value and the messages. -/
def deviceUpdate (c : Counter) (raw : ℚ) (now : Int) : Counter × Bool × List Notice :=
  if raw < 0 then (c, false, [])
  else if !c.initialized then
    ({ c with
        accum := raw
        lastRead := raw
        initialized := true
        dirty := true
        hasChange := true
        changeTs := now }, true, [])
  else if raw = c.lastRead then (c, true, [])
  else
    let (delta, notices) :=
      if raw < c.lastRead then (raw, [Notice.resetDetected c.lastRead raw]) else (raw - c.lastRead, [])
    let (delta, notices) :=
      if 0 < c.maxPower ∧ c.hasChange ∧ c.maxPower * (now - c.changeTs : ℤ) / 3600000 < delta then
        (0, notices ++ [Notice.implausible c.lastRead raw])
      else (delta, notices)
    ({ c with
        accum := c.accum + delta
        lastRead := raw
        dirty := true
        hasChange := true
        changeTs := now }, true, notices)

/-- The increase that a later reading means. -/
def Counter.increase (c : Counter) (raw : ℚ) : ℚ := if raw < c.lastRead then raw else raw - c.lastRead

theorem increase_nonneg {c : Counter} {raw : ℚ} (h : 0 ≤ raw) : 0 ≤ c.increase raw := by
  unfold Counter.increase
  split
  · exact h
  · rename_i hlt
    exact sub_nonneg.mpr (not_lt.mp hlt)

/-- The plausibility check of `device_update`. -/
def Counter.glitch (c : Counter) (raw : ℚ) (now : Int) : Prop :=
  0 < c.maxPower ∧ c.hasChange ∧ c.maxPower * (now - c.changeTs : ℤ) / 3600000 < c.increase raw

instance (c : Counter) (raw : ℚ) (now : Int) : Decidable (c.glitch raw now) := by
  unfold Counter.glitch
  infer_instance

theorem deviceUpdate_same {c : Counter} (now : Int) (hi : c.initialized = true) (h0 : 0 ≤ c.lastRead) :
    deviceUpdate c c.lastRead now = (c, true, []) := by
  simp [deviceUpdate, hi, not_lt.mpr h0]

theorem deviceUpdate_change {c : Counter} {raw : ℚ} (now : Int) (hi : c.initialized = true) (h0 : 0 ≤ raw)
    (hne : raw ≠ c.lastRead) :
    deviceUpdate c raw now =
      ({ c with
          accum := c.accum + if c.glitch raw now then 0 else c.increase raw
          lastRead := raw
          dirty := true
          hasChange := true
          changeTs := now }, true,
        (if raw < c.lastRead then [Notice.resetDetected c.lastRead raw] else []) ++
          if c.glitch raw now then [Notice.implausible c.lastRead raw] else []) := by
  unfold deviceUpdate Counter.glitch Counter.increase
  rw [if_neg (not_lt.mpr h0), hi, if_neg (by simp), if_neg hne]
  by_cases hr : raw < c.lastRead
  · simp only [hr, if_true]
    split_ifs <;> simp
  · simp only [hr, if_false]
    split_ifs <;> simp

theorem deviceUpdate_forward {c : Counter} {raw : ℚ} (now : Int) (hi : c.initialized = true)
    (hc : c.hasChange = false) (h0 : 0 ≤ c.lastRead) (hle : c.lastRead ≤ raw) :
    (deviceUpdate c raw now).1.accum = c.accum + (raw - c.lastRead) ∧ (deviceUpdate c raw now).2.2 = [] := by
  by_cases heq : raw = c.lastRead
  · rw [heq, deviceUpdate_same now hi h0]
    simp
  · have hglitch : ¬ c.glitch raw now := by
      unfold Counter.glitch
      simp [hc]
    rw [deviceUpdate_change now hi (h0.trans hle) heq, if_neg hglitch, if_neg hglitch,
      if_neg (not_lt.mpr hle)]
    unfold Counter.increase
    rw [if_neg (not_lt.mpr hle)]
    exact ⟨rfl, rfl⟩

/-! ## Power integration -/

def integrate (c : Counter) (now : Int) : Counter :=
  if c.hasPower then
    if c.integratedTs < now then
      let power := c.power * c.sign.factor
      if 0 < power then
        { c with
          accum := c.accum + power * (now - c.integratedTs : ℤ) / 3600000
          dirty := true
          integratedTs := now }
      else { c with integratedTs := now }
    else c
  else c

/-- The power that `integrate` counts. -/
def Counter.counted (c : Counter) : ℚ := max 0 (c.power * c.sign.factor)

theorem counted_nonneg (c : Counter) : 0 ≤ c.counted := le_max_left ..

theorem integrate_idle {c : Counter} (now : Int) (h : c.hasPower = false) : integrate c now = c := by
  simp [integrate, h]

theorem integrate_late {c : Counter} {now : Int} (h : now ≤ c.integratedTs) : integrate c now = c := by
  unfold integrate
  split
  · rw [if_neg (by omega)]
  · rfl

theorem integrate_due {c : Counter} {now : Int} (hp : c.hasPower = true) (h : c.integratedTs < now) :
    integrate c now =
      { c with
        accum := c.accum + c.counted * (now - c.integratedTs : ℤ) / 3600000
        dirty := c.dirty || decide (0 < c.counted)
        integratedTs := now } := by
  unfold integrate Counter.counted
  rw [if_pos hp, if_pos h]
  by_cases hc : 0 < c.power * c.sign.factor
  · simp [hc, max_eq_right hc.le]
  · simp [hc, max_eq_left (not_lt.mp hc)]

theorem integrate_keeps (c : Counter) (now : Int) :
    (integrate c now).hasPower = c.hasPower ∧ (integrate c now).integratePower = c.integratePower ∧
      (integrate c now).initialized = c.initialized ∧ (integrate c now).disabled = c.disabled ∧
      (integrate c now).counted = c.counted := by
  cases hp : c.hasPower with
  | false => simp [integrate_idle now hp, hp]
  | true =>
    by_cases h : c.integratedTs < now
    · rw [integrate_due hp h]
      exact ⟨hp, rfl, rfl, rfl, rfl⟩
    · simp [integrate_late (not_lt.mp h), hp]

def powerUpdate (c : Counter) (power : ℚ) (now : Int) : Counter :=
  let c :=
    if c.initialized then c
    else { c with accum := 0, lastRead := 0, initialized := true, dirty := true }
  { integrate c now with hasPower := true, power := power, integratedTs := now }

def powerStop (c : Counter) (now : Int) : Counter := { integrate c now with hasPower := false }

/-! ## Updates -/

/-- `source_update`: the counter, the total that is dispatched, and the messages. -/
def sourceUpdate (c : Counter) (f : ℚ) (valid : Bool) (now : Int) : Counter × Option ℚ × List Notice :=
  let f := f * c.scale
  if c.disabled then (c, none, [])
  else
    let (c, ok, notices) :=
      if !valid then (if c.integratePower then powerStop c now else c, false, [])
      else if c.integratePower then (powerUpdate c f now, true, [])
      else deviceUpdate c f now
    (c, if ok ∧ c.initialized then some c.accum else none, notices)

/-- What `counter_thread` does for one counter in a tick. -/
def tick (c : Counter) (now : Int) : Counter × Option ℚ :=
  if c.integratePower then
    if !c.disabled && c.initialized then
      let c := integrate c now
      (c, some c.accum)
    else (c, none)
  else (c, none)

/-- What `counter_publish` does for one counter. -/
def publish (c : Counter) : Option ℚ := if !c.disabled && c.initialized then some c.accum else none

end Uvrgw.Counters
