import Uvrgw.Lib.Bytes
import Uvrgw.Lib.Lists
import Uvrgw.Number

/-!
# CAN interfaces (`can.c`)

Configuration, and encoding of output values into the data bytes of a frame.
-/

namespace Uvrgw.Can

open Uvrgw.Lib

/-- `UVRGW_CONF_CAN_TYPE_*`. -/
inductive ValType where
  | bit
  | u8
  | s8
  | u16
  | s16
  | u32
  | s32
  deriving DecidableEq, Repr

/-! ## Configuration -/

structure ValueConf where
  title : String
  type : Option ValType := none
  pos : Int := -1
  scale : ℚ := 1
  offset : ℚ := 0
  deriving DecidableEq, Repr

structure FrameConf where
  canId : Int := -1
  dir : Option Dir := none
  values : List ValueConf := []
  deriving DecidableEq, Repr

structure IfaceConf where
  interface : Option String := none
  timestampPeriod : Int := 0
  sendTimeout : Int := 1000
  frames : List FrameConf := []
  deriving DecidableEq, Repr

structure CanVal where
  name : String
  type : ValType
  pos : Int
  scale : ℚ
  offset : ℚ
  deriving DecidableEq, Repr

/-- The configured part of `CAN_FRAME_T`. -/
structure CanFrame where
  canId : Int
  dir : Dir
  values : List CanVal
  minDlc : Int
  deriving DecidableEq, Repr

/-- The configured part of `CAN_IFACE_T`. -/
structure Iface where
  interface : String
  timestampPeriod : Int
  sendTimeout : Int
  frames : List CanFrame
  deriving DecidableEq, Repr

def ValType.len : ValType → Nat
  | bit | u8 | s8 => 1
  | u16 | s16 => 2
  | u32 | s32 => 4

/-- The data bytes that a value needs, if `value_configure` takes its position. -/
def valueLen (type : ValType) (pos : Int) : Option Int :=
  match type with
  | .bit => if 8 ≤ pos / 8 then none else some (pos / 8 + 1)
  | type => if 8 < addInt pos type.len then none else some (addInt pos type.len)

/-- `value_configure`: the value and the new `min_dlc` of the frame. -/
def valueConfigure (dir : Dir) (minDlc : Int) (cfg : ValueConf) : Option (CanVal × Int) := do
  guard (0 ≤ cfg.pos)
  let type ← cfg.type
  let len ← valueLen type cfg.pos
  guard (¬ (dir = .output ∧ cfg.scale = 0))
  return ({
    name := cfg.title
    type := type
    pos := cfg.pos
    scale := cfg.scale
    offset := cfg.offset }, if minDlc < len then len else minDlc)

def valuesConfigure (dir : Dir) : Int → List ValueConf → Option (List CanVal × Int)
  | minDlc, [] => some ([], minDlc)
  | minDlc, cfg :: cfgs => do
    let (v, minDlc) ← valueConfigure dir minDlc cfg
    let (vs, minDlc) ← valuesConfigure dir minDlc cfgs
    return (v :: vs, minDlc)

def frameConfigure (cfg : FrameConf) : Option CanFrame := do
  guard (0 ≤ cfg.canId ∧ cfg.canId ≤ 0x7ff)
  let dir ← cfg.dir
  let (values, minDlc) ← valuesConfigure dir 0 cfg.values
  return { canId := cfg.canId, dir := dir, values := values, minDlc := minDlc }

def ifaceConfigure (cfg : IfaceConf) : Option Iface := do
  let interface ← cfg.interface
  let frames ← cfg.frames.mapM frameConfigure
  return {
    interface := interface
    timestampPeriod := cfg.timestampPeriod
    sendTimeout := cfg.sendTimeout
    frames := frames }

/-! ## Encoding -/

def ValType.range : ValType → Int × Int
  | bit => (0, 1)
  | u8 => (0, 2 ^ 8 - 1)
  | s8 => (-2 ^ 7, 2 ^ 7 - 1)
  | u16 => (0, 2 ^ 16 - 1)
  | s16 => (-2 ^ 15, 2 ^ 15 - 1)
  | u32 => (0, 2 ^ 32 - 1)
  | s32 => (-2 ^ 31, 2 ^ 31 - 1)

def CanVal.raw (v : CanVal) (f : ℚ) : BitVec 32 :=
  BitVec.ofInt 32 (utlValLimit (cRound ((f - v.offset) / v.scale)) v.type.range.1 v.type.range.2)

def writeValue (data : List (BitVec 8)) (p len : Nat) (val : BitVec 32) : List (BitVec 8) :=
  writeLE data p len val

/-- What `send_value` does to the data bytes. -/
def CanVal.encode (v : CanVal) (f : ℚ) (data : List (BitVec 8)) : List (BitVec 8) :=
  match v.type with
  | .bit => setBitAt data v.pos.toNat (1 / 2 < f)
  | type => writeValue data v.pos.toNat type.len (v.raw f)

/-! ## The bits of a value -/

def CanVal.InFrame (v : CanVal) : Prop :=
  0 ≤ v.pos ∧ match v.type with
    | .bit => v.pos < 64
    | type => v.pos + type.len ≤ 8

def CanVal.Covers (v : CanVal) (k : Nat) : Prop :=
  match v.type with
  | .bit => k = v.pos.toNat
  | type => 8 * v.pos.toNat ≤ k ∧ k < 8 * (v.pos.toNat + type.len)

/-- Bit `k` of the frame for the number `f`. -/
def CanVal.bitFor (v : CanVal) (f : ℚ) (k : Nat) : Bool :=
  match v.type with
  | .bit => 1 / 2 < f
  | _ => (v.raw f).getLsbD (k - 8 * v.pos.toNat)

instance : ∀ v : CanVal, Decidable v.InFrame
  | ⟨_, .bit, pos, _, _⟩ => inferInstanceAs (Decidable (0 ≤ pos ∧ pos < 64))
  | ⟨_, .u8, pos, _, _⟩ | ⟨_, .s8, pos, _, _⟩ => inferInstanceAs (Decidable (0 ≤ pos ∧ pos + 1 ≤ 8))
  | ⟨_, .u16, pos, _, _⟩ | ⟨_, .s16, pos, _, _⟩ => inferInstanceAs (Decidable (0 ≤ pos ∧ pos + 2 ≤ 8))
  | ⟨_, .u32, pos, _, _⟩ | ⟨_, .s32, pos, _, _⟩ => inferInstanceAs (Decidable (0 ≤ pos ∧ pos + 4 ≤ 8))

instance (v : CanVal) (k : Nat) : Decidable (v.Covers k) :=
  match v with
  | ⟨_, .bit, pos, _, _⟩ => inferInstanceAs (Decidable (k = pos.toNat))
  | ⟨_, .u8, pos, _, _⟩ | ⟨_, .s8, pos, _, _⟩ =>
    inferInstanceAs (Decidable (8 * pos.toNat ≤ k ∧ k < 8 * (pos.toNat + 1)))
  | ⟨_, .u16, pos, _, _⟩ | ⟨_, .s16, pos, _, _⟩ =>
    inferInstanceAs (Decidable (8 * pos.toNat ≤ k ∧ k < 8 * (pos.toNat + 2)))
  | ⟨_, .u32, pos, _, _⟩ | ⟨_, .s32, pos, _, _⟩ =>
    inferInstanceAs (Decidable (8 * pos.toNat ≤ k ∧ k < 8 * (pos.toNat + 4)))

theorem length_encode (v : CanVal) (f : ℚ) (data : List (BitVec 8)) : (v.encode f data).length = data.length := by
  unfold CanVal.encode
  split
  · exact length_setBitAt ..
  · exact length_writeLE ..

theorem bitAt_encode {v : CanVal} (hv : v.InFrame) (f : ℚ) {data : List (BitVec 8)} (hlen : data.length = 8)
    (k : Nat) : bitAt (v.encode f data) k = if v.Covers k then v.bitFor f k else bitAt data k := by
  obtain ⟨hpos, hin⟩ := hv
  obtain ⟨name, type, pos, scale, offset⟩ := v
  cases type with
  | bit =>
    dsimp only at hin
    exact bitAt_setBitAt _ k (by dsimp only; omega)
  | _ =>
    dsimp only [ValType.len] at hin
    exact bitAt_writeLE _ k (by dsimp only [ValType.len]; omega)

/-- The check of the position keeps a value within the frame unless its `int` sum wraps around. -/
theorem valueConfigure_inFrame {dir : Dir} {minDlc minDlc' : Int} {cfg : ValueConf} {v : CanVal}
    (h : valueConfigure dir minDlc cfg = some (v, minDlc')) (hpos : cfg.pos < 2 ^ 31 - 4) : v.InFrame := by
  simp only [valueConfigure, Option.bind_eq_bind, Option.bind_eq_some_iff, Option.pure_def,
    Option.guard_eq_some', Option.some.injEq, Prod.mk.injEq] at h
  obtain ⟨-, h0, type, -, len, hlen, -, -, rfl, -⟩ := h
  have hsum : ∀ t : ValType, addInt cfg.pos t.len = cfg.pos + t.len := by
    intro t
    have hlen4 : t.len ≤ 4 := by cases t <;> decide
    exact addInt_eq (by omega) (by omega)
  refine ⟨h0, ?_⟩
  cases type with
  | bit =>
    simp only [valueLen, Option.ite_none_left_eq_some] at hlen
    dsimp only
    omega
  | _ =>
    simp only [valueLen, hsum, Option.ite_none_left_eq_some] at hlen
    dsimp only
    omega

theorem valuesConfigure_mem {dir : Dir} {minDlc minDlc' : Int} {cfgs : List ValueConf} {vs : List CanVal}
    (h : valuesConfigure dir minDlc cfgs = some (vs, minDlc')) {v : CanVal} (hv : v ∈ vs) :
    ∃ cfg ∈ cfgs, ∃ min min', valueConfigure dir min cfg = some (v, min') := by
  induction cfgs generalizing minDlc vs with
  | nil =>
    simp only [valuesConfigure, Option.some.injEq, Prod.mk.injEq] at h
    obtain ⟨rfl, -⟩ := h
    cases hv
  | cons cfg cfgs ih =>
    simp only [valuesConfigure, Option.bind_eq_bind, Option.bind_eq_some_iff, Option.pure_def,
      Option.some.injEq, Prod.mk.injEq] at h
    obtain ⟨⟨w, min⟩, hw, ⟨ws, min'⟩, hws, rfl, rfl⟩ := h
    rcases List.mem_cons.mp hv with rfl | hv
    · exact ⟨cfg, List.mem_cons_self, _, _, hw⟩
    · obtain ⟨cfg', hcfg', hex⟩ := ih hws hv
      exact ⟨cfg', List.mem_cons_of_mem _ hcfg', hex⟩

/-- The check of a bit has no sum that could wrap around. -/
theorem valueConfigure_bit {dir : Dir} {minDlc minDlc' : Int} {cfg : ValueConf} {v : CanVal}
    (h : valueConfigure dir minDlc cfg = some (v, minDlc')) (htype : v.type = .bit) : v.InFrame := by
  simp only [valueConfigure, Option.bind_eq_bind, Option.bind_eq_some_iff, Option.pure_def,
    Option.guard_eq_some', Option.some.injEq, Prod.mk.injEq] at h
  obtain ⟨-, h0, type, -, len, hlen, -, -, rfl, -⟩ := h
  dsimp only at htype
  subst htype
  simp only [valueLen, Option.ite_none_left_eq_some] at hlen
  exact ⟨h0, by dsimp only; omega⟩

theorem ifaceConfigure_value {cfg : IfaceConf} {iface : Iface} (h : ifaceConfigure cfg = some iface)
    {frame : CanFrame} (hframe : frame ∈ iface.frames) {v : CanVal} (hv : v ∈ frame.values) :
    ∃ cfg min min', valueConfigure frame.dir min cfg = some (v, min') := by
  simp only [ifaceConfigure, Option.bind_eq_bind, Option.bind_eq_some_iff, Option.pure_def, Option.some.injEq] at h
  obtain ⟨interface, -, frames, hframes, rfl⟩ := h
  obtain ⟨i, hi⟩ := List.mem_iff_getElem?.mp hframe
  obtain ⟨cfg', -, hconf⟩ := getElem?_mapM hframes hi
  simp only [frameConfigure, Option.bind_eq_bind, Option.bind_eq_some_iff, Option.pure_def,
    Option.guard_eq_some', Option.some.injEq] at hconf
  obtain ⟨-, -, dir, -, ⟨values, minDlc⟩, hvalues, rfl⟩ := hconf
  obtain ⟨cfg'', -, hex⟩ := valuesConfigure_mem hvalues hv
  exact ⟨cfg'', hex⟩

end Uvrgw.Can
