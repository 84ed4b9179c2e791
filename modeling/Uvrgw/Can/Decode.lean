import Mathlib.Tactic.FieldSimp
import Uvrgw.Can.Code

/-!
# Receiving CAN frames (`can.c`)

`iface_rx_handler`, and what `send_value` makes of the numbers that it dispatches.
-/

namespace Uvrgw.Can

open Uvrgw.Lib

/-! ## Decoding -/

def readValue (data : List (BitVec 8)) (p len : Nat) : BitVec 32 := readLE 32 data p len

/-- The integer that the bytes of a type other than `bit` stand for. -/
def ValType.number : ValType → BitVec 32 → Int
  | s8, b => (b.setWidth 8).toInt
  | s16, b => (b.setWidth 16).toInt
  | s32, b => b.toInt
  | _, b => b.toNat

/-- The number in the data bytes, before scale and offset. -/
def CanVal.read (v : CanVal) (data : List (BitVec 8)) : Int :=
  match v.type with
  | .bit => if bitAt data v.pos.toNat then 1 else 0
  | type => type.number (readValue data v.pos.toNat type.len)

def CanVal.decode (v : CanVal) (data : List (BitVec 8)) : ℚ := v.read data * v.scale + v.offset

/-- `struct can_frame`, as it is received. -/
structure RxFrame where
  canId : BitVec 32
  dlc : Int
  data : List (BitVec 8)
  length_data : data.length = 8

/-- `CAN_EFF_FLAG | CAN_RTR_FLAG | CAN_ERR_FLAG`. -/
def notStd : BitVec 32 := 0xe0000000#32

/-- The values that a configured frame takes from a received one. -/
def CanFrame.receive (frame : CanFrame) (rcvd : RxFrame) : List (CanVal × ℚ) :=
  if frame.dir ≠ .input then []
  else if rcvd.canId &&& 0x7ff#32 ≠ BitVec.ofInt 32 frame.canId then []
  else if rcvd.dlc < frame.minDlc then []
  else frame.values.map fun v => (v, v.decode rcvd.data)

/-- `iface_rx_handler`: the values that are dispatched, in order. -/
def ifaceRxHandler (iface : Iface) (rcvd : RxFrame) : List (CanVal × ℚ) :=
  if rcvd.canId &&& notStd ≠ 0 then [] else iface.frames.flatMap (·.receive rcvd)

theorem ifaceRxHandler_decode {iface : Iface} {rcvd : RxFrame} {v : CanVal} {x : ℚ}
    (h : (v, x) ∈ ifaceRxHandler iface rcvd) : x = v.decode rcvd.data := by
  unfold ifaceRxHandler at h
  split at h
  · cases h
  · obtain ⟨frame, -, h⟩ := List.mem_flatMap.mp h
    unfold CanFrame.receive at h
    split_ifs at h
    · cases h
    · cases h
    · cases h
    · obtain ⟨w, -, heq⟩ := List.mem_map.mp h
      cases heq
      rfl

/-! ## The way back -/

theorem number_range {type : ValType} (hbit : type ≠ .bit) {b : BitVec 32} (hb : b.toNat < 2 ^ (8 * type.len)) :
    type.range.1 ≤ type.number b ∧ type.number b ≤ type.range.2 := by
  cases type with
  | bit => exact absurd rfl hbit
  | u8 | u16 | u32 =>
    simp only [ValType.len] at hb
    simp only [ValType.range, ValType.number]
    omega
  | s8 =>
    have hlo := BitVec.le_toInt (b.setWidth 8)
    have hhi := BitVec.toInt_lt (x := b.setWidth 8)
    simp only [ValType.range, ValType.number]
    omega
  | s16 =>
    have hlo := BitVec.le_toInt (b.setWidth 16)
    have hhi := BitVec.toInt_lt (x := b.setWidth 16)
    simp only [ValType.range, ValType.number]
    omega
  | s32 =>
    have hlo := BitVec.le_toInt b
    have hhi := BitVec.toInt_lt (x := b)
    simp only [ValType.range, ValType.number]
    omega

theorem getLsbD_number {type : ValType} (hbit : type ≠ .bit) (b : BitVec 32) {k : Nat} (hk : k < 8 * type.len) :
    (BitVec.ofInt 32 (type.number b)).getLsbD k = b.getLsbD k := by
  cases type with
  | bit => exact absurd rfl hbit
  | u8 | u16 | u32 => simp [ValType.number]
  | s8 =>
    simp only [ValType.len] at hk
    have : BitVec.ofInt 32 (b.setWidth 8).toInt = (b.setWidth 8).signExtend 32 := rfl
    simp only [ValType.number, this, BitVec.getLsbD_signExtend, BitVec.getLsbD_setWidth]
    simp [hk, show k < 32 by omega]
  | s16 =>
    simp only [ValType.len] at hk
    have : BitVec.ofInt 32 (b.setWidth 16).toInt = (b.setWidth 16).signExtend 32 := rfl
    simp only [ValType.number, this, BitVec.getLsbD_signExtend, BitVec.getLsbD_setWidth]
    simp [hk, show k < 32 by omega]
  | s32 => simp [ValType.number]

theorem raw_decode {v : CanVal} (hbit : v.type ≠ .bit) (hscale : v.scale ≠ 0) (data : List (BitVec 8)) :
    v.raw (v.decode data) = BitVec.ofInt 32 (v.type.number (readValue data v.pos.toNat v.type.len)) := by
  obtain ⟨name, type, pos, scale, offset⟩ := v
  dsimp only at hbit hscale ⊢
  have hread : CanVal.read ⟨name, type, pos, scale, offset⟩ data =
      type.number (readValue data pos.toNat type.len) := by
    unfold CanVal.read
    cases type <;> first | exact absurd rfl hbit | rfl
  have hinv : (CanVal.decode ⟨name, type, pos, scale, offset⟩ data - offset) / scale =
      (type.number (readValue data pos.toNat type.len) : ℚ) := by
    unfold CanVal.decode
    rw [hread]
    dsimp only
    field_simp
    ring
  have hlt : (readValue data pos.toNat type.len).toNat < 2 ^ (8 * type.len) := readLE_lt ..
  obtain ⟨hlo, hhi⟩ := number_range hbit hlt
  unfold CanVal.raw
  dsimp only
  rw [hinv, cRound_intCast, utlValLimit_of_mem hlo hhi]

/-- `send_value` recovers a bit: it takes every number above 0.5 as set, whatever scale and offset are. -/
def CanVal.BitKept (v : CanVal) (data : List (BitVec 8)) : Prop :=
  v.type = .bit → if bitAt data v.pos.toNat then 1 / 2 < v.scale + v.offset else v.offset ≤ 1 / 2

instance (v : CanVal) (data : List (BitVec 8)) : Decidable (v.BitKept data) := by
  unfold CanVal.BitKept
  infer_instance

theorem bitFor_decode {v : CanVal} (hscale : v.scale ≠ 0) {data : List (BitVec 8)} :
    (∀ k, v.Covers k → v.bitFor (v.decode data) k = bitAt data k) ↔ v.BitKept data := by
  by_cases hbit : v.type = .bit
  · obtain ⟨name, type, pos, scale, offset⟩ := v
    dsimp only at hbit
    subst hbit
    have hset : CanVal.decode ⟨name, .bit, pos, scale, offset⟩ data =
        if bitAt data pos.toNat then scale + offset else offset := by
      unfold CanVal.decode CanVal.read
      dsimp only
      split <;> simp
    have hone : (∀ k, CanVal.Covers ⟨name, .bit, pos, scale, offset⟩ k →
        CanVal.bitFor ⟨name, .bit, pos, scale, offset⟩ (CanVal.decode ⟨name, .bit, pos, scale, offset⟩ data) k =
          bitAt data k) ↔
        decide (1 / 2 < if bitAt data pos.toNat then scale + offset else offset) = bitAt data pos.toNat := by
      rw [← hset]
      constructor
      · exact fun h => h _ rfl
      · rintro h k rfl
        exact h
    rw [hone]
    unfold CanVal.BitKept
    cases bitAt data pos.toNat <;> simp
  · refine iff_of_true (fun k hk => ?_) (fun h => absurd h hbit)
    have hcov : 8 * v.pos.toNat ≤ k ∧ k < 8 * (v.pos.toNat + v.type.len) := by
      unfold CanVal.Covers at hk
      split at hk
      · rename_i h
        exact absurd h hbit
      · exact hk
    have hlen : v.type.len ≤ 4 := by cases v.type <;> decide
    have hfor : v.bitFor (v.decode data) k = (v.raw (v.decode data)).getLsbD (k - 8 * v.pos.toNat) := by
      unfold CanVal.bitFor
      split
      · rename_i h
        exact absurd h hbit
      · rfl
    rw [hfor, raw_decode hbit hscale, getLsbD_number hbit _ (by omega), readValue, getLsbD_readLE]
    have h32 : k - 8 * v.pos.toNat < 32 := by omega
    have hin : k - 8 * v.pos.toNat < 8 * v.type.len := by omega
    simp [h32, hin, Nat.add_sub_cancel' hcov.1]

theorem valueConfigure_scale {minDlc minDlc' : Int} {cfg : ValueConf} {v : CanVal}
    (h : valueConfigure .output minDlc cfg = some (v, minDlc')) : v.scale ≠ 0 := by
  simp only [valueConfigure, Option.bind_eq_bind, Option.bind_eq_some_iff, Option.pure_def,
    Option.guard_eq_some', Option.some.injEq, Prod.mk.injEq] at h
  obtain ⟨-, -, type, -, len, -, -, hscale, rfl, -⟩ := h
  exact fun h0 => hscale ⟨trivial, h0⟩

/-- **Encoder and decoder are inverse**, but for a bit whose number gets to the other side of 0.5 by scale and
offset. -/
theorem encode_decode (minDlc minDlc' : Int) (cfg : ValueConf) (v : CanVal)
    (hv : valueConfigure .output minDlc cfg = some (v, minDlc')) (hpos : cfg.pos < 2 ^ 31 - 4) (iface : Iface)
    (rcvd : RxFrame) (w : CanVal) (x : ℚ) (hx : (w, x) ∈ ifaceRxHandler iface rcvd) (htype : w.type = v.type)
    (hwpos : w.pos = v.pos) (hscale : w.scale = v.scale) (hoffset : w.offset = v.offset) (buf : List (BitVec 8))
    (hbuf : buf.length = 8) :
    ((∀ k, v.Covers k → bitAt (v.encode x buf) k = bitAt rcvd.data k) ∧
      ∀ k, ¬ v.Covers k → bitAt (v.encode x buf) k = bitAt buf k) ↔ v.BitKept rcvd.data := by
  have hdecode : x = v.decode rcvd.data := by
    rw [ifaceRxHandler_decode hx]
    unfold CanVal.decode CanVal.read
    rw [htype, hwpos, hscale, hoffset]
  have hbit := bitAt_encode (valueConfigure_inFrame hv hpos) x hbuf
  rw [← bitFor_decode (valueConfigure_scale hv), ← hdecode]
  constructor
  · rintro ⟨hin, -⟩ k hk
    rw [← hin k hk, hbit, if_pos hk]
  · intro h
    refine ⟨fun k hk => ?_, fun k hk => ?_⟩
    · rw [hbit, if_pos hk, h k hk]
    · rw [hbit, if_neg hk]

/-! A temperature of -10 degrees, and a bit that is received inverted. -/

def tempConf : ValueConf := { title := "t", type := some .s16, pos := 2, scale := 1 / 10 }

def invertedConf : ValueConf := { title := "b", type := some .bit, pos := 0, scale := -1, offset := 1 }

def temp : CanVal × Int := (valueConfigure .output 0 tempConf).get (by decide +kernel)

def inverted : CanVal × Int := (valueConfigure .output 0 invertedConf).get (by decide +kernel)

def inputIface : Iface :=
  (ifaceConfigure {
    interface := some "can0"
    frames := [{ canId := 1, dir := some .input, values := [tempConf, invertedConf] }] }).get (by decide +kernel)

def exampleFrame : RxFrame where
  canId := 1
  dlc := 8
  data := [1, 0, 0x9c, 0xff, 0, 0, 0, 0]
  length_data := rfl

theorem encode_decode_example :
    (∀ k, temp.1.Covers k → bitAt (temp.1.encode (-10) (List.replicate 8 0)) k = bitAt exampleFrame.data k) ∧
      ∀ k, ¬ temp.1.Covers k → bitAt (temp.1.encode (-10) (List.replicate 8 0)) k = bitAt (List.replicate 8 0) k :=
  (encode_decode 0 temp.2 tempConf temp.1 (Option.some_get _).symm (by decide) inputIface exampleFrame temp.1 (-10)
    (by decide +kernel) rfl rfl rfl rfl (List.replicate 8 0) rfl).mpr (by decide +kernel)

/-- The received bit is set, 0 is dispatched, and the sent bit is clear. -/
theorem bit_inverted :
    valueConfigure .output 0 invertedConf = some inverted ∧ (inverted.1, 0) ∈ ifaceRxHandler inputIface exampleFrame ∧
      inverted.1.Covers 0 ∧ bitAt exampleFrame.data 0 = true ∧
      bitAt (inverted.1.encode 0 (List.replicate 8 0)) 0 = false :=
  ⟨(Option.some_get _).symm, by decide +kernel, by decide +kernel, by decide +kernel, by decide +kernel⟩

end Uvrgw.Can
