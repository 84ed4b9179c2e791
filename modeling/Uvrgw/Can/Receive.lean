import Uvrgw.Can.Decode
import Uvrgw.Lib.Lists
import Uvrgw.Lib.Traced

/-!
# Complete CAN frames (`value_configure`, `iface_rx_handler`)

`iface_rx_handler` again, with the index of each data byte that it reads.
-/

namespace Uvrgw.Can

open Uvrgw.Lib Uvrgw.Lib.Traced

/-! ## Reading -/

section Reading

variable (rcvd : RxFrame)

def readByte (i : Int) : Traced Int (BitVec 8) := use i (rcvd.data.getD i.toNat 0)

/-- `read_value`, which starts at the last byte. -/
def readBytes (p : Int) : Nat → Traced Int (BitVec 32)
  | 0 => return 0
  | len + 1 => do
    let high ← readBytes (p + 1) len
    let low ← readByte rcvd p
    return high <<< 8 ||| low.setWidth 32

/-- What `iface_rx_handler` makes of the data bytes of a value. -/
def CanVal.take (v : CanVal) : Traced Int (CanVal × ℚ) :=
  match v.type with
  | .bit => do
    let byte ← readByte rcvd (v.pos / 8)
    return (v, (if byte.getLsbD (v.pos % 8).toNat then 1 else 0) * v.scale + v.offset)
  | type => do
    let bytes ← readBytes rcvd v.pos type.len
    return (v, type.number bytes * v.scale + v.offset)

def CanFrame.take (frame : CanFrame) : Traced Int (List (CanVal × ℚ)) :=
  if frame.dir ≠ .input then return []
  else if rcvd.canId &&& 0x7ff#32 ≠ BitVec.ofInt 32 frame.canId then return []
  else if rcvd.dlc < frame.minDlc then return []
  else frame.values.mapM (·.take rcvd)

def rxHandler (iface : Iface) : Traced Int (List (CanVal × ℚ)) :=
  if rcvd.canId &&& notStd ≠ 0 then return []
  else do
    let values ← iface.frames.mapM (·.take rcvd)
    return values.flatten

end Reading

/-! ## Completely or not at all -/

/-- The last data byte of a value. -/
def CanVal.lastByte (v : CanVal) : Int :=
  match v.type with
  | .bit => v.pos / 8
  | type => v.pos + type.len - 1

/-- The `int` sum in the check of the position does not wrap around. -/
def CanVal.NoWrap (v : CanVal) : Prop := v.type = .bit ∨ v.pos + v.type.len < 2 ^ 31

def CanFrame.Matches (frame : CanFrame) (rcvd : RxFrame) : Prop :=
  frame.dir = .input ∧ rcvd.canId &&& 0x7ff#32 = BitVec.ofInt 32 frame.canId

/-- A value needs a byte that has not been received. -/
def CanFrame.Short (frame : CanFrame) (rcvd : RxFrame) : Prop := ∃ v ∈ frame.values, rcvd.dlc ≤ v.lastByte

section Instances

variable (v : CanVal) (frame : CanFrame) (rcvd : RxFrame)

instance : Decidable v.NoWrap := inferInstanceAs (Decidable (v.type = .bit ∨ v.pos + v.type.len < 2 ^ 31))

instance : Decidable (frame.Matches rcvd) := inferInstanceAs
  (Decidable (frame.dir = .input ∧ rcvd.canId &&& 0x7ff#32 = BitVec.ofInt 32 frame.canId))

instance : Decidable (frame.Short rcvd) := inferInstanceAs (Decidable (∃ v ∈ frame.values, rcvd.dlc ≤ v.lastByte))

end Instances

/-- All values of a matching frame, unless it is too short. -/
def CanFrame.complete (frame : CanFrame) (rcvd : RxFrame) : List (CanVal × ℚ) :=
  if frame.Matches rcvd ∧ ¬ frame.Short rcvd then frame.values.map fun v => (v, v.decode rcvd.data) else []

/-- A received frame is decoded completely or not at all. -/
structure Complete (iface : Iface) (rcvd : RxFrame) : Prop where
  reads : (rxHandler rcvd iface).All fun i => 0 ≤ i ∧ i < rcvd.dlc
  values : (rxHandler rcvd iface).val =
    if rcvd.canId &&& notStd ≠ 0 then [] else iface.frames.flatMap (·.complete rcvd)

/-- Each value whose position has wrapped around is in a frame that is ignored for another value. -/
def Iface.Covered (iface : Iface) (rcvd : RxFrame) : Prop :=
  rcvd.canId &&& notStd ≠ 0 ∨ ∀ frame ∈ iface.frames, frame.Matches rcvd →
    (∀ v ∈ frame.values, v.NoWrap) ∨ ∃ v ∈ frame.values, v.NoWrap ∧ rcvd.dlc ≤ v.lastByte

instance (iface : Iface) (rcvd : RxFrame) : Decidable (iface.Covered rcvd) := inferInstanceAs
  (Decidable (rcvd.canId &&& notStd ≠ 0 ∨ ∀ frame ∈ iface.frames, frame.Matches rcvd →
    (∀ v ∈ frame.values, v.NoWrap) ∨ ∃ v ∈ frame.values, v.NoWrap ∧ rcvd.dlc ≤ v.lastByte))

/-! ## Accepted positions -/

theorem len_le (type : ValType) : 1 ≤ type.len ∧ type.len ≤ 4 := by
  cases type <;> decide

theorem valueLen_spec {v : CanVal} {len : Int} (h0 : 0 ≤ v.pos) (hint : v.pos < 2 ^ 31)
    (h : valueLen v.type v.pos = some len) :
    (v.NoWrap → len = v.lastByte + 1) ∧ (¬ v.NoWrap → len < 0) := by
  obtain ⟨name, type, pos, scale, offset⟩ := v
  unfold CanVal.NoWrap CanVal.lastByte
  cases type with
  | bit =>
    simp only [valueLen, Option.ite_none_left_eq_some, Option.some.injEq] at h
    simp only [true_or, not_true, false_implies, and_true, true_implies]
    exact h.2.symm
  | _ =>
    simp only [valueLen, Option.ite_none_left_eq_some, Option.some.injEq] at h
    obtain ⟨hle, rfl⟩ := h
    simp only [reduceCtorEq, false_or]
    refine ⟨fun hno => ?_, fun hwrap => ?_⟩
    · rw [addInt_eq (by dsimp only [ValType.len] at *; omega) hno]
      omega
    · exact addInt_wrap (by omega) (by dsimp only [ValType.len] at *; omega)

theorem valuesConfigure_spec {dir : Dir} {minDlc minDlc' : Int} {cfgs : List ValueConf} {vs : List CanVal}
    (h : valuesConfigure dir minDlc cfgs = some (vs, minDlc')) (hint : ∀ cfg ∈ cfgs, cfg.pos < 2 ^ 31) {dlc : Int}
    (h0 : 0 ≤ dlc) :
    (∀ v ∈ vs, 0 ≤ v.pos) ∧ (dlc < minDlc' ↔ dlc < minDlc ∨ ∃ v ∈ vs, v.NoWrap ∧ dlc ≤ v.lastByte) := by
  induction cfgs generalizing minDlc vs with
  | nil =>
    simp only [valuesConfigure, Option.some.injEq, Prod.mk.injEq] at h
    obtain ⟨rfl, rfl⟩ := h
    simp
  | cons cfg cfgs ih =>
    simp only [valuesConfigure, Option.bind_eq_bind, Option.bind_eq_some_iff, Option.pure_def,
      Option.some.injEq, Prod.mk.injEq] at h
    obtain ⟨⟨v, minDlc₁⟩, hv, ⟨vs', minDlc₂⟩, hvs, rfl, rfl⟩ := h
    obtain ⟨hpos, hiff⟩ := ih hvs fun cfg' hcfg => hint cfg' (List.mem_cons_of_mem _ hcfg)
    simp only [valueConfigure, Option.bind_eq_bind, Option.bind_eq_some_iff, Option.pure_def,
      Option.guard_eq_some', Option.some.injEq, Prod.mk.injEq] at hv
    obtain ⟨-, hpos0, type, -, len, hlen, -, -, rfl, rfl⟩ := hv
    obtain ⟨hno, hwrap⟩ := valueLen_spec (v := ⟨cfg.title, type, cfg.pos, cfg.scale, cfg.offset⟩) hpos0
      (hint cfg List.mem_cons_self) hlen
    refine ⟨List.forall_mem_cons.mpr ⟨hpos0, hpos⟩, ?_⟩
    dsimp only
    rw [hiff, List.exists_mem_cons_iff, ← or_assoc]
    refine or_congr_left ?_
    by_cases hw : CanVal.NoWrap ⟨cfg.title, type, cfg.pos, cfg.scale, cfg.offset⟩
    · have := hno hw
      simp only [hw, true_and]
      split_ifs <;> omega
    · have := hwrap hw
      simp only [hw, false_and, or_false]
      split_ifs <;> omega

/-! ## What is read -/

section Reads

variable {rcvd : RxFrame}

theorem readBytes_val {p : Int} (hp : 0 ≤ p) (len : Nat) :
    (readBytes rcvd p len).val = readValue rcvd.data p.toNat len := by
  unfold readValue
  induction len generalizing p with
  | zero => rfl
  | succ len ih =>
    rw [readBytes, val_bind, val_bind, val_pure, ih (by omega), readLE, show (p + 1).toNat = p.toNat + 1 by omega]
    rfl

theorem readBytes_all {P : Int → Prop} (p : Int) (len : Nat) :
    (readBytes rcvd p len).All P ↔ ∀ i < len, P (p + (i : Nat)) := by
  induction len generalizing p with
  | zero => simp [readBytes]
  | succ len ih =>
    simp only [readBytes, all_bind, ih, readByte, all_use, all_pure, and_true]
    constructor
    · rintro ⟨hrest, hp⟩ i hi
      cases i with
      | zero => simpa using hp
      | succ i =>
        have := hrest i (by omega)
        rwa [show p + ((i + 1 : Nat) : Int) = p + 1 + i by omega]
    · intro h
      refine ⟨fun i hi => ?_, by simpa using h 0 (by omega)⟩
      have := h (i + 1) (by omega)
      rwa [show p + ((i + 1 : Nat) : Int) = p + 1 + i by omega] at this

theorem take_val {v : CanVal} (h0 : 0 ≤ v.pos) : (v.take rcvd).val = (v, v.decode rcvd.data) := by
  obtain ⟨name, type, pos, scale, offset⟩ := v
  unfold CanVal.take CanVal.decode CanVal.read
  cases type with
  | bit =>
    have hdiv : (pos / 8).toNat = pos.toNat / 8 := by dsimp only at h0; omega
    have hmod : (pos % 8).toNat = pos.toNat % 8 := by dsimp only at h0; omega
    have hbit : (readByte rcvd (pos / 8)).val.getLsbD (pos % 8).toNat = bitAt rcvd.data pos.toNat := by
      unfold readByte bitAt
      rw [val_use, hdiv, hmod]
    dsimp only
    rw [val_bind, val_pure, hbit]
    cases bitAt rcvd.data pos.toNat <;> simp
  | _ =>
    simp only [val_bind, val_pure]
    rw [readBytes_val h0]

theorem take_all {v : CanVal} (h0 : 0 ≤ v.pos) :
    ((v.take rcvd).All fun i => 0 ≤ i ∧ i < rcvd.dlc) ↔ v.lastByte < rcvd.dlc := by
  obtain ⟨name, type, pos, scale, offset⟩ := v
  have hlen := len_le type
  dsimp only at h0
  have hbytes : ((readBytes rcvd pos type.len).All fun i => 0 ≤ i ∧ i < rcvd.dlc) ↔
      pos + type.len - 1 < rcvd.dlc := by
    rw [readBytes_all]
    constructor
    · intro h
      have := h (type.len - 1) (by omega)
      omega
    · intro h i hi
      omega
  unfold CanVal.take CanVal.lastByte
  cases type with
  | bit =>
    simp only [all_bind, readByte, all_use, all_pure, and_true]
    omega
  | _ =>
    simp only [all_bind, all_pure, and_true]
    exact hbytes

end Reads

/-! ## Accepted frames -/

/-- The positions are values of an `int`. -/
def IfaceConf.Ints (cfg : IfaceConf) : Prop :=
  ∀ frame ∈ cfg.frames, ∀ v ∈ frame.values, -2 ^ 31 ≤ v.pos ∧ v.pos < 2 ^ 31

instance (cfg : IfaceConf) : Decidable cfg.Ints :=
  inferInstanceAs (Decidable (∀ frame ∈ cfg.frames, ∀ v ∈ frame.values, -2 ^ 31 ≤ v.pos ∧ v.pos < 2 ^ 31))

/-- The positions of an accepted frame, and how it judges the received length. -/
structure FrameAccepted (frame : CanFrame) : Prop where
  pos : ∀ v ∈ frame.values, 0 ≤ v.pos
  minDlc : ∀ dlc, 0 ≤ dlc → (dlc < frame.minDlc ↔ ∃ v ∈ frame.values, v.NoWrap ∧ dlc ≤ v.lastByte)

theorem frameConfigure_accepted {cfg : FrameConf} {frame : CanFrame} (h : frameConfigure cfg = some frame)
    (hint : ∀ v ∈ cfg.values, v.pos < 2 ^ 31) : FrameAccepted frame := by
  simp only [frameConfigure, Option.bind_eq_bind, Option.bind_eq_some_iff, Option.pure_def,
    Option.guard_eq_some', Option.some.injEq] at h
  obtain ⟨-, -, dir, -, ⟨values, minDlc⟩, hvalues, rfl⟩ := h
  refine ⟨(valuesConfigure_spec hvalues hint (le_refl 0)).1, fun dlc h0 => ?_⟩
  rw [(valuesConfigure_spec hvalues hint h0).2]
  constructor
  · rintro (hneg | h)
    · omega
    · exact h
  · exact .inr

theorem ifaceConfigure_accepted {cfg : IfaceConf} {iface : Iface} (h : ifaceConfigure cfg = some iface)
    (hint : cfg.Ints) : ∀ frame ∈ iface.frames, FrameAccepted frame := by
  simp only [ifaceConfigure, Option.bind_eq_bind, Option.bind_eq_some_iff, Option.pure_def, Option.some.injEq] at h
  obtain ⟨interface, -, frames, hframes, rfl⟩ := h
  intro frame hf
  obtain ⟨i, hi⟩ := List.mem_iff_getElem?.mp hf
  obtain ⟨cfg', hcfg, hframe⟩ := Lib.getElem?_mapM hframes hi
  exact frameConfigure_accepted hframe fun v hv => (hint cfg' (List.mem_of_getElem? hcfg) v hv).2

section Accepted

variable {frame : CanFrame} {rcvd : RxFrame}

/-- A value that has wrapped around is beyond all data bytes. -/
theorem lastByte_of_wrap {v : CanVal} (h : ¬ v.NoWrap) : 2 ^ 31 - 1 ≤ v.lastByte := by
  obtain ⟨name, type, pos, scale, offset⟩ := v
  unfold CanVal.NoWrap at h
  unfold CanVal.lastByte
  cases type with
  | bit => exact absurd (.inl rfl) h
  | _ =>
    simp only [reduceCtorEq, false_or] at h
    dsimp only at h ⊢
    omega

theorem frame_take : frame.take rcvd =
    if frame.Matches rcvd ∧ frame.minDlc ≤ rcvd.dlc then frame.values.mapM (·.take rcvd) else pure [] := by
  unfold CanFrame.take CanFrame.Matches
  by_cases hdir : frame.dir = .input
  · by_cases hid : rcvd.canId &&& 0x7ff#32 = BitVec.ofInt 32 frame.canId
    · rw [if_neg (not_not.mpr hdir), if_neg (not_not.mpr hid)]
      by_cases hlen : rcvd.dlc < frame.minDlc
      · rw [if_pos hlen, if_neg (by omega)]
      · rw [if_neg hlen, if_pos ⟨⟨hdir, hid⟩, by omega⟩]
    · rw [if_neg (not_not.mpr hdir), if_pos hid, if_neg fun h => hid h.1.2]
  · rw [if_pos hdir, if_neg fun h => hdir h.1.1]

/-- A frame is read within the received bytes exactly if it is ignored or has no position that wraps around. -/
theorem frame_reads (hacc : FrameAccepted frame) (h0 : 0 ≤ rcvd.dlc) (h8 : rcvd.dlc ≤ 8) :
    ((frame.take rcvd).All fun i => 0 ≤ i ∧ i < rcvd.dlc) ↔ (frame.Matches rcvd →
      (∀ v ∈ frame.values, v.NoWrap) ∨ ∃ v ∈ frame.values, v.NoWrap ∧ rcvd.dlc ≤ v.lastByte) := by
  rw [frame_take]
  by_cases hmatch : frame.Matches rcvd
  · have hlen := hacc.minDlc _ h0
    by_cases hshort : rcvd.dlc < frame.minDlc
    · rw [if_neg (by omega)]
      exact iff_of_true (all_pure _ |>.mpr trivial) fun _ => .inr (hlen.mp hshort)
    · have hno : ¬ ∃ v ∈ frame.values, v.NoWrap ∧ rcvd.dlc ≤ v.lastByte := fun h => hshort (hlen.mpr h)
      rw [if_pos ⟨hmatch, by omega⟩, all_mapM]
      simp only [hmatch, true_implies, hno, or_false]
      refine forall₂_congr fun v hv => ?_
      rw [take_all (hacc.pos v hv)]
      constructor
      · intro h
        by_contra hwrap
        have := lastByte_of_wrap hwrap
        omega
      · intro hv'
        by_contra h
        exact hno ⟨v, hv, hv', by omega⟩
  · rw [if_neg fun h => hmatch h.1]
    exact iff_of_true (all_pure _ |>.mpr trivial) fun h => absurd h hmatch

/-- A frame that is read within the received bytes is decoded completely, or is too short. -/
theorem frame_values (hacc : FrameAccepted frame) (h0 : 0 ≤ rcvd.dlc)
    (h : (frame.take rcvd).All fun i => 0 ≤ i ∧ i < rcvd.dlc) : (frame.take rcvd).val = frame.complete rcvd := by
  have hlen := hacc.minDlc _ h0
  unfold CanFrame.complete
  rw [frame_take] at h ⊢
  by_cases hmatch : frame.Matches rcvd
  · by_cases hshort : rcvd.dlc < frame.minDlc
    · obtain ⟨v, hv, -, hle⟩ := hlen.mp hshort
      rw [if_neg (by omega), if_neg fun h => h.2 ⟨v, hv, hle⟩]
      rfl
    · rw [if_pos ⟨hmatch, by omega⟩, all_mapM] at h
      have hread : ¬ frame.Short rcvd := by
        rintro ⟨v, hv, hle⟩
        have := (take_all (hacc.pos v hv)).mp (h v hv)
        omega
      rw [if_pos ⟨hmatch, by omega⟩, if_pos ⟨hmatch, hread⟩, val_mapM]
      exact List.map_congr_left fun v hv => take_val (hacc.pos v hv)
  · rw [if_neg fun h => hmatch h.1, if_neg fun h => hmatch h.1]
    rfl

end Accepted

/-- **A frame is decoded completely or not at all**, if each position that has wrapped around in its check is
covered by another value. -/
theorem complete_iff (cfg : IfaceConf) (iface : Iface) (h : ifaceConfigure cfg = some iface) (hint : cfg.Ints)
    (rcvd : RxFrame) (h0 : 0 ≤ rcvd.dlc) (h8 : rcvd.dlc ≤ 8) : Complete iface rcvd ↔ iface.Covered rcvd := by
  have hacc := ifaceConfigure_accepted h hint
  unfold Iface.Covered
  by_cases hstd : rcvd.canId &&& notStd ≠ 0
  · have hskip : rxHandler rcvd iface = pure [] := if_pos hstd
    refine iff_of_true ⟨?_, ?_⟩ (.inl hstd)
    · rw [hskip]
      exact (all_pure _).mpr trivial
    · rw [hskip, if_pos hstd]
      rfl
  · have hread : rxHandler rcvd iface = do
        let values ← iface.frames.mapM (·.take rcvd)
        return values.flatten := if_neg hstd
    have hall : ((rxHandler rcvd iface).All fun i => 0 ≤ i ∧ i < rcvd.dlc) ↔
        ∀ frame ∈ iface.frames, (frame.take rcvd).All fun i => 0 ≤ i ∧ i < rcvd.dlc := by
      rw [hread, all_bind, all_mapM]
      exact and_iff_left ((all_pure _).mpr trivial)
    constructor
    · intro hcomplete
      exact .inr fun frame hf => (frame_reads (hacc frame hf) h0 h8).mp (hall.mp hcomplete.reads frame hf)
    · rintro (habs | hcov)
      · exact absurd habs hstd
      · have hframes : ∀ frame ∈ iface.frames, (frame.take rcvd).All fun i => 0 ≤ i ∧ i < rcvd.dlc :=
          fun frame hf => (frame_reads (hacc frame hf) h0 h8).mpr (hcov frame hf)
        refine ⟨hall.mpr hframes, ?_⟩
        rw [hread, if_neg hstd, val_bind, val_mapM, val_pure, List.flatMap_def]
        refine congrArg List.flatten (List.map_congr_left fun frame hf => ?_)
        exact frame_values (hacc frame hf) h0 (hframes frame hf)

/-! A byte that wraps around next to a value that needs all eight bytes, and alone in its frame. -/

def wrapConf (values : List ValueConf) : IfaceConf where
  interface := some "can0"
  frames := [{ canId := 1, dir := some .input, values := values }]

def farValue : ValueConf := { title := "far", type := some .u8, pos := 0x7fffffff }

def received (dlc : Int) : RxFrame := { exampleFrame with dlc := dlc }

theorem complete_iff_covered : ∃ iface,
    ifaceConfigure (wrapConf [farValue, { title := "n", type := some .u32, pos := 4 }]) = some iface ∧
      (Complete iface (received 7) ↔ iface.Covered (received 7)) := by
  refine ⟨_, (Option.some_get (by decide +kernel)).symm, ?_⟩
  exact complete_iff (wrapConf [farValue, { title := "n", type := some .u32, pos := 4 }]) _
    (Option.some_get (by decide +kernel)).symm (by decide) (received 7) (by decide) (by decide)

theorem far_byte_read : ∃ iface, ifaceConfigure (wrapConf [farValue]) = some iface ∧ (wrapConf [farValue]).Ints ∧
    ¬ Complete iface (received 8) := by
  refine ⟨_, (Option.some_get (by decide +kernel)).symm, by decide, fun h => ?_⟩
  have hread := h.reads 0x7fffffff (by decide +kernel)
  exact absurd hread.2 (by decide)

/-- The reads are the only difference to `ifaceRxHandler`. -/
theorem rxHandler_val {cfg : IfaceConf} {iface : Iface} (h : ifaceConfigure cfg = some iface) (hint : cfg.Ints)
    (rcvd : RxFrame) : (rxHandler rcvd iface).val = ifaceRxHandler iface rcvd := by
  have hacc := ifaceConfigure_accepted h hint
  unfold rxHandler ifaceRxHandler
  split
  · rfl
  · rw [val_bind, val_mapM, val_pure, List.flatMap_def]
    refine congrArg List.flatten (List.map_congr_left fun frame hf => ?_)
    have htake : ∀ v ∈ frame.values, (v.take rcvd).val = (v, v.decode rcvd.data) :=
      fun v hv => take_val ((hacc frame hf).pos v hv)
    unfold CanFrame.take CanFrame.receive
    split_ifs
    · rfl
    · rfl
    · rfl
    · rw [val_mapM]
      exact List.map_congr_left htake

end Uvrgw.Can
