import Uvrgw.Lib.Traced
import Uvrgw.Mb.Checks

/-!
# Accesses of a block (`read_block_bits`, `read_block_registers`, `write_execute`)

Reading records every register index, bit shift and address it uses. Numbers are exact, so only a float
register pair can be something that `isfinite` rejects.
-/

namespace Uvrgw.Mb

open Uvrgw.Lib Uvrgw.Lib.Traced

/-- How a number of the configuration is used. -/
inductive Use where
  /-- The index of a register or bit of the block. -/
  | reg (i : Int)
  | shift (bit : Int)
  /-- An address that is requested or written. -/
  | addr (a : Int)
  deriving DecidableEq, Repr

/-! ## Reading -/

section Reading

-- what the transaction has delivered
variable (buf : Int → BitVec 16)

def readReg (i : Int) : Traced Use (BitVec 16) := use (.reg i) (buf i)

def getU32 (v : SlaveVal) : Traced Use (BitVec 32) := do
  let r0 ← readReg buf v.reg
  let r1 ← readReg buf (v.reg + 1)
  return if v.wordSwap then r1 ++ r0 else r0 ++ r1

def fromF32 (x : BitVec 32) : Double :=
  let e := (x >>> 23 &&& 0xff).toNat
  let m := (x &&& 0x7fffff).toNat
  let sign : ℚ := if x.msb then -1 else 1
  if e = 255 then (if m = 0 then .inf x.msb else .nan)
  else if e = 0 then .fin (sign * m / 2 ^ 149)
  else .fin (sign * (2 ^ 23 + m) * 2 ^ ((e : Int) - 150))

def sunspecIsNa (v : SlaveVal) : Traced Use Bool :=
  match v.type with
  | .s16 => do return (← readReg buf v.reg) == 0x8000
  | .u16 | .bitmask => do return (← readReg buf v.reg) == 0xffff
  | .s32 => do return (← getU32 buf v) == 0x80000000
  | .u32 => do return (← getU32 buf v) == 0xffffffff
  | _ => return false

def SlaveVal.scaled (v : SlaveVal) (raw sf : ℚ) : ℚ := raw * sf * v.scale + v.offset

/-- `dispatch_value`: what it dispatches. -/
def dispatchValue (v : SlaveVal) (sf : ℚ) : Traced Use (Option ℚ) :=
  match v.type with
  | .s16 => do return some (v.scaled (← readReg buf v.reg).toInt sf)
  | .u16 => do return some (v.scaled (← readReg buf v.reg).toNat sf)
  | .s32 => do return some (v.scaled (← getU32 buf v).toInt sf)
  | .u32 => do return some (v.scaled (← getU32 buf v).toNat sf)
  | .f32 => do
    match fromF32 (← getU32 buf v) with
    | .fin raw => return some (v.scaled raw sf)
    | _ => return none
  | .bitmask => do
    let r ← readReg buf v.reg
    let bit ← use (.shift v.bit) v.bit.toNat
    return some (if r.getLsbD bit then 1 else 0)
  | .bit => return none

def Block.source (blk : Block) (v : SlaveVal) : Option SlaveVal := v.sfSource.bind (blk.values[·]?)

/-- The marker of the value or of its scale factor. -/
def notImplemented (blk : Block) (v : SlaveVal) : Traced Use Bool := do
  if ← sunspecIsNa buf v then return true
  else
    match blk.source v with
    | some sf => do return (← readReg buf sf.reg) == 0x8000
    | none => return false

def dropped (blk : Block) (v : SlaveVal) : Traced Use Bool :=
  if blk.sunspecNa then notImplemented buf blk v else return false

/-- `sf` of `read_block_registers`. -/
def scaleFactor (blk : Block) (v : SlaveVal) : Traced Use ℚ :=
  match blk.source v with
  | some sf => do return (10 : ℚ) ^ (← readReg buf sf.reg).toInt
  | none => return 1

/-- The loop body of `read_block_registers`. -/
def readValue (blk : Block) (v : SlaveVal) : Traced Use (Option (String × ℚ)) := do
  if ← dropped buf blk v then return none
  else
    let f ← dispatchValue buf v (← scaleFactor buf blk v)
    return f.map (v.name, ·)

def addresses (addr : Int) (nb : Nat) : List Use := (List.range nb).map fun i => .addr (addr + i)

def request (addr count : Int) : Traced Use Unit := ⟨addresses addr count.toNat, ()⟩

def expected (blk : Block) : Traced Use Bool :=
  if 0 ≤ blk.expectReg then do return ((← readReg buf blk.expectReg).toNat : Int) == blk.expectValue
  else return true

/-- `read_block_registers`: the values that it dispatches. -/
def readBlockRegisters (blk : Block) : Traced Use (List (String × ℚ)) := do
  request blk.addr blk.count
  if ← expected buf blk then
    let values ← blk.values.mapM (readValue buf blk)
    return values.filterMap id
  else return []

end Reading

def readBlockBits (buf : Int → Bool) (blk : Block) : Traced Use (List (String × ℚ)) := do
  request blk.addr blk.count
  blk.values.mapM fun v => do
    let on ← use (.reg v.reg) (buf v.reg)
    return (v.name, if on then 1 else 0)

/-! ## Writing -/

def Request.addresses : Request → List Use
  | .writeBit addr _ | .writeRegister addr _ => Mb.addresses addr 1
  | .writeRegisters addr src => Mb.addresses addr src.length

/-- What `write_execute` uses for a value. -/
def writeUses (blk : Block) (v : SlaveVal) (buf : BitVec 16) (f : ℚ) : List Use :=
  (List.range (valueRegCount v.type).toNat).map (fun i => .reg (v.reg + i)) ++
    (if v.type = .bitmask then [.shift v.bit] else []) ++ (v.request blk.addr buf f).1.addresses

/-! ## Safety -/

def Use.Ok (blk : Block) : Use → Prop
  | .reg i => 0 ≤ i ∧ i < blk.count
  | .shift bit => 0 ≤ bit ∧ bit ≤ 15
  | .addr a => 0 ≤ a ∧ a ≤ 0xffff

/-- Nothing that reading or writing the block uses is out of range. -/
structure Block.Safe (blk : Block) : Prop where
  bits : blk.dir = .input → blk.regtype.isBit = true → ∀ buf, (readBlockBits buf blk).All (Use.Ok blk)
  registers : blk.dir = .input → blk.regtype.isBit = false → ∀ buf, (readBlockRegisters buf blk).All (Use.Ok blk)
  writes : blk.dir = .output → ∀ v ∈ blk.values, ∀ buf f, ∀ u ∈ writeUses blk v buf f, u.Ok blk
  sources : ∀ v ∈ blk.values, ∀ sf, blk.source v = some sf → sf.type = .s16 ∧ sf.sfName = none

/-- The numbers of the block leave room for the arithmetic and end within the address space. -/
structure Block.InRange (blk : Block) : Prop where
  reg : ∀ v ∈ blk.values, v.reg + valueRegCount v.type < 2 ^ 31
  read : blk.dir = .input → blk.addr + blk.count ≤ 0x10000
  write : blk.dir = .output → ∀ v ∈ blk.values, blk.addr + v.reg + valueRegCount v.type ≤ 0x10000

theorem addresses_ok {blk : Block} {addr : Int} {nb : Nat} :
    (∀ u ∈ addresses addr nb, u.Ok blk) ↔ ∀ i < nb, 0 ≤ addr + i ∧ addr + i ≤ 0xffff := by
  simp [addresses, Use.Ok]

theorem request_ok {blk : Block} (haddr : 0 ≤ blk.addr) (hcount : 0 < blk.count) :
    (request blk.addr blk.count).All (Use.Ok blk) ↔ blk.addr + blk.count ≤ 0x10000 := by
  have hall : (request blk.addr blk.count).All (Use.Ok blk) ↔
      ∀ i < blk.count.toNat, 0 ≤ blk.addr + i ∧ blk.addr + i ≤ 0xffff := addresses_ok
  rw [hall]
  constructor
  · intro h
    have := h (blk.count.toNat - 1) (by omega)
    omega
  · intro h i hi
    omega

/-- The registers of a value are in the block. -/
def SlaveVal.Inside (v : SlaveVal) (blk : Block) : Prop := 0 ≤ v.reg ∧ v.reg + valueRegCount v.type ≤ blk.count

section Values

variable {buf : Int → BitVec 16} {blk : Block} {v : SlaveVal}

theorem readReg_ok {i : Int} : (readReg buf i).All (Use.Ok blk) ↔ 0 ≤ i ∧ i < blk.count := by
  simp [readReg, Use.Ok]

theorem getU32_ok : (getU32 buf v).All (Use.Ok blk) ↔
    (0 ≤ v.reg ∧ v.reg < blk.count) ∧ 0 ≤ v.reg + 1 ∧ v.reg + 1 < blk.count := by
  simp [getU32, readReg_ok]

theorem sunspecIsNa_ok : (sunspecIsNa buf v).All (Use.Ok blk) ↔ (v.type = .bit ∨ v.type = .f32 ∨ v.Inside blk) := by
  unfold sunspecIsNa SlaveVal.Inside
  cases htype : v.type with
  | s16 | u16 | bitmask =>
    simp only [all_bind, readReg_ok, all_pure, valueRegCount, reduceCtorEq, false_or, and_true]
    omega
  | s32 | u32 =>
    simp only [all_bind, getU32_ok, all_pure, valueRegCount, reduceCtorEq, false_or, and_true]
    omega
  | f32 | bit => simp

theorem dispatchValue_ok {sf : ℚ} (hbit : v.type = .bitmask → 0 ≤ v.bit ∧ v.bit ≤ 15) :
    (dispatchValue buf v sf).All (Use.Ok blk) ↔ (v.type = .bit ∨ v.Inside blk) := by
  unfold dispatchValue SlaveVal.Inside
  cases htype : v.type with
  | s16 | u16 =>
    simp only [all_bind, readReg_ok, all_pure, valueRegCount, reduceCtorEq, false_or, and_true]
    omega
  | s32 | u32 =>
    simp only [all_bind, getU32_ok, all_pure, valueRegCount, reduceCtorEq, false_or, and_true]
    omega
  | f32 =>
    have hrest : ∀ x : BitVec 32, (match fromF32 x with
        | .fin raw => (pure (some (v.scaled raw sf)) : Traced Use (Option ℚ))
        | _ => pure none).All (Use.Ok blk) := by
      intro x
      split <;> simp
    simp only [all_bind, getU32_ok, hrest, valueRegCount, reduceCtorEq, false_or, and_true]
    omega
  | bitmask =>
    have hshift := hbit htype
    simp only [all_bind, readReg_ok, all_use, all_pure, Use.Ok, valueRegCount, reduceCtorEq, false_or, and_true]
    omega
  | bit => simp

theorem BlockAccepted.source_spec (hacc : BlockAccepted blk) (hv : v ∈ blk.values) :
    blk.source v = none ∨
      v.sfName ≠ none ∧ ∃ sf ∈ blk.values, blk.source v = some sf ∧ sf.type = .s16 ∧ sf.sfName = none := by
  unfold Block.source
  rcases hacc.source v hv with ⟨-, hnone⟩ | ⟨i, sf, hi, hsf, hname, hown, htype⟩
  · rw [hnone]
    exact .inl rfl
  · rw [hi]
    exact .inr ⟨by simp [hname], sf, List.mem_of_getElem? hsf, hsf, htype, hown⟩

theorem inside_of_readValue (hacc : BlockAccepted blk) (hv : v ∈ blk.values) (htype : v.type ≠ .bit)
    (h : (readValue buf blk v).All (Use.Ok blk)) : v.Inside blk := by
  have hval := hacc.value v hv
  have hdispatch : ∀ sf, (dispatchValue buf v sf).All (Use.Ok blk) → v.Inside blk := by
    intro sf h
    exact ((dispatchValue_ok hval.bit).mp h).resolve_left htype
  unfold readValue dropped at h
  cases hna : blk.sunspecNa with
  | false =>
    simp only [hna, Bool.false_eq_true, if_false, all_bind, all_pure, val_pure, true_and, and_true] at h
    exact hdispatch _ h.2
  | true =>
    simp only [hna, if_true, all_bind] at h
    obtain ⟨hmarker, hrest⟩ := h
    unfold notImplemented at hmarker
    rw [all_bind, sunspecIsNa_ok] at hmarker
    rcases hmarker.1 with hb | hf | hin
    · exact absurd hb htype
    · -- a float has no marker and no scale factor, so it is dispatched
      have hsource : blk.source v = none := by
        rcases hacc.source_spec hv with h | ⟨hname, -⟩
        · exact h
        · have := (hval.scaleFactor hname).2
          simp [hf] at this
      have hkept : (notImplemented buf blk v).val = false := by
        simp [notImplemented, sunspecIsNa, hf, hsource]
      simp only [hkept, Bool.false_eq_true, if_false, all_bind] at hrest
      exact hdispatch _ hrest.2.1
    · exact hin

theorem readValue_ok (hacc : BlockAccepted blk) (hv : v ∈ blk.values) (hin : ∀ w ∈ blk.values, w.Inside blk) :
    (readValue buf blk v).All (Use.Ok blk) := by
  have hsource : ∀ sf, blk.source v = some sf → (readReg buf sf.reg).All (Use.Ok blk) := by
    intro sf hsf
    rcases hacc.source_spec hv with h | ⟨-, sf', hmem, h, htype, -⟩
    · rw [h] at hsf
      cases hsf
    · obtain rfl : sf' = sf := Option.some.inj (h.symm.trans hsf)
      obtain ⟨h0, hlt⟩ := hin sf' hmem
      rw [htype] at hlt
      exact readReg_ok.mpr ⟨h0, by simp only [valueRegCount] at hlt; omega⟩
  have hmarker : (notImplemented buf blk v).All (Use.Ok blk) := by
    unfold notImplemented
    rw [all_bind, sunspecIsNa_ok]
    refine ⟨.inr (.inr (hin v hv)), ?_⟩
    split
    · simp
    · split
      · rename_i sf hsf
        simpa using hsource sf hsf
      · simp
  have hfactor : (scaleFactor buf blk v).All (Use.Ok blk) := by
    unfold scaleFactor
    split
    · rename_i sf hsf
      simpa using hsource sf hsf
    · simp
  have hdropped : (dropped buf blk v).All (Use.Ok blk) := by
    unfold dropped
    split
    · exact hmarker
    · simp
  unfold readValue
  rw [all_bind]
  constructor
  · exact hdropped
  · split
    · simp
    · simp only [all_bind, all_pure, and_true]
      exact ⟨hfactor, (dispatchValue_ok (hacc.value v hv).bit).mpr (.inr (hin v hv))⟩

end Values

/-! ## Accepted blocks -/

variable {blk : Block}

theorem valueRegCount_cases (type : ValType) : valueRegCount type = 1 ∨ valueRegCount type = 2 := by
  cases type <;> simp [valueRegCount]

theorem BlockAccepted.count_le (hacc : BlockAccepted blk) : blk.count ≤ 2000 := by
  have := hacc.count.2
  unfold maxCount at this
  split at this <;> omega

/-- The check of `block_configure` means what it says as long as its sum does not wrap around. -/
theorem inside_iff (hacc : BlockAccepted blk) {v : SlaveVal} (hv : v ∈ blk.values) (hint : IsInt v.reg) :
    v.Inside blk ↔ v.reg + valueRegCount v.type < 2 ^ 31 := by
  obtain ⟨h0, hle⟩ := hacc.reg v hv
  have hmax := hacc.count_le
  have hn := valueRegCount_cases v.type
  obtain ⟨hlo, hhi⟩ := hint
  constructor
  · rintro ⟨-, h⟩
    omega
  · intro h
    rw [addInt_eq (by omega) h] at hle
    exact ⟨h0, hle⟩

theorem readBlockBits_ok (hacc : BlockAccepted blk) :
    (∀ buf, (readBlockBits buf blk).All (Use.Ok blk)) ↔
      blk.addr + blk.count ≤ 0x10000 ∧ ∀ v ∈ blk.values, 0 ≤ v.reg ∧ v.reg < blk.count := by
  have hone : ∀ buf, (readBlockBits buf blk).All (Use.Ok blk) ↔
      blk.addr + blk.count ≤ 0x10000 ∧ ∀ v ∈ blk.values, 0 ≤ v.reg ∧ v.reg < blk.count := by
    intro buf
    unfold readBlockBits
    rw [all_bind, request_ok hacc.addr hacc.count.1, all_mapM]
    simp [Use.Ok]
  simp only [hone, forall_const]

theorem readBlockRegisters_ok (hacc : BlockAccepted blk) (hregs : blk.regtype.isBit = false) :
    (∀ buf, (readBlockRegisters buf blk).All (Use.Ok blk)) ↔
      blk.addr + blk.count ≤ 0x10000 ∧ ∀ v ∈ blk.values, v.Inside blk := by
  have hexpected : ∀ buf, (expected buf blk).All (Use.Ok blk) := by
    intro buf
    unfold expected
    split
    · rename_i h0
      simpa [readReg_ok] using ⟨h0, hacc.expectReg⟩
    · simp
  constructor
  · intro h
    -- a device whose registers all hold the expected value
    have hread := h fun _ => BitVec.ofInt 16 blk.expectValue
    have hval : (expected (fun _ => BitVec.ofInt 16 blk.expectValue) blk).val = true := by
      unfold expected
      split
      · rename_i h0
        have h0' := hacc.expect.mp h0
        have hmax := hacc.expectValue
        simp only [val_bind, val_pure, readReg, val_use, BitVec.toNat_ofInt, beq_iff_eq]
        omega
      · rfl
    unfold readBlockRegisters at hread
    rw [all_bind, all_bind, request_ok hacc.addr hacc.count.1, hval, if_pos rfl, all_bind, all_mapM] at hread
    refine ⟨hread.1, fun v hv => inside_of_readValue hacc hv ?_ (hread.2.2.1 v hv)⟩
    intro hbit
    have := (hacc.value v hv).isBit.mpr hbit
    simp [hregs] at this
  · rintro ⟨haddr, hin⟩ buf
    unfold readBlockRegisters
    rw [all_bind, all_bind, request_ok hacc.addr hacc.count.1]
    refine ⟨haddr, hexpected buf, ?_⟩
    split
    · simp only [all_bind, all_pure, and_true, all_mapM]
      exact fun v hv => readValue_ok hacc hv hin
    · simp

theorem request_addresses (v : SlaveVal) (a : Int) (buf : BitVec 16) (f : ℚ) :
    (v.request a buf f).1.addresses = addresses (addInt a v.reg) (valueRegCount v.type).toNat := by
  unfold SlaveVal.request
  cases htype : v.type with
  | bit | s16 | u16 | bitmask => rfl
  | s32 | u32 | f32 =>
    dsimp only [Request.addresses]
    rw [length_setU32]
    rfl

/-- The addresses of a value, also if their sum wraps around. -/
theorem writeAddresses_ok (hacc : BlockAccepted blk) (hint : IsInt blk.addr) {v : SlaveVal} (hin : v.Inside blk) :
    (∀ u ∈ addresses (addInt blk.addr v.reg) (valueRegCount v.type).toNat, u.Ok blk) ↔
      blk.addr + v.reg + valueRegCount v.type ≤ 0x10000 := by
  have hn := valueRegCount_cases v.type
  have hmax := hacc.count_le
  have h0 := hacc.addr
  obtain ⟨hreg, hlt⟩ := hin
  obtain ⟨-, hhi⟩ := hint
  rw [addresses_ok]
  by_cases hwrap : blk.addr + v.reg < 2 ^ 31
  · rw [addInt_eq (by omega) hwrap]
    constructor
    · intro h
      have := h ((valueRegCount v.type).toNat - 1) (by omega)
      omega
    · intro h i hi
      omega
  · have hneg := addInt_wrap (a := blk.addr) (b := v.reg) (by omega) (by omega)
    constructor
    · intro h
      have := h 0 (by omega)
      omega
    · intro h
      omega

theorem writeUses_ok (hacc : BlockAccepted blk) (hint : IsInt blk.addr) {v : SlaveVal} (hv : v ∈ blk.values) :
    (∀ buf f, ∀ u ∈ writeUses blk v buf f, u.Ok blk) ↔
      v.Inside blk ∧ blk.addr + v.reg + valueRegCount v.type ≤ 0x10000 := by
  have hn := valueRegCount_cases v.type
  have hregs : (∀ u ∈ (List.range (valueRegCount v.type).toNat).map fun i : Nat => Use.reg (v.reg + i), u.Ok blk) ↔
      v.Inside blk := by
    simp only [List.forall_mem_map, List.mem_range, Use.Ok, SlaveVal.Inside]
    constructor
    · intro h
      have h0 := h 0 (by omega)
      have hlast := h ((valueRegCount v.type).toNat - 1) (by omega)
      omega
    · intro h i hi
      omega
  have hshift : ∀ u ∈ (if v.type = .bitmask then [Use.shift v.bit] else []), u.Ok blk := by
    split
    · rename_i htype
      simpa [Use.Ok] using (hacc.value v hv).bit htype
    · simp
  unfold writeUses
  simp only [List.forall_mem_append, request_addresses, hregs, forall_const]
  constructor
  · rintro ⟨⟨hin, -⟩, haddr⟩
    exact ⟨hin, (writeAddresses_ok hacc hint hin).mp haddr⟩
  · rintro ⟨hin, haddr⟩
    exact ⟨⟨hin, hshift⟩, (writeAddresses_ok hacc hint hin).mpr haddr⟩

theorem readBlockBits_inside (hacc : BlockAccepted blk) (hb : blk.regtype.isBit = true) :
    (∀ buf, (readBlockBits buf blk).All (Use.Ok blk)) ↔
      blk.addr + blk.count ≤ 0x10000 ∧ ∀ v ∈ blk.values, v.Inside blk := by
  rw [readBlockBits_ok hacc]
  refine and_congr_right fun _ => forall₂_congr fun v hv => ?_
  unfold SlaveVal.Inside
  rw [(hacc.value v hv).isBit.mp hb]
  simp only [valueRegCount]
  omega

theorem source_type (hacc : BlockAccepted blk) {v sf : SlaveVal} (hv : v ∈ blk.values)
    (hsf : blk.source v = some sf) : sf.type = .s16 ∧ sf.sfName = none := by
  rcases hacc.source_spec hv with h | ⟨-, sf', -, h, htype, hown⟩
  · rw [h] at hsf
    cases hsf
  · obtain rfl : sf' = sf := Option.some.inj (h.symm.trans hsf)
    exact ⟨htype, hown⟩

/-- **Safe access.** An accepted block is safe to access exactly if the register index of each value leaves
room for the addition in its check, and all that is requested or written ends within the address space. -/
theorem block_safe (slave idx : Nat) (head head' : List Ref) (cfg : BlockConf) (blk : Block)
    (h : blockConfigure slave idx head cfg = some (blk, head')) (hint : cfg.Ints) : blk.Safe ↔ blk.InRange := by
  have hacc := blockConfigure_accepted h
  obtain ⟨haddr, hregs⟩ := blockConfigure_ints h hint
  have hinside : ∀ v ∈ blk.values, v.Inside blk ↔ v.reg + valueRegCount v.type < 2 ^ 31 :=
    fun v hv => inside_iff hacc hv (hregs v hv)
  constructor
  · rintro ⟨h1, h2, h3, -⟩
    have hread : blk.dir = .input → blk.addr + blk.count ≤ 0x10000 ∧ ∀ v ∈ blk.values, v.Inside blk := by
      intro hdir
      cases hb : blk.regtype.isBit with
      | true => exact (readBlockBits_inside hacc hb).mp (h1 hdir hb)
      | false => exact (readBlockRegisters_ok hacc hb).mp (h2 hdir hb)
    have hwrite : blk.dir = .output → ∀ v ∈ blk.values,
        v.Inside blk ∧ blk.addr + v.reg + valueRegCount v.type ≤ 0x10000 :=
      fun hdir v hv => (writeUses_ok hacc haddr hv).mp (h3 hdir v hv)
    refine ⟨fun v hv => (hinside v hv).mp ?_, fun hdir => (hread hdir).1, fun hdir v hv => (hwrite hdir v hv).2⟩
    cases hdir : blk.dir with
    | input => exact (hread hdir).2 v hv
    | output => exact (hwrite hdir v hv).1
  · rintro ⟨h1, h2, h3⟩
    have hin : ∀ v ∈ blk.values, v.Inside blk := fun v hv => (hinside v hv).mpr (h1 v hv)
    exact ⟨fun hdir hb => (readBlockBits_inside hacc hb).mpr ⟨h2 hdir, hin⟩,
      fun hdir hb => (readBlockRegisters_ok hacc hb).mpr ⟨h2 hdir, hin⟩,
      fun hdir v hv => (writeUses_ok hacc haddr hv).mpr ⟨hin v hv, h3 hdir v hv⟩,
      fun v hv sf hsf => source_type hacc hv hsf⟩

/-! The largest index passes the check of an input, and so does an address beyond the address space. -/

def inputConf (addr reg : Int) : BlockConf where
  dir := some .input
  regtype := some .reg
  addr := addr
  count := 1
  values := [{ title := "a", reg := reg, type := some .u16 }]

theorem block_safe_in_range : ∃ blk head, blockConfigure 0 0 [] (inputConf 40000 0) = some (blk, head) ∧
    (blk.Safe ↔ blk.InRange) := by
  refine ⟨_, _, (Option.some_get (by decide +kernel)).symm, ?_⟩
  exact block_safe 0 0 [] _ (inputConf 40000 0) _ (Option.some_get (by decide +kernel)).symm (by decide)

theorem sum_wraps : (inputConf 0 0x7fffffff).Ints ∧ (inputConf 70000 0).Ints ∧
    (∃ blk head, blockConfigure 0 0 [] (inputConf 0 0x7fffffff) = some (blk, head) ∧ ¬ blk.Safe) ∧
    ∃ blk head, blockConfigure 0 0 [] (inputConf 70000 0) = some (blk, head) ∧ ¬ blk.Safe := by
  refine ⟨by decide, by decide, ⟨_, _, (Option.some_get (by decide +kernel)).symm, fun h => ?_⟩,
    _, _, (Option.some_get (by decide +kernel)).symm, fun h => ?_⟩
  · have hread := h.registers (by decide +kernel) (by decide +kernel) (fun _ => 0) (.reg 0x7fffffff)
        (by decide +kernel)
    exact absurd hread.2 (by decide +kernel)
  · have hread := h.registers (by decide +kernel) (by decide +kernel) (fun _ => 0) (.addr 70000) (by decide +kernel)
    exact absurd hread.2 (by decide +kernel)

end Uvrgw.Mb
