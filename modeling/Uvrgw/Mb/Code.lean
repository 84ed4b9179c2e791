import Mathlib.Data.Int.Log
import Mathlib.Data.List.Nodup
import Uvrgw.Lib.Decimal
import Uvrgw.Lib.Lists

/-!
# Modbus masters (`mb.c`)

Configuration and encoding of output values. An `int` of the configuration is an integer; where the
source adds two of them the sum wraps around.
-/

namespace Uvrgw.Mb

/-- `UVRGW_CONF_MB_REG_TYPE_*`. -/
inductive RegType where
  | inbit
  | bit
  | inreg
  | reg
  deriving DecidableEq, Repr

/-- `UVRGW_CONF_MB_TYPE_*`. -/
inductive ValType where
  | bit
  | s16
  | u16
  | bitmask
  | s32
  | u32
  | f32
  deriving DecidableEq, Repr

def RegType.isBit : RegType → Bool
  | inbit | bit => true
  | inreg | reg => false

def RegType.readOnly : RegType → Bool
  | inbit | inreg => true
  | bit | reg => false

def valueRegCount : ValType → Int
  | .s32 | .u32 | .f32 => 2
  | _ => 1

/-! ## Configuration -/

structure ValueConf where
  title : String
  reg : Int := -1
  type : Option ValType := none
  bit : Int := -1
  scale : ℚ := 1
  offset : ℚ := 0
  scaleFactor : Option String := none
  wordSwap : Bool := false
  deriving DecidableEq, Repr

structure BlockConf where
  dir : Option Dir := none
  regtype : Option RegType := none
  addr : Int := -1
  count : Int := -1
  sunspecNa : Bool := false
  expectReg : Int := -1
  expectValue : Int := -1
  values : List ValueConf := []
  deriving DecidableEq, Repr

structure SlaveConf where
  id : Int := -1
  interval : Int := 0
  blocks : List BlockConf := []
  deriving DecidableEq, Repr

/-- A `modbus_rtu` or `modbus_tcp` section. -/
structure MasterConf where
  tcp : Bool
  separationTime : Int := 0
  slaves : List SlaveConf := []
  deriving DecidableEq, Repr

/-- The address of an `MB_SLAVE_VAL_T`: the indexes of slave, block and value. -/
structure Ref where
  slave : Nat
  block : Nat
  value : Nat
  deriving DecidableEq, Repr

/-- The configured part of `MB_SLAVE_VAL_T`. -/
structure SlaveVal where
  name : String
  reg : Int
  type : ValType
  bit : Int
  scale : ℚ
  offset : ℚ
  wordSwap : Bool
  sfName : Option String
  /-- The index in the block. -/
  sfSource : Option Nat := none
  /-- The index in the block. -/
  bitmaskBase : Option Nat := none
  deriving DecidableEq, Repr

/-- The configured part of `MB_BLOCK_T`. -/
structure Block where
  dir : Dir
  regtype : RegType
  addr : Int
  count : Int
  sunspecNa : Bool
  expectReg : Int
  expectValue : Int
  values : List SlaveVal
  deriving DecidableEq, Repr

/-- The configured part of `MB_SLAVE_T`. -/
structure Slave where
  id : Int
  interval : Int
  blocks : List Block
  /-- The list from `value_out_head` on. -/
  valueOut : List Ref
  deriving DecidableEq, Repr

/-- The configured part of `MB_MASTER_T`. -/
structure Master where
  tcp : Bool
  separationTime : Int
  slaves : List Slave
  deriving DecidableEq, Repr

/-- The checks of `value_configure`. -/
def valueConfigure (dir : Dir) (regtype : RegType) (cfg : ValueConf) : Option SlaveVal := do
  let type ← cfg.type
  guard (regtype.isBit ↔ type = .bit)
  if type = .bitmask then
    guard (0 ≤ cfg.bit ∧ cfg.bit ≤ 15)
  else
    guard (cfg.bit < 0)
  guard (¬ (cfg.wordSwap ∧ valueRegCount type ≠ 2))
  if cfg.scaleFactor.isSome then
    guard (dir = .input)
    guard (type = .s16 ∨ type = .u16 ∨ type = .s32 ∨ type = .u32)
  guard (¬ (dir = .output ∧ cfg.scale = 0))
  return {
    name := cfg.title
    reg := cfg.reg
    type := type
    bit := cfg.bit
    scale := cfg.scale
    offset := cfg.offset
    wordSwap := cfg.wordSwap
    sfName := cfg.scaleFactor }

/-- `MODBUS_MAX_*` of libmodbus. -/
def maxCount (dir : Dir) (regtype : RegType) : Int :=
  match regtype.isBit, dir with
  | true, .input => 2000
  | true, .output => 1968
  | false, .input => 125
  | false, .output => 123

/-- The first bitmask value at the same register. -/
def bitmaskBase (values : List SlaveVal) (v : SlaveVal) : Option Nat :=
  if v.type = .bitmask then values.findIdx? fun w => w.reg = v.reg && w.type = .bitmask else none

def scaleFactorSource (values : List SlaveVal) (v : SlaveVal) : Option (Option Nat) :=
  match v.sfName with
  | none => some none
  | some name => do
    let i ← values.findIdx? (·.name = name)
    let sf ← values[i]?
    guard (sf.sfName = none)
    guard (sf.type = .s16)
    return some i

/-- `block_configure`: the block and the new `value_out_head`. -/
def blockConfigure (slave idx : Nat) (head : List Ref) (cfg : BlockConf) : Option (Block × List Ref) := do
  guard (¬ cfg.addr < 0)
  let dir ← cfg.dir
  let regtype ← cfg.regtype
  guard (0 < cfg.count)
  guard (¬ (dir = .output ∧ regtype.readOnly))
  guard (¬ ((cfg.sunspecNa ∨ 0 ≤ cfg.expectReg ∨ 0 ≤ cfg.expectValue) ∧ (dir ≠ .input ∨ regtype.isBit)))
  guard (0 ≤ cfg.expectReg ↔ 0 ≤ cfg.expectValue)
  guard (¬ (cfg.count ≤ cfg.expectReg ∨ 0xffff < cfg.expectValue))
  guard (cfg.count ≤ maxCount dir regtype)
  let values ← cfg.values.mapM (valueConfigure dir regtype)
  guard (values.all fun v => 0 ≤ v.reg && addInt v.reg (valueRegCount v.type) ≤ cfg.count)
  let values ← values.mapM fun v => do
    let source ← scaleFactorSource values v
    return { v with sfSource := source, bitmaskBase := bitmaskBase values v }
  let block := {
    dir := dir
    regtype := regtype
    addr := cfg.addr
    count := cfg.count
    sunspecNa := cfg.sunspecNa
    expectReg := cfg.expectReg
    expectValue := cfg.expectValue
    values := values }
  if dir = .output then
    return (block, (List.range values.length).foldl (fun head i => ⟨slave, idx, i⟩ :: head) head)
  else
    return (block, head)

def idValid (tcp : Bool) (id : Int) : Bool :=
  if tcp then (0 ≤ id && id ≤ 247) || id == 255 else 1 ≤ id && id ≤ 247

def blocksConfigure (slave : Nat) : Nat → List Ref → List BlockConf → Option (List Block × List Ref)
  | _, head, [] => some ([], head)
  | idx, head, cfg :: cfgs => do
    let (block, head) ← blockConfigure slave idx head cfg
    let (blocks, head) ← blocksConfigure slave (idx + 1) head cfgs
    return (block :: blocks, head)

def slaveConfigure (tcp : Bool) (slave : Nat) (cfg : SlaveConf) : Option Slave := do
  guard (idValid tcp cfg.id)
  guard (0 < cfg.interval)
  let (blocks, head) ← blocksConfigure slave 0 [] cfg.blocks
  return { id := cfg.id, interval := cfg.interval, blocks := blocks, valueOut := head }

def masterConfigure (cfg : MasterConf) : Option Master := do
  let slaves ← cfg.slaves.zipIdx.mapM fun (cfg', i) => slaveConfigure cfg.tcp i cfg'
  return { tcp := cfg.tcp, separationTime := cfg.separationTime, slaves := slaves }

def Master.block? (m : Master) (r : Ref) : Option Block :=
  m.slaves[r.slave]? >>= (·.blocks[r.block]?)

def Master.val? (m : Master) (r : Ref) : Option SlaveVal := m.block? r >>= (·.values[r.value]?)

/-! ## Encoding -/

/-- The conversion to `float`, as its bit pattern. -/
def toF32 (q : ℚ) : BitVec 32 :=
  if q = 0 then 0
  else
    let e := max (Int.log 2 |q|) (-126)
    let m := Lib.roundHalfEven (|q| * 2 ^ (23 - e))
    let bits := min ((e + 126).toNat * 2 ^ 23 + m.toNat) 0x7f800000
    (if q < 0 then 1 else 0) <<< 31 ||| BitVec.ofNat 32 bits

/-- A write request of libmodbus. -/
inductive Request where
  | writeBit (addr : Int) (status : Bool)
  | writeRegister (addr : Int) (value : BitVec 16)
  | writeRegisters (addr : Int) (src : List (BitVec 16))
  deriving DecidableEq, Repr

def setU32 (v : SlaveVal) (x : BitVec 32) : List (BitVec 16) :=
  let hi := (x >>> 16).setWidth 16
  let lo := x.setWidth 16
  if v.wordSwap then [lo, hi] else [hi, lo]

theorem length_setU32 (v : SlaveVal) (x : BitVec 32) : (setU32 v x).length = 2 := by
  unfold setU32
  dsimp only
  split <;> rfl

/-- The integer that an output of an integer type is written as. -/
def SlaveVal.raw (v : SlaveVal) (f : ℚ) (min max : Int) : Int :=
  utlValLimit (cRound ((f - v.offset) / v.scale)) min max

def setBit (buf : BitVec 16) (bit : Int) (on : Bool) : BitVec 16 :=
  if on then buf ||| (1 <<< bit.toNat) else buf &&& ~~~((1 : BitVec 16) <<< bit.toNat)

/-- The `switch` of `write_execute`: the request, and the register image after it. -/
def SlaveVal.request (v : SlaveVal) (blockAddr : Int) (buf : BitVec 16) (f : ℚ) : Request × BitVec 16 :=
  let addr := addInt blockAddr v.reg
  match v.type with
  | .bit => (.writeBit addr (1 / 2 < f), buf)
  | .s16 => (.writeRegister addr (BitVec.ofInt 16 (v.raw f (-2 ^ 15) (2 ^ 15 - 1))), buf)
  | .u16 => (.writeRegister addr (BitVec.ofInt 16 (v.raw f 0 (2 ^ 16 - 1))), buf)
  | .s32 => (.writeRegisters addr (setU32 v (BitVec.ofInt 32 (v.raw f (-2 ^ 31) (2 ^ 31 - 1)))), buf)
  | .u32 => (.writeRegisters addr (setU32 v (BitVec.ofInt 32 (v.raw f 0 (2 ^ 32 - 1)))), buf)
  | .f32 => (.writeRegisters addr (setU32 v (toF32 ((f - v.offset) / v.scale))), buf)
  | .bitmask =>
    let buf := setBit buf v.bit (1 / 2 < f)
    (.writeRegister addr buf, buf)

/-! ## What is accepted -/

/-- `l` lists values of one block, or of blocks from `idx` on. -/
structure Outputs (slave idx : Nat) (blocks : List Block) (l : List Ref) : Prop where
  nodup : l.Nodup
  slave : ∀ r ∈ l, r.slave = slave
  found : ∀ r ∈ l, idx ≤ r.block ∧ ∃ blk, blocks[r.block - idx]? = some blk ∧ r.value < blk.values.length

theorem foldl_push (slave idx : Nat) (l : List Nat) (head : List Ref) :
    l.foldl (fun head i => ⟨slave, idx, i⟩ :: head) head = (l.map (⟨slave, idx, ·⟩)).reverse ++ head := by
  induction l generalizing head with
  | nil => rfl
  | cons i l ih => simp [ih]

theorem blockConfigure_outputs {slave idx : Nat} {head head' : List Ref} {cfg : BlockConf} {blk : Block}
    (h : blockConfigure slave idx head cfg = some (blk, head')) :
    ∃ l, head' = l ++ head ∧ Outputs slave idx [blk] l ∧ ∀ r ∈ l, r.block = idx := by
  simp only [blockConfigure, Option.bind_eq_bind, Option.bind_eq_some_iff, Option.pure_def] at h
  obtain ⟨-, -, dir, -, regtype, -, -, -, -, -, -, -, -, -, -, -, -, -, values, -, -, -, vals, -, h⟩ := h
  split at h
  · simp only [Option.some.injEq, Prod.mk.injEq] at h
    obtain ⟨rfl, rfl⟩ := h
    refine ⟨_, foldl_push slave idx _ head, ⟨?_, fun r hr => ?_, fun r hr => ?_⟩, fun r hr => ?_⟩
    · rw [List.nodup_reverse]
      refine List.Nodup.map ?_ List.nodup_range
      intro i j hij
      simpa using hij
    · obtain ⟨i, -, rfl⟩ := List.mem_map.mp (List.mem_reverse.mp hr)
      rfl
    · obtain ⟨i, hi, rfl⟩ := List.mem_map.mp (List.mem_reverse.mp hr)
      refine ⟨le_refl idx, ?_⟩
      dsimp only
      rw [Nat.sub_self]
      exact ⟨_, rfl, List.mem_range.mp hi⟩
    · obtain ⟨i, -, rfl⟩ := List.mem_map.mp (List.mem_reverse.mp hr)
      rfl
  · simp only [Option.some.injEq, Prod.mk.injEq] at h
    obtain ⟨rfl, rfl⟩ := h
    exact ⟨[], rfl, ⟨List.nodup_nil, by simp, by simp⟩, by simp⟩

theorem blocksConfigure_outputs {slave idx : Nat} {head head' : List Ref} {cfgs : List BlockConf}
    {blocks : List Block} (h : blocksConfigure slave idx head cfgs = some (blocks, head')) :
    ∃ l, head' = l ++ head ∧ Outputs slave idx blocks l := by
  induction cfgs generalizing idx head blocks with
  | nil =>
    simp only [blocksConfigure, Option.some.injEq, Prod.mk.injEq] at h
    obtain ⟨rfl, rfl⟩ := h
    exact ⟨[], rfl, List.nodup_nil, by simp, by simp⟩
  | cons cfg cfgs ih =>
    simp only [blocksConfigure, Option.bind_eq_bind, Option.bind_eq_some_iff, Option.pure_def,
      Option.some.injEq, Prod.mk.injEq] at h
    obtain ⟨⟨blk, head₁⟩, hblk, ⟨blocks', head₂⟩, hblocks, rfl, rfl⟩ := h
    obtain ⟨l₁, rfl, h₁, hidx⟩ := blockConfigure_outputs hblk
    obtain ⟨l₂, rfl, h₂⟩ := ih hblocks
    refine ⟨l₂ ++ l₁, (List.append_assoc ..).symm, ⟨?_, fun r hr => ?_, fun r hr => ?_⟩⟩
    · refine List.Nodup.append h₂.nodup h₁.nodup fun r hr₂ hr₁ => ?_
      have := (h₂.found r hr₂).1
      have := hidx r hr₁
      omega
    · rcases List.mem_append.mp hr with hr | hr
      · exact h₂.slave r hr
      · exact h₁.slave r hr
    · rcases List.mem_append.mp hr with hr | hr
      · obtain ⟨hle, blk', hget, hval⟩ := h₂.found r hr
        refine ⟨by omega, blk', ?_, hval⟩
        rw [show r.block - idx = (r.block - (idx + 1)) + 1 by omega]
        simpa using hget
      · obtain ⟨hle, blk', hget, hval⟩ := h₁.found r hr
        have := hidx r hr
        refine ⟨hle, blk', ?_, hval⟩
        rw [show r.block - idx = 0 by omega] at hget ⊢
        simpa using hget

/-- A configured master. -/
structure Accepted (m : Master) : Prop where
  ids : ∀ slave ∈ m.slaves, idValid m.tcp slave.id = true
  interval : ∀ slave ∈ m.slaves, 0 < slave.interval
  outputs : ∀ i slave, m.slaves[i]? = some slave → Outputs i 0 slave.blocks slave.valueOut

theorem masterConfigure_accepted {cfg : MasterConf} {m : Master} (h : masterConfigure cfg = some m) :
    Accepted m := by
  simp only [masterConfigure, Option.bind_eq_bind, Option.bind_eq_some_iff, Option.pure_def,
    Option.some.injEq] at h
  obtain ⟨slaves, hslaves, rfl⟩ := h
  have hget : ∀ i slave, slaves[i]? = some slave →
      idValid cfg.tcp slave.id = true ∧ 0 < slave.interval ∧ Outputs i 0 slave.blocks slave.valueOut := by
    intro i slave hi
    obtain ⟨⟨cfg', j⟩, hcfg, hslave⟩ := Lib.getElem?_mapM hslaves hi
    obtain rfl : i = j := by
      rw [List.getElem?_zipIdx, Option.map_eq_some_iff] at hcfg
      obtain ⟨_, -, heq⟩ := hcfg
      simpa using congrArg Prod.snd heq
    simp only [slaveConfigure, Option.bind_eq_bind, Option.bind_eq_some_iff, Option.pure_def,
      Option.some.injEq, Option.guard_eq_some'] at hslave
    obtain ⟨-, hid, -, hint, ⟨blocks, head⟩, hblocks, rfl⟩ := hslave
    obtain ⟨l, hl, hout⟩ := blocksConfigure_outputs hblocks
    obtain rfl : head = l := by simpa using hl
    exact ⟨hid, hint, hout⟩
  refine ⟨fun slave hs => ?_, fun slave hs => ?_, fun i slave hi => (hget i slave hi).2.2⟩
  · obtain ⟨i, hi⟩ := List.mem_iff_getElem?.mp hs
    exact (hget i slave hi).1
  · obtain ⟨i, hi⟩ := List.mem_iff_getElem?.mp hs
    exact (hget i slave hi).2.1

end Uvrgw.Mb
