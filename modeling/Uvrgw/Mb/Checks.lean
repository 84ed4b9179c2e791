import Uvrgw.Mb.Code

/-!
# What the checks of a block establish (`value_configure`, `block_configure`)
-/

namespace Uvrgw.Mb

/-- A value that passed the checks in a block of this direction and register type. -/
structure ValueAccepted (dir : Dir) (regtype : RegType) (v : SlaveVal) : Prop where
  isBit : regtype.isBit = true ↔ v.type = .bit
  bit : v.type = .bitmask → 0 ≤ v.bit ∧ v.bit ≤ 15
  noBit : v.type ≠ .bitmask → v.bit < 0
  wordSwap : v.wordSwap = true → valueRegCount v.type = 2
  scaleFactor : v.sfName ≠ none → dir = .input ∧ (v.type = .s16 ∨ v.type = .u16 ∨ v.type = .s32 ∨ v.type = .u32)
  scale : dir = .output → v.scale ≠ 0

/-- A block that passed the checks, with its references resolved. -/
structure BlockAccepted (blk : Block) : Prop where
  addr : 0 ≤ blk.addr
  count : 0 < blk.count ∧ blk.count ≤ maxCount blk.dir blk.regtype
  writable : blk.dir = .output → blk.regtype.readOnly = false
  expect : 0 ≤ blk.expectReg ↔ 0 ≤ blk.expectValue
  expectReg : blk.expectReg < blk.count
  expectValue : blk.expectValue ≤ 0xffff
  checked : blk.sunspecNa = true ∨ 0 ≤ blk.expectReg → blk.dir = .input ∧ blk.regtype.isBit = false
  value : ∀ v ∈ blk.values, ValueAccepted blk.dir blk.regtype v
  reg : ∀ v ∈ blk.values, 0 ≤ v.reg ∧ addInt v.reg (valueRegCount v.type) ≤ blk.count
  source : ∀ v ∈ blk.values, v.sfName = none ∧ v.sfSource = none ∨
    ∃ i sf, v.sfSource = some i ∧ blk.values[i]? = some sf ∧ v.sfName = some sf.name ∧ sf.sfName = none ∧
      sf.type = .s16
  base : ∀ v ∈ blk.values, v.bitmaskBase = bitmaskBase blk.values v

section Guards

variable {α : Type} {c p q : Prop} [Decidable c] [Decidable p] [Decidable q] {k : Unit → Option α} {a : α}

theorem guard_either (h : (if c then Option.bind (guard p) k else Option.bind (guard q) k) = some a) :
    (c → p) ∧ (¬ c → q) ∧ k () = some a := by
  split at h
  · rename_i hc
    obtain ⟨_, hp, h⟩ := Option.bind_eq_some_iff.mp h
    exact ⟨fun _ => by simpa using hp, fun hn => absurd hc hn, h⟩
  · rename_i hc
    obtain ⟨_, hq, h⟩ := Option.bind_eq_some_iff.mp h
    exact ⟨fun h => absurd h hc, fun _ => by simpa using hq, h⟩

theorem guard_when
    (h : (if c then Option.bind (guard p) fun _ => Option.bind (guard q) k else k ()) = some a) :
    (c → p ∧ q) ∧ k () = some a := by
  split at h
  · obtain ⟨_, hp, h⟩ := Option.bind_eq_some_iff.mp h
    obtain ⟨_, hq, h⟩ := Option.bind_eq_some_iff.mp h
    exact ⟨fun _ => ⟨by simpa using hp, by simpa using hq⟩, h⟩
  · rename_i hc
    exact ⟨fun h => absurd h hc, h⟩

end Guards

theorem valueConfigure_accepted {dir : Dir} {regtype : RegType} {cfg : ValueConf} {v : SlaveVal}
    (h : valueConfigure dir regtype cfg = some v) :
    ValueAccepted dir regtype v ∧ v.reg = cfg.reg ∧ v.sfSource = none ∧ v.bitmaskBase = none := by
  simp only [valueConfigure, Option.bind_eq_bind, Option.pure_def] at h
  obtain ⟨type, -, h⟩ := Option.bind_eq_some_iff.mp h
  obtain ⟨_, hbit, h⟩ := Option.bind_eq_some_iff.mp h
  obtain ⟨hmask, hnone, h⟩ := guard_either h
  obtain ⟨_, hswap, h⟩ := Option.bind_eq_some_iff.mp h
  obtain ⟨hsf, h⟩ := guard_when h
  obtain ⟨_, hscale, h⟩ := Option.bind_eq_some_iff.mp h
  simp only [Option.guard_eq_some'] at hbit hswap hscale
  cases h
  refine ⟨⟨hbit, hmask, hnone, fun hw => ?_, fun hne => hsf (Option.isSome_iff_ne_none.mpr hne), ?_⟩, rfl, rfl, rfl⟩
  · by_contra h2
    exact hswap ⟨hw, h2⟩
  · intro hout hz
    exact hscale ⟨hout, hz⟩

def SlaveVal.unresolved (v : SlaveVal) : SlaveVal := { v with sfSource := none, bitmaskBase := none }

theorem bitmaskBase_unresolved (values : List SlaveVal) (v : SlaveVal) :
    bitmaskBase (values.map SlaveVal.unresolved) v.unresolved = bitmaskBase values v := by
  unfold bitmaskBase
  rw [List.findIdx?_map]
  rfl

theorem scaleFactorSource_unresolved {values : List SlaveVal} {v : SlaveVal} {source : Option Nat}
    (h : scaleFactorSource (values.map SlaveVal.unresolved) v.unresolved = some source) :
    v.sfName = none ∧ source = none ∨
      ∃ i sf, source = some i ∧ values[i]? = some sf ∧ v.sfName = some sf.name ∧ sf.sfName = none ∧
        sf.type = .s16 := by
  unfold scaleFactorSource at h
  cases hname : v.sfName with
  | none =>
    rw [show v.unresolved.sfName = none from hname] at h
    exact .inl ⟨rfl, (Option.some.inj h).symm⟩
  | some name =>
    rw [show v.unresolved.sfName = some name from hname] at h
    simp only [List.findIdx?_map, List.getElem?_map, Option.bind_eq_bind, Option.bind_eq_some_iff,
      Option.map_eq_some_iff, Option.guard_eq_some', Option.pure_def, Option.some.injEq] at h
    obtain ⟨i, hi, _, ⟨sf, hsf, rfl⟩, -, hnone, -, htype, rfl⟩ := h
    obtain ⟨hlt, hfound, -⟩ := List.findIdx?_eq_some_iff_getElem.mp hi
    obtain rfl : values[i] = sf := by simpa [List.getElem?_eq_getElem hlt] using hsf
    have heq : values[i].name = name := of_decide_eq_true hfound
    exact .inr ⟨i, _, rfl, hsf, by rw [heq], hnone, htype⟩

theorem blockConfigure_accepted {slave idx : Nat} {head head' : List Ref} {cfg : BlockConf} {blk : Block}
    (h : blockConfigure slave idx head cfg = some (blk, head')) : BlockAccepted blk := by
  simp only [blockConfigure, Option.bind_eq_bind, Option.bind_eq_some_iff, Option.pure_def,
    Option.guard_eq_some'] at h
  obtain ⟨-, haddr, dir, -, regtype, -, -, hcount, -, hwrite, -, hcheck, -, hexpect, -, hrange, -, hmax,
    confs, hconfs, -, hreg, values, hvalues, h⟩ := h
  have hblk : blk = Block.mk dir regtype cfg.addr cfg.count cfg.sunspecNa cfg.expectReg cfg.expectValue values := by
    split at h
    · exact (congrArg Prod.fst (Option.some.inj h)).symm
    · exact (congrArg Prod.fst (Option.some.inj h)).symm
  subst hblk
  have hplain : ∀ w ∈ confs, ValueAccepted dir regtype w ∧ w.unresolved = w := by
    intro w hw
    obtain ⟨cfg', -, hw⟩ := Lib.mem_of_mapM hconfs hw
    obtain ⟨hacc, -, hsource, hbase⟩ := valueConfigure_accepted hw
    refine ⟨hacc, ?_⟩
    cases w
    cases hsource
    cases hbase
    rfl
  have hlink : ∀ w v, ((scaleFactorSource confs w).bind fun source =>
      some { w with sfSource := source, bitmaskBase := bitmaskBase confs w }) = some v →
      w.unresolved = v.unresolved ∧ scaleFactorSource confs w = some v.sfSource ∧
        v.bitmaskBase = bitmaskBase confs w := by
    intro w v hv
    obtain ⟨source, hsource, hv⟩ := Option.bind_eq_some_iff.mp hv
    cases hv
    exact ⟨rfl, hsource, rfl⟩
  have hconf : confs = values.map SlaveVal.unresolved := by
    have hsame : confs.map SlaveVal.unresolved = values.map SlaveVal.unresolved := by
      rw [← List.forall₂_eq_eq_eq, List.forall₂_map_left_iff, List.forall₂_map_right_iff]
      exact (Lib.mapM_eq_some.mp hvalues).imp fun w v hv => (hlink w v hv).1
    rw [← hsame, List.map_congr_left fun w hw => (hplain w hw).2, List.map_id']
  have hval : ∀ v ∈ values, v.unresolved ∈ confs ∧ scaleFactorSource confs v.unresolved = some v.sfSource ∧
      v.bitmaskBase = bitmaskBase confs v.unresolved := by
    intro v hv
    obtain ⟨w, hw, hv⟩ := Lib.mem_of_mapM hvalues hv
    obtain ⟨heq, h⟩ := hlink w v hv
    rw [(hplain w hw).2] at heq
    exact heq ▸ ⟨hw, h⟩
  rw [hconf] at hval hreg hplain
  simp only [List.all_map, List.all_eq_true, Function.comp, Bool.and_eq_true, decide_eq_true_eq] at hreg
  refine ⟨by simpa using haddr, ⟨hcount, hmax⟩, by simpa using hwrite, hexpect,
    by simp at hrange ⊢; omega, by simp at hrange ⊢; omega, fun hc => ?_, fun v hv => ?_, fun v hv => hreg v hv,
    fun v hv => scaleFactorSource_unresolved (hval v hv).2.1, fun v hv => ?_⟩
  · simp only [not_and, not_or, not_not, Bool.not_eq_true] at hcheck
    exact hcheck (hc.imp_right .inl)
  · obtain ⟨h1, h2, h3, h4, h5, h6⟩ := (hplain _ (hval v hv).1).1
    exact ⟨h1, h2, h3, h4, h5, h6⟩
  · rw [(hval v hv).2.2]
    exact bitmaskBase_unresolved values v

theorem blockConfigure_numbers {slave idx : Nat} {head head' : List Ref} {cfg : BlockConf} {blk : Block}
    (h : blockConfigure slave idx head cfg = some (blk, head')) :
    blk.addr = cfg.addr ∧ ∀ v ∈ blk.values, ∃ cfg' ∈ cfg.values, v.reg = cfg'.reg := by
  simp only [blockConfigure, Option.bind_eq_bind, Option.bind_eq_some_iff, Option.pure_def] at h
  obtain ⟨-, -, dir, -, regtype, -, -, -, -, -, -, -, -, -, -, -, -, -, confs, hconfs, -, -, values, hvalues, h⟩ := h
  have hnumbers : blk.addr = cfg.addr ∧ blk.values = values := by
    split at h
    · cases h
      exact ⟨rfl, rfl⟩
    · cases h
      exact ⟨rfl, rfl⟩
  refine ⟨hnumbers.1, fun v hv => ?_⟩
  rw [hnumbers.2] at hv
  obtain ⟨w, hw, hv⟩ := Lib.mem_of_mapM hvalues hv
  obtain ⟨source, -, hv⟩ := Option.bind_eq_some_iff.mp hv
  obtain ⟨cfg', hcfg', hw⟩ := Lib.mem_of_mapM hconfs hw
  cases hv
  exact ⟨cfg', hcfg', (valueConfigure_accepted hw).2.1⟩

/-! ## Numbers of the configuration -/

def IsInt (x : Int) : Prop := -2 ^ 31 ≤ x ∧ x < 2 ^ 31

instance : DecidablePred IsInt := fun x => inferInstanceAs (Decidable (-2 ^ 31 ≤ x ∧ x < 2 ^ 31))

structure BlockConf.Ints (cfg : BlockConf) : Prop where
  addr : IsInt cfg.addr
  count : IsInt cfg.count
  expectReg : IsInt cfg.expectReg
  expectValue : IsInt cfg.expectValue
  values : ∀ v ∈ cfg.values, IsInt v.reg ∧ IsInt v.bit

def MasterConf.Ints (cfg : MasterConf) : Prop :=
  ∀ slave ∈ cfg.slaves, IsInt slave.id ∧ IsInt slave.interval ∧ ∀ blk ∈ slave.blocks, blk.Ints

instance : DecidablePred BlockConf.Ints := fun cfg =>
  decidable_of_iff (IsInt cfg.addr ∧ IsInt cfg.count ∧ IsInt cfg.expectReg ∧ IsInt cfg.expectValue ∧
      ∀ v ∈ cfg.values, IsInt v.reg ∧ IsInt v.bit)
    ⟨fun ⟨h1, h2, h3, h4, h5⟩ => ⟨h1, h2, h3, h4, h5⟩, fun ⟨h1, h2, h3, h4, h5⟩ => ⟨h1, h2, h3, h4, h5⟩⟩

instance : DecidablePred MasterConf.Ints := fun cfg => inferInstanceAs
  (Decidable (∀ slave ∈ cfg.slaves, IsInt slave.id ∧ IsInt slave.interval ∧ ∀ blk ∈ slave.blocks, blk.Ints))

theorem blockConfigure_ints {slave idx : Nat} {head head' : List Ref} {cfg : BlockConf} {blk : Block}
    (h : blockConfigure slave idx head cfg = some (blk, head')) (hint : cfg.Ints) :
    IsInt blk.addr ∧ ∀ v ∈ blk.values, IsInt v.reg := by
  obtain ⟨haddr, hreg⟩ := blockConfigure_numbers h
  refine ⟨haddr ▸ hint.addr, fun v hv => ?_⟩
  obtain ⟨cfg', hcfg', heq⟩ := hreg v hv
  exact heq ▸ (hint.values cfg' hcfg').1

/-! ## Every block of a master -/

theorem mem_blocksConfigure {slave idx : Nat} {head head' : List Ref} {cfgs : List BlockConf} {blocks : List Block}
    (h : blocksConfigure slave idx head cfgs = some (blocks, head')) {blk : Block} (hblk : blk ∈ blocks) :
    ∃ idx' head₁ head₂, ∃ cfg ∈ cfgs, blockConfigure slave idx' head₁ cfg = some (blk, head₂) := by
  induction cfgs generalizing idx head blocks with
  | nil =>
    simp only [blocksConfigure, Option.some.injEq, Prod.mk.injEq] at h
    simp [← h.1] at hblk
  | cons cfg cfgs ih =>
    simp only [blocksConfigure, Option.bind_eq_bind, Option.bind_eq_some_iff, Option.pure_def,
      Option.some.injEq, Prod.mk.injEq] at h
    obtain ⟨⟨blk', head₁⟩, hconf, ⟨blocks', head₂⟩, hblocks, rfl, rfl⟩ := h
    rcases List.mem_cons.mp hblk with rfl | hblk
    · exact ⟨idx, head, head₁, cfg, List.mem_cons_self .., hconf⟩
    · obtain ⟨idx', h₁, h₂, cfg', hcfg', hconf⟩ := ih hblocks hblk
      exact ⟨idx', h₁, h₂, cfg', List.mem_cons_of_mem _ hcfg', hconf⟩

theorem masterConfigure_block {cfg : MasterConf} {m : Master} (h : masterConfigure cfg = some m) {r : Ref}
    {blk : Block} (hblk : m.block? r = some blk) :
    ∃ slave ∈ cfg.slaves, ∃ cfg' ∈ slave.blocks, ∃ idx head₁ head₂,
      blockConfigure r.slave idx head₁ cfg' = some (blk, head₂) := by
  simp only [masterConfigure, Option.bind_eq_bind, Option.bind_eq_some_iff, Option.pure_def,
    Option.some.injEq] at h
  obtain ⟨slaves, hslaves, rfl⟩ := h
  obtain ⟨slave, hslave, hblk⟩ := Option.bind_eq_some_iff.mp hblk
  obtain ⟨⟨cfg', j⟩, hzip, hconf⟩ := Lib.getElem?_mapM hslaves hslave
  obtain ⟨hcfg', rfl⟩ : cfg' ∈ cfg.slaves ∧ r.slave = j := by
    rw [List.getElem?_zipIdx, Option.map_eq_some_iff] at hzip
    obtain ⟨c, hc, heq⟩ := hzip
    cases heq
    exact ⟨List.mem_of_getElem? hc, by simp⟩
  simp only [slaveConfigure, Option.bind_eq_bind, Option.bind_eq_some_iff, Option.pure_def,
    Option.some.injEq, Option.guard_eq_some'] at hconf
  obtain ⟨-, -, -, -, ⟨blocks, head⟩, hblocks, rfl⟩ := hconf
  obtain ⟨idx, h₁, h₂, bcfg, hbcfg, hb⟩ := mem_blocksConfigure hblocks (List.mem_of_getElem? hblk)
  exact ⟨cfg', hcfg', bcfg, hbcfg, idx, h₁, h₂, hb⟩

theorem blocksConfigure_dir {slave idx : Nat} {head head' : List Ref} {cfgs : List BlockConf} {blocks : List Block}
    (h : blocksConfigure slave idx head cfgs = some (blocks, head')) :
    ∀ r ∈ head', r ∈ head ∨ idx ≤ r.block ∧ ∃ blk, blocks[r.block - idx]? = some blk ∧ blk.dir = .output := by
  induction cfgs generalizing idx head blocks with
  | nil =>
    simp only [blocksConfigure, Option.some.injEq, Prod.mk.injEq] at h
    obtain ⟨-, rfl⟩ := h
    exact fun r hr => .inl hr
  | cons cfg cfgs ih =>
    simp only [blocksConfigure, Option.bind_eq_bind, Option.bind_eq_some_iff, Option.pure_def,
      Option.some.injEq, Prod.mk.injEq] at h
    obtain ⟨⟨blk, head₁⟩, hblk, ⟨blocks', head₂⟩, hblocks, rfl, rfl⟩ := h
    intro r hr
    rcases ih hblocks r hr with hr | ⟨hle, blk', hget, hdir⟩
    · simp only [blockConfigure, Option.bind_eq_bind, Option.bind_eq_some_iff, Option.pure_def] at hblk
      obtain ⟨-, -, dir, -, regtype, -, -, -, -, -, -, -, -, -, -, -, -, -, -, -, -, -, values, -, hblk⟩ := hblk
      split at hblk
      · rename_i hout
        cases hblk
        rw [foldl_push, List.mem_append, List.mem_reverse, List.mem_map] at hr
        rcases hr with ⟨i, -, rfl⟩ | hr
        · exact .inr ⟨le_refl idx, by simpa using hout⟩
        · exact .inl hr
      · cases hblk
        exact .inl hr
    · refine .inr ⟨by omega, blk', ?_, hdir⟩
      rw [show r.block - idx = (r.block - (idx + 1)) + 1 by omega]
      simpa using hget

theorem masterConfigure_dir {cfg : MasterConf} {m : Master} (h : masterConfigure cfg = some m) {slave : Slave}
    (hslave : slave ∈ m.slaves) {r : Ref} (hr : r ∈ slave.valueOut) {blk : Block}
    (hblk : slave.blocks[r.block]? = some blk) : blk.dir = .output := by
  simp only [masterConfigure, Option.bind_eq_bind, Option.bind_eq_some_iff, Option.pure_def,
    Option.some.injEq] at h
  obtain ⟨slaves, hslaves, rfl⟩ := h
  obtain ⟨⟨cfg', j⟩, -, hconf⟩ := Lib.mem_of_mapM hslaves hslave
  simp only [slaveConfigure, Option.bind_eq_bind, Option.bind_eq_some_iff, Option.pure_def,
    Option.some.injEq, Option.guard_eq_some'] at hconf
  obtain ⟨-, -, -, -, ⟨blocks, head⟩, hblocks, rfl⟩ := hconf
  rcases blocksConfigure_dir hblocks r hr with hr | ⟨-, blk', hblk', hdir⟩
  · cases hr
  · obtain rfl : blk' = blk := Option.some.inj (hblk'.symm.trans hblk)
    exact hdir

/-! ## The owner of a register image -/

theorem bitmaskBase_isSome {values : List SlaveVal} {v : SlaveVal} (hv : v ∈ values) (htype : v.type = .bitmask) :
    ∃ i, bitmaskBase values v = some i := by
  unfold bitmaskBase
  rw [if_pos htype, ← Option.isSome_iff_exists, List.findIdx?_isSome, List.any_eq_true]
  exact ⟨v, hv, by simp [htype]⟩

theorem bitmaskBase_spec {values : List SlaveVal} {v : SlaveVal} {i : Nat} (h : bitmaskBase values v = some i) :
    v.type = .bitmask ∧ ∃ w, values[i]? = some w ∧ w.reg = v.reg ∧ w.type = .bitmask := by
  unfold bitmaskBase at h
  split at h
  · rename_i htype
    obtain ⟨hlt, hfound, -⟩ := List.findIdx?_eq_some_iff_getElem.mp h
    exact ⟨htype, _, List.getElem?_eq_getElem hlt, by simpa using hfound⟩
  · cases h

theorem bitmaskBase_congr (values : List SlaveVal) {v w : SlaveVal} (hv : v.type = .bitmask)
    (hw : w.type = .bitmask) (hreg : v.reg = w.reg) : bitmaskBase values v = bitmaskBase values w := by
  unfold bitmaskBase
  rw [if_pos hv, if_pos hw, hreg]

end Uvrgw.Mb
