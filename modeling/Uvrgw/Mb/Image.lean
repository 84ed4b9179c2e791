import Mathlib.Data.List.Induction
import Uvrgw.Mb.Checks
import Uvrgw.Mb.Fairness

/-!
# The register image of bitmask outputs (`write_execute`)

Bitmask outputs of one block at one register share the image of the first of them; outputs of different blocks
do not.
-/

namespace Uvrgw.Mb

open Uvrgw.Lib

/-! ## Calls -/

/-- `write_execute` up to the end of its first critical section. -/
def writeBegin (r : Ref) (s : State) : State :=
  let o := s.outs r
  let s := s.setOut r { o with writePending := false }
  if o.writePending then { s with pc := .executing r o.writeValue } else s

inductive Call where
  /-- `write_schedule`, by any thread. -/
  | schedule (r : Ref) (f : ℚ)
  | execute (r : Ref)
  /-- The rest of `write_execute`. -/
  | finish (env : WriteEnv)
  deriving DecidableEq, Repr

/-- The calls of `write_schedule` and `write_execute` in any order. -/
def callStep (setSlave : Bool → Int → Bool) (m : Master) (s : State) : Call → Option State
  | .schedule r f => if r ∈ m.outputs then some (writeSchedule r f s) else none
  | .execute r => if r ∈ m.outputs ∧ s.pc = .idle then some (writeBegin r s) else none
  | .finish env =>
    match s.pc with
    | .executing r f => do
      let slave ← m.slaves[r.slave]?
      let blk ← m.block? r
      let v ← m.val? r
      return writeFinish setSlave m slave blk v r f env s
    | _ => none

/-! ## Registers -/

/-- A holding register: the id of the slave and the address. -/
structure Register where
  id : Int
  addr : Int
  deriving DecidableEq, Repr

/-- The word that a request writes to an address. -/
def Request.word (addr : Int) : Request → Option (BitVec 16)
  | .writeBit .. => none
  | .writeRegister a value => if a = addr then some value else none
  | .writeRegisters a src => if a ≤ addr then src[(addr - a).toNat]? else none

def Master.OfSlave (m : Master) (id : Int) (r : Ref) : Prop :=
  ∃ slave, m.slaves[r.slave]? = some slave ∧ slave.id = id

def Master.Writes (m : Master) (reg : Register) (r : Ref) : Prop :=
  r ∈ m.outputs ∧ m.OfSlave reg.id r ∧ ∃ blk v, m.block? r = some blk ∧ m.val? r = some v ∧ v.type ≠ .bit ∧
    ∃ i : Nat, (i : Int) < valueRegCount v.type ∧ addInt blk.addr v.reg + i = reg.addr

def Master.IsBitmask (m : Master) (r : Ref) : Prop := ∃ v, m.val? r = some v ∧ v.type = .bitmask

def Master.MapsBit (m : Master) (reg : Register) (k : Nat) (r : Ref) : Prop :=
  m.Writes reg r ∧ ∃ v, m.val? r = some v ∧ v.type = .bitmask ∧ v.bit = k

/-! ## What the words should be -/

def Event.attemptedFor (r : Ref) : Event → Option ℚ
  | .written r' f _ _ => if r' = r then some f else none
  | _ => none

/-- The value of the latest attempt to write an output. -/
def attempted (r : Ref) (log : List Event) : Option ℚ := (log.filterMap (Event.attemptedFor r)).getLast?

/-- Bit `k` of the register is mapped, and its latest value was on. -/
def Master.On (m : Master) (reg : Register) (log : List Event) (k : Nat) : Prop :=
  ∃ r f, m.MapsBit reg k r ∧ attempted r log = some f ∧ 1 / 2 < f

/-- Every word written to the register has the latest value at every mapped bit, and 0 at the others. -/
def Master.WordsRight (m : Master) (reg : Register) (log : List Event) : Prop :=
  ∀ pre r f request result, pre ++ [Event.written r f request result] <+: log → m.OfSlave reg.id r →
    ∀ w, request.word reg.addr = some w →
      ∀ k < 16, w.getLsbD k = true ↔ m.On reg (pre ++ [.written r f request result]) k

def Master.MappedOnce (m : Master) (reg : Register) : Prop :=
  ∀ k r r', m.MapsBit reg k r → m.MapsBit reg k r' → r = r'

/-- All that writes to the register are bitmask outputs of one block. -/
def Master.OneBlock (m : Master) (reg : Register) : Prop :=
  ∀ r r', m.Writes reg r → m.Writes reg r' → m.IsBitmask r ∧ r.slave = r'.slave ∧ r.block = r'.block

/-! ## Requests -/

theorem setBit_getLsbD (buf : BitVec 16) {bit : Int} (hbit : 0 ≤ bit ∧ bit ≤ 15) (on : Bool) {k : Nat} (hk : k < 16) :
    (setBit buf bit on).getLsbD k = if bit = k then on else buf.getLsbD k := by
  obtain ⟨b, rfl⟩ := Int.eq_ofNat_of_zero_le hbit.1
  have hone : (BitVec.twoPow 16 b).getLsbD k = decide (b = k) := by
    rw [BitVec.getLsbD_twoPow]
    by_cases hb : b = k
    · simp [hb, hk]
    · simp [hb]
  have htwo : ((1 <<< b : Nat) : BitVec 16) = BitVec.twoPow 16 b := by
    apply BitVec.eq_of_toNat_eq
    rw [BitVec.toNat_twoPow, Nat.one_shiftLeft]
    rfl
  have htwo' : (1 : BitVec 16) <<< b = BitVec.twoPow 16 b := (BitVec.twoPow_eq 16 b).symm
  unfold setBit
  simp only [Int.toNat_natCast, Int.natCast_inj, htwo, htwo']
  split
  · rename_i hon
    rw [BitVec.getLsbD_or, hone]
    by_cases hb : b = k
    · simp [hb, hon]
    · simp [hb]
  · rename_i hon
    rw [BitVec.getLsbD_and, BitVec.getLsbD_not, hone]
    by_cases hb : b = k
    · simp [hb, hon]
    · simp [hb, hk]

theorem request_covers {v : SlaveVal} {a addr : Int} {buf w : BitVec 16} {f : ℚ}
    (h : (v.request a buf f).1.word addr = some w) :
    v.type ≠ .bit ∧ ∃ i : Nat, (i : Int) < valueRegCount v.type ∧ addInt a v.reg + i = addr := by
  have hone : ∀ x, (Request.writeRegister (addInt a v.reg) x).word addr = some w →
      ∃ i : Nat, (i : Int) < 1 ∧ addInt a v.reg + i = addr := by
    intro x hx
    dsimp only [Request.word] at hx
    split at hx
    · exact ⟨0, by omega, by omega⟩
    · cases hx
  have htwo : ∀ x, (Request.writeRegisters (addInt a v.reg) (setU32 v x)).word addr = some w →
      ∃ i : Nat, (i : Int) < 2 ∧ addInt a v.reg + i = addr := by
    intro x hx
    dsimp only [Request.word] at hx
    split at hx
    · have hlt := (List.getElem?_eq_some_iff.mp hx).1
      rw [length_setU32] at hlt
      exact ⟨(addr - addInt a v.reg).toNat, by omega, by omega⟩
    · cases hx
  unfold SlaveVal.request at h
  cases htype : v.type with
  | bit =>
    rw [htype] at h
    cases h
  | s16 | u16 | bitmask =>
    rw [htype] at h
    exact ⟨by simp, hone _ h⟩
  | s32 | u32 | f32 =>
    rw [htype] at h
    exact ⟨by simp, htwo _ h⟩

theorem request_bitmask {v : SlaveVal} (htype : v.type = .bitmask) (a : Int) (buf : BitVec 16) (f : ℚ) :
    v.request a buf f = (.writeRegister (addInt a v.reg) (setBit buf v.bit (1 / 2 < f)),
      setBit buf v.bit (1 / 2 < f)) := by
  unfold SlaveVal.request
  rw [htype]

theorem request_image {v : SlaveVal} (htype : v.type ≠ .bitmask) (a : Int) (buf : BitVec 16) (f : ℚ) :
    (v.request a buf f).2 = buf := by
  unfold SlaveVal.request
  cases h : v.type with
  | bitmask => exact absurd h htype
  | bit | s16 | u16 | s32 | u32 | f32 => rfl

/-- An output of another type can write any register of its own with a word other than 0. -/
theorem exists_word {v : SlaveVal} (hbit : v.type ≠ .bit) (hmask : v.type ≠ .bitmask) (hscale : v.scale ≠ 0)
    (a : Int) {i : Nat} (hi : (i : Int) < valueRegCount v.type) :
    ∃ f, ∀ buf, ∃ w, (v.request a buf f).1.word (addInt a v.reg + i) = some w ∧ w ≠ 0 := by
  have hback : ∀ x : ℚ, (v.scale * x + v.offset - v.offset) / v.scale = x := by
    intro x
    field_simp
    ring
  have hone : ∀ x : BitVec 16, x ≠ 0 → (i : Int) < 1 →
      ∃ w, (Request.writeRegister (addInt a v.reg) x).word (addInt a v.reg + i) = some w ∧ w ≠ 0 := by
    intro x hx h1
    obtain rfl : i = 0 := by omega
    exact ⟨x, by simp [Request.word], hx⟩
  have htwo : ∀ x : BitVec 32, (x >>> 16).setWidth 16 ≠ 0 → x.setWidth 16 ≠ 0 → (i : Int) < 2 →
      ∃ w, (Request.writeRegisters (addInt a v.reg) (setU32 v x)).word (addInt a v.reg + i) = some w ∧ w ≠ 0 := by
    intro x hhi hlo h2
    have hlen : i < (setU32 v x).length := by rw [length_setU32]; omega
    refine ⟨(setU32 v x)[i], ?_, ?_⟩
    · dsimp only [Request.word]
      rw [if_pos (by omega), add_sub_cancel_left, Int.toNat_natCast, List.getElem?_eq_getElem hlen]
    · have hall : ∀ w ∈ setU32 v x, w ≠ 0 := by
        intro w hw
        unfold setU32 at hw
        dsimp only at hw
        split at hw <;> rcases List.mem_pair.mp hw with rfl | rfl <;> assumption
      exact hall _ (List.getElem_mem hlen)
  unfold SlaveVal.request SlaveVal.raw
  cases htype : v.type with
  | bit => exact absurd htype hbit
  | bitmask => exact absurd htype hmask
  | s16 | u16 =>
    rw [htype] at hi
    refine ⟨v.scale * 1 + v.offset, fun buf => ?_⟩
    dsimp only
    rw [hback]
    exact hone _ (by decide +kernel) hi
  | s32 | u32 =>
    rw [htype] at hi
    refine ⟨v.scale * 65537 + v.offset, fun buf => ?_⟩
    dsimp only
    rw [hback]
    exact htwo _ (by decide +kernel) (by decide +kernel) hi
  | f32 =>
    rw [htype] at hi
    refine ⟨v.scale * (1 + 1 / 2 ^ 23) + v.offset, fun buf => ?_⟩
    dsimp only
    rw [hback]
    exact htwo _ (by decide +kernel) (by decide +kernel) hi

/-! ## The image after a call -/

theorem valbuf_setOut {s : State} {b : Ref} {o : Out} (h : o.valbuf = (s.outs b).valbuf) (b' : Ref) :
    ((s.setOut b o).outs b').valbuf = (s.outs b').valbuf := by
  unfold State.setOut
  by_cases hb : b' = b
  · simp [hb, h]
  · simp [hb]

theorem writeBegin_frame (r : Ref) (s : State) :
    (∀ b, ((writeBegin r s).outs b).valbuf = (s.outs b).valbuf) ∧ (writeBegin r s).log = s.log ∧
      (writeBegin r s).pc = (if (s.outs r).writePending then .executing r (s.outs r).writeValue else s.pc) := by
  have hbuf := valbuf_setOut (s := s) (b := r) (o := { s.outs r with writePending := false }) rfl
  unfold writeBegin
  dsimp only
  split
  · exact ⟨hbuf, rfl, rfl⟩
  · exact ⟨hbuf, rfl, rfl⟩

theorem valbuf_requeue (r : Ref) (f : ℚ) (s : State) (b : Ref) :
    ((requeue r f s).outs b).valbuf = (s.outs b).valbuf := by
  unfold requeue
  split
  · rfl
  · apply valbuf_setOut
    rfl

variable {setSlave : Bool → Int → Bool} {m : Master}

/-- The request is made from the image of the owner, which keeps the new bit also if the transaction fails. -/
theorem writeFinish_image {slave : Slave} (hset : setSlave m.tcp slave.id = true) (blk : Block) (v : SlaveVal)
    (r : Ref) (f : ℚ) (env : WriteEnv) (s : State) {base : Ref}
    (hbase : { r with value := v.bitmaskBase.getD r.value } = base) :
    (writeFinish setSlave m slave blk v r f env s).log =
        s.log ++ [.written r f (v.request blk.addr (s.outs base).valbuf f).1 env.result] ∧
      ∀ b, ((writeFinish setSlave m slave blk v r f env s).outs b).valbuf =
        if b = base then (v.request blk.addr (s.outs base).valbuf f).2 else (s.outs b).valbuf := by
  subst hbase
  unfold writeFinish
  rw [if_pos hset]
  dsimp only
  generalize ({ r with value := v.bitmaskBase.getD r.value } : Ref) = base
  generalize v.request blk.addr (s.outs base).valbuf f = req
  have hbuf : ∀ b, ((s.setOut base { s.outs base with valbuf := req.2 }).outs b).valbuf =
      if b = base then req.2 else (s.outs b).valbuf := by
    intro b
    unfold State.setOut
    by_cases hb : b = base
    · simp [hb]
    · simp [hb]
  cases hres : env.result with
  | ok =>
    obtain ⟨hout, hlog, -⟩ := writeReturn_frame (m := m) slave env false
      ((s.setOut base { s.outs base with valbuf := req.2 }).add (.written r f req.1 .ok))
    dsimp only
    rw [hlog, hout]
    exact ⟨rfl, hbuf⟩
  | error err =>
    dsimp only
    generalize hu : (s.setOut base { s.outs base with valbuf := req.2 }).add (.written r f req.1 (.error err)) = u
    have hulog : u.log = s.log ++ [.written r f req.1 (.error err)] := by rw [← hu]; rfl
    have huout : ∀ b, (u.outs b).valbuf = if b = base then req.2 else (s.outs b).valbuf := by rw [← hu]; exact hbuf
    rw [(errorReturn_frame ..).1, (errorReturn_frame ..).2.1]
    exact ⟨(requeue_log r f u).trans hulog, fun b => (valbuf_requeue r f u b).trans (huout b)⟩

/-! ## Owners -/

/-- The value whose image counts for an output. -/
def Master.owner (m : Master) (r : Ref) : Ref := { r with value := ((m.val? r).bind (·.bitmaskBase)).getD r.value }

def Master.Checked (m : Master) : Prop :=
  ∀ r blk, m.block? r = some blk → BlockAccepted blk ∧ ∀ v ∈ blk.values, IsInt v.reg

theorem masterConfigure_checked {cfg : MasterConf} (hm : masterConfigure cfg = some m) (hint : cfg.Ints) :
    m.Checked := by
  intro r blk hblk
  obtain ⟨slave, hslave, cfg', hcfg', idx, h₁, h₂, hb⟩ := masterConfigure_block hm hblk
  exact ⟨blockConfigure_accepted hb, (blockConfigure_ints hb ((hint slave hslave).2.2 cfg' hcfg')).2⟩

theorem val?_eq_some {r : Ref} {v : SlaveVal} :
    m.val? r = some v ↔ ∃ blk, m.block? r = some blk ∧ blk.values[r.value]? = some v :=
  Option.bind_eq_some_iff

theorem Master.Checked.value (hm : m.Checked) {r : Ref} {blk : Block} {v : SlaveVal} (hblk : m.block? r = some blk)
    (hv : m.val? r = some v) : ValueAccepted blk.dir blk.regtype v := by
  obtain ⟨blk', hblk', hget⟩ := val?_eq_some.mp hv
  obtain rfl : blk' = blk := Option.some.inj (hblk'.symm.trans hblk)
  exact (hm r blk' hblk).1.value v (List.mem_of_getElem? hget)

theorem owner_eq {r : Ref} {v : SlaveVal} (hv : m.val? r = some v) :
    m.owner r = { r with value := v.bitmaskBase.getD r.value } := by
  unfold Master.owner
  rw [hv]
  rfl

theorem owner_spec (hm : m.Checked) {r : Ref} {blk : Block} {v : SlaveVal} (hblk : m.block? r = some blk)
    (hv : m.val? r = some v) (htype : v.type = .bitmask) :
    ∃ w, m.val? (m.owner r) = some w ∧ w.reg = v.reg := by
  obtain ⟨blk', hblk', hget⟩ := val?_eq_some.mp hv
  obtain rfl : blk = blk' := Option.some.inj (hblk.symm.trans hblk')
  have hmem := List.mem_of_getElem? hget
  obtain ⟨i, hi⟩ := bitmaskBase_isSome hmem htype
  obtain ⟨-, w, hw, hreg, -⟩ := bitmaskBase_spec hi
  refine ⟨w, val?_eq_some.mpr ⟨blk, ?_, ?_⟩, hreg⟩
  · rw [owner_eq hv]
    exact hblk
  · rw [owner_eq hv, ((hm r blk hblk).1).base v hmem, hi]
    exact hw

theorem owner_eq_iff (hm : m.Checked) {r r' : Ref} {v v' : SlaveVal} (hv : m.val? r = some v)
    (hv' : m.val? r' = some v') (htype : v.type = .bitmask) (htype' : v'.type = .bitmask) :
    m.owner r = m.owner r' ↔ r.slave = r'.slave ∧ r.block = r'.block ∧ v.reg = v'.reg := by
  obtain ⟨blk, hblk, hget⟩ := val?_eq_some.mp hv
  obtain ⟨blk', hblk', hget'⟩ := val?_eq_some.mp hv'
  constructor
  · intro h
    obtain ⟨w, hw, hreg⟩ := owner_spec hm hblk hv htype
    obtain ⟨w', hw', hreg'⟩ := owner_spec hm hblk' hv' htype'
    rw [h, hw'] at hw
    obtain rfl : w' = w := Option.some.inj hw
    rw [owner_eq hv, owner_eq hv'] at h
    obtain ⟨hslave, hblock, -⟩ := Ref.mk.inj h
    exact ⟨hslave, hblock, hreg.symm.trans hreg'⟩
  · rintro ⟨hslave, hblock, hreg⟩
    have hsame : m.block? r = m.block? r' := by
      unfold Master.block?
      rw [hslave, hblock]
    obtain rfl : blk = blk' := Option.some.inj (hblk.symm.trans (hsame.trans hblk'))
    have hacc := (hm r blk hblk).1
    obtain ⟨i, hi⟩ := bitmaskBase_isSome (List.mem_of_getElem? hget) htype
    rw [owner_eq hv, owner_eq hv', hacc.base v (List.mem_of_getElem? hget), hacc.base v' (List.mem_of_getElem? hget'),
      ← bitmaskBase_congr blk.values htype htype' hreg, hi, hslave, hblock]
    rfl

theorem writes_bitmask {reg : Register} {r : Ref} {blk : Block} {v : SlaveVal} (hblk : m.block? r = some blk)
    (hv : m.val? r = some v) (htype : v.type = .bitmask) :
    m.Writes reg r ↔ r ∈ m.outputs ∧ m.OfSlave reg.id r ∧ addInt blk.addr v.reg = reg.addr := by
  constructor
  · rintro ⟨hout, hslave, blk', v', hblk', hv', -, i, hi, haddr⟩
    obtain rfl : blk' = blk := Option.some.inj (hblk'.symm.trans hblk)
    obtain rfl : v' = v := Option.some.inj (hv'.symm.trans hv)
    rw [htype] at hi
    obtain rfl : i = 0 := by
      simp only [valueRegCount] at hi
      omega
    exact ⟨hout, hslave, by simpa using haddr⟩
  · rintro ⟨hout, hslave, haddr⟩
    refine ⟨hout, hslave, blk, v, hblk, hv, by simp [htype], 0, ?_, by simpa using haddr⟩
    rw [htype]
    decide

theorem Master.OneBlock.owner_eq {reg : Register} (hone : m.OneBlock reg) (hm : m.Checked) {r r' : Ref}
    (hr : m.Writes reg r) (hr' : m.Writes reg r') : m.owner r = m.owner r' := by
  obtain ⟨⟨v, hv, htype⟩, hslave, hblock⟩ := hone r r' hr hr'
  obtain ⟨⟨v', hv', htype'⟩, -⟩ := hone r' r hr' hr
  obtain ⟨blk, hblk, hget⟩ := val?_eq_some.mp hv
  obtain ⟨blk', hblk', hget'⟩ := val?_eq_some.mp hv'
  have hsame : m.block? r = m.block? r' := by
    unfold Master.block?
    rw [hslave, hblock]
  obtain rfl : blk = blk' := Option.some.inj (hblk.symm.trans (hsame.trans hblk'))
  obtain ⟨-, -, haddr⟩ := (writes_bitmask hblk hv htype).mp hr
  obtain ⟨-, -, haddr'⟩ := (writes_bitmask hblk' hv' htype').mp hr'
  obtain ⟨hacc, hint⟩ := hm r blk hblk
  have hmem := List.mem_of_getElem? hget
  have hmem' := List.mem_of_getElem? hget'
  refine (owner_eq_iff hm hv hv' htype htype').mpr ⟨hslave, hblock, ?_⟩
  exact addInt_inj ⟨(hacc.reg v hmem).1, (hint v hmem).2⟩ ⟨(hacc.reg v' hmem').1, (hint v' hmem').2⟩
    (haddr.trans haddr'.symm)

/-- Only the outputs of the register share an owner with one of them. -/
theorem writes_of_owner_eq (hm : m.Checked) {reg : Register} {r r' : Ref} {v v' : SlaveVal} (hr : m.Writes reg r)
    (hv : m.val? r = some v) (hv' : m.val? r' = some v') (htype : v.type = .bitmask) (htype' : v'.type = .bitmask)
    (hout : r' ∈ m.outputs) (h : m.owner r = m.owner r') : m.Writes reg r' := by
  obtain ⟨hslave, hblock, hreg⟩ := (owner_eq_iff hm hv hv' htype htype').mp h
  obtain ⟨blk, hblk, hget⟩ := val?_eq_some.mp hv
  have hsame : m.block? r = m.block? r' := by
    unfold Master.block?
    rw [hslave, hblock]
  obtain ⟨-, hof, haddr⟩ := (writes_bitmask hblk hv htype).mp hr
  rw [writes_bitmask (hsame.symm.trans hblk) hv' htype']
  unfold Master.OfSlave at hof ⊢
  rw [← hslave, ← hreg]
  exact ⟨hout, hof, haddr⟩

/-! ## The latest values -/

theorem attempted_concat (r : Ref) (log : List Event) (e : Event) :
    attempted r (log ++ [e]) = (e.attemptedFor r).or (attempted r log) := by
  unfold attempted
  rw [List.filterMap_append, List.getLast?_append]
  cases h : e.attemptedFor r with
  | none => simp [h]
  | some f => simp [h]

theorem attempted_quiet {r : Ref} {log es : List Event} (h : ∀ e ∈ es, e.attemptedFor r = none) :
    attempted r (log ++ es) = attempted r log := by
  unfold attempted
  rw [List.filterMap_append, List.filterMap_eq_nil_iff.mpr h, List.append_nil]

theorem on_concat {reg : Register} (honce : m.MappedOnce reg) (log : List Event) (r : Ref) (f : ℚ) (request : Request)
    (result : Result) (k : Nat) :
    m.On reg (log ++ [.written r f request result]) k ↔
      (m.MapsBit reg k r ∧ 1 / 2 < f) ∨ (¬ m.MapsBit reg k r ∧ m.On reg log k) := by
  have hatt : ∀ r', attempted r' (log ++ [.written r f request result]) =
      if r = r' then some f else attempted r' log := by
    intro r'
    rw [attempted_concat]
    unfold Event.attemptedFor
    by_cases hr : r = r'
    · simp [hr]
    · simp [hr]
  unfold Master.On
  simp only [hatt]
  constructor
  · rintro ⟨r', f', hmap, hf', hlt⟩
    split at hf'
    · rename_i heq
      subst heq
      cases hf'
      exact .inl ⟨hmap, hlt⟩
    · rename_i hne
      exact .inr ⟨fun hr => hne (honce k r r' hr hmap), r', f', hmap, hf', hlt⟩
  · rintro (⟨hmap, hlt⟩ | ⟨hr, r', f', hmap, hf', hlt⟩)
    · exact ⟨r, f, hmap, if_pos rfl, hlt⟩
    · refine ⟨r', f', hmap, ?_, hlt⟩
      rw [if_neg (by rintro rfl; exact hr hmap)]
      exact hf'

/-! ## One block -/

theorem attemptedFor_quiet {e : Event} (h : e.isWritten = false) (r : Ref) : e.attemptedFor r = none := by
  cases e with
  | written => cases h
  | scheduled | read | polled => rfl

theorem on_quiet {reg : Register} {log es : List Event} (h : ∀ e ∈ es, e.isWritten = false) (k : Nat) :
    m.On reg (log ++ es) k ↔ m.On reg log k := by
  unfold Master.On
  simp only [attempted_quiet fun e he => attemptedFor_quiet (h e he) _]

theorem Master.WordsRight.concat {reg : Register} {log : List Event} (h : m.WordsRight reg log) {e : Event}
    (he : ∀ r f request result, e = .written r f request result → m.OfSlave reg.id r →
      ∀ w, request.word reg.addr = some w → ∀ k < 16, w.getLsbD k = true ↔ m.On reg (log ++ [e]) k) :
    m.WordsRight reg (log ++ [e]) := by
  intro pre r f request result hpre
  rcases List.prefix_concat_iff.mp hpre with heq | hpre
  · obtain ⟨rfl, hlast⟩ := List.append_inj' heq rfl
    obtain rfl : e = .written r f request result := (List.singleton_inj.mp hlast).symm
    exact he r f request result rfl
  · exact h pre r f request result hpre

theorem Master.WordsRight.quiet {reg : Register} {log es : List Event} (h : m.WordsRight reg log)
    (hes : ∀ e ∈ es, e.isWritten = false) : m.WordsRight reg (log ++ es) := by
  induction es using List.reverseRecOn with
  | nil => simpa using h
  | append_singleton es e ih =>
    rw [← List.append_assoc]
    refine (ih fun e' he' => hes e' (by simp [he'])).concat fun r f request result heq => ?_
    have hq := hes e (by simp)
    rw [heq] at hq
    cases hq

/-- Every output of the register finds its image to be what the register should hold. -/
structure Shared (m : Master) (reg : Register) (s : State) : Prop where
  image : ∀ r, m.Writes reg r → ∀ k < 16, (s.outs (m.owner r)).valbuf.getLsbD k = true ↔ m.On reg s.log k
  words : m.WordsRight reg s.log

theorem Shared.quiet {reg : Register} {s t : State} (h : Shared m reg s)
    (hbuf : ∀ b, (t.outs b).valbuf = (s.outs b).valbuf) (es : List Event) (hlog : t.log = s.log ++ es)
    (hes : ∀ e ∈ es, e.isWritten = false) : Shared m reg t := by
  refine ⟨fun r hr k hk => ?_, ?_⟩
  · rw [hbuf, hlog, on_quiet hes]
    exact h.image r hr k hk
  · rw [hlog]
    exact h.words.quiet hes

theorem Shared.schedule {reg : Register} {s : State} (h : Shared m reg s) (r : Ref) (f : ℚ) :
    Shared m reg (writeSchedule r f s) := by
  refine h.quiet (fun b => ?_) [.scheduled r f] rfl (by simp [Event.isWritten])
  apply valbuf_setOut
  rfl

theorem mapsBit_iff {reg : Register} {r : Ref} {v : SlaveVal} (hr : m.Writes reg r) (hv : m.val? r = some v)
    (htype : v.type = .bitmask) (k : Nat) : m.MapsBit reg k r ↔ v.bit = k := by
  constructor
  · rintro ⟨-, v', hv', -, hbit⟩
    obtain rfl : v' = v := Option.some.inj (hv'.symm.trans hv)
    exact hbit
  · intro hbit
    exact ⟨hr, v, hv, htype, hbit⟩

theorem Shared.finish {reg : Register} (hm : m.Checked) (honce : m.MappedOnce reg) (hone : m.OneBlock reg) {s : State}
    (h : Shared m reg s) {slave : Slave} (hset : setSlave m.tcp slave.id = true) {blk : Block} {v : SlaveVal}
    {r : Ref}
    (hblk : m.block? r = some blk) (hv : m.val? r = some v) (hout : r ∈ m.outputs) (f : ℚ) (env : WriteEnv) :
    Shared m reg (writeFinish setSlave m slave blk v r f env s) := by
  obtain ⟨hlog, hbuf⟩ := writeFinish_image hset blk v r f env s (owner_eq hv).symm
  by_cases hr : m.Writes reg r
  · -- an output of the register: its bit in the image and in the word is the new value
    obtain ⟨⟨v', hv', htype⟩, -⟩ := hone r r hr hr
    obtain rfl : v' = v := Option.some.inj (hv'.symm.trans hv)
    have hbit := (hm.value hblk hv).bit htype
    rw [request_bitmask htype] at hlog hbuf
    have hnew : ∀ k < 16, (setBit (s.outs (m.owner r)).valbuf v'.bit (1 / 2 < f)).getLsbD k = true ↔
        m.On reg (s.log ++ [.written r f (.writeRegister (addInt blk.addr v'.reg)
          (setBit (s.outs (m.owner r)).valbuf v'.bit (1 / 2 < f))) env.result]) k := by
      intro k hk
      rw [setBit_getLsbD _ hbit _ hk, on_concat honce, mapsBit_iff hr hv htype]
      by_cases hb : v'.bit = k
      · simp [hb]
      · simp [hb, h.image r hr k hk]
    refine ⟨fun r' hr' k hk => ?_, ?_⟩
    · rw [hlog, hbuf, if_pos (hone.owner_eq hm hr' hr)]
      exact hnew k hk
    · rw [hlog]
      refine h.words.concat fun r' f' request result heq _ w hw k hk => ?_
      cases heq
      obtain rfl : setBit (s.outs (m.owner r)).valbuf v'.bit (1 / 2 < f) = w := by
        dsimp only [Request.word] at hw
        split at hw
        · exact Option.some.inj hw
        · cases hw
      exact hnew k hk
  · have hon : ∀ k,
        m.On reg (s.log ++ [.written r f (v.request blk.addr (s.outs (m.owner r)).valbuf f).1 env.result]) k ↔
        m.On reg s.log k := by
      intro k
      have hmap : ¬ m.MapsBit reg k r := fun hmap => hr hmap.1
      rw [on_concat honce]
      simp [hmap]
    refine ⟨fun r' hr' k hk => ?_, ?_⟩
    · rw [hlog, hon, ← h.image r' hr' k hk, hbuf]
      split
      · rename_i hown
        have htype : v.type ≠ .bitmask := by
          intro htype
          obtain ⟨⟨v', hv', htype'⟩, -⟩ := hone r' r' hr' hr'
          exact hr (writes_of_owner_eq hm hr' hv' hv htype' htype hout hown)
        rw [request_image htype, hown]
      · rfl
    · rw [hlog]
      refine h.words.concat fun r' f' request result heq hof w hw => ?_
      cases heq
      obtain ⟨hbit, hcover⟩ := request_covers hw
      exact absurd ⟨hout, hof, blk, v, hblk, hv, hbit, hcover⟩ hr

structure Kept (m : Master) (reg : Register) (s : State) : Prop where
  shared : Shared m reg s
  running : ∀ r f, s.pc = .executing r f → r ∈ m.outputs

theorem Kept.start {reg : Register} : Kept m reg start := by
  refine ⟨⟨fun r _ k _ => ?_, fun pre r f request result hpre => ?_⟩, fun r f hrun => ?_⟩
  · have hoff : ¬ m.On reg Mb.start.log k := by
      rintro ⟨r', f, -, hatt, -⟩
      cases hatt
    simpa [Mb.start] using hoff
  · simp [Mb.start] at hpre
  · cases hrun

theorem callStep_kept (hset : ∀ slave ∈ m.slaves, setSlave m.tcp slave.id = true) {reg : Register} (hm : m.Checked)
    (honce : m.MappedOnce reg) (hone : m.OneBlock reg) {s t : State} {c : Call} (h : Kept m reg s)
    (hst : callStep setSlave m s c = some t) : Kept m reg t := by
  cases c with
  | schedule r f =>
    simp only [callStep, Option.ite_none_right_eq_some, Option.some.injEq] at hst
    obtain ⟨-, rfl⟩ := hst
    exact ⟨h.shared.schedule r f, h.running⟩
  | execute r =>
    simp only [callStep, Option.ite_none_right_eq_some, Option.some.injEq] at hst
    obtain ⟨⟨hr, hpc⟩, rfl⟩ := hst
    obtain ⟨hbuf, hlog, hpc'⟩ := writeBegin_frame r s
    refine ⟨h.shared.quiet hbuf [] (by simp [hlog]) (by simp), fun r' f hrun => ?_⟩
    rw [hpc', hpc] at hrun
    split at hrun
    · cases hrun
      exact hr
    · cases hrun
  | finish env =>
    simp only [callStep] at hst
    split at hst
    · rename_i r f hpc
      simp only [Option.bind_eq_bind, Option.bind_eq_some_iff, pure, Option.some.injEq] at hst
      obtain ⟨slave, hslave, blk, hblk, v, hv, rfl⟩ := hst
      have hfin := h.shared.finish hm honce hone (hset slave (List.mem_of_getElem? hslave)) hblk hv
        (h.running r f hpc) f env
      refine ⟨hfin, fun r' f' hrun => ?_⟩
      rw [writeFinish_pc] at hrun
      cases hrun
    · cases hst

/-! ## The thread -/

theorem writeTake_frame (s : State) :
    (∀ b, ((writeTake m s).outs b).valbuf = (s.outs b).valbuf) ∧ (writeTake m s).log = s.log := by
  refine ⟨?_, writeTake_log s⟩
  unfold writeTake
  dsimp only
  split
  · rw [(nextSlave_frame s).1]
    exact fun b => rfl
  · rename_i r rest _
    have hbuf := valbuf_setOut (s := s) (b := r) (o := { s.outs r with writePending := false }) rfl
    split
    · exact hbuf
    · exact hbuf

theorem step_shared (hset : ∀ slave ∈ m.slaves, setSlave m.tcp slave.id = true) {reg : Register} (hm : m.Checked)
    (honce : m.MappedOnce reg) (hone : m.OneBlock reg) {s t : State} {a : Act} (h : Shared m reg s)
    (hrun : ∀ r f, s.pc = .executing r f → r ∈ m.outputs) (hst : step setSlave m s a = some t) : Shared m reg t := by
  cases moves_of_step hst with
  | @schedule r f => exact h.schedule r f
  | @task now env =>
    obtain ⟨hout, es, hlog, hes⟩ := masterTask_frame setSlave m now env s
    exact h.quiet (fun b => by rw [hout]) es hlog hes
  | take =>
    obtain ⟨hbuf, hlog⟩ := writeTake_frame (m := m) s
    exact h.quiet hbuf [] (by simp [hlog]) (by simp)
  | @finish env r f slave blk v hpc hslave hblk hv =>
    exact h.finish hm honce hone (hset slave (List.mem_of_getElem? hslave)) hblk hv (hrun r f hpc) f env

/-! ## Several blocks -/

/-- A write of one value, from any state between calls. -/
theorem write_once {s : State} (hpc : s.pc = .idle) {slave : Slave} {blk : Block} {v : SlaveVal} {r : Ref}
    (hset : setSlave m.tcp slave.id = true) (hslave : m.slaves[r.slave]? = some slave)
    (hblk : m.block? r = some blk) (hv : m.val? r = some v) (hout : r ∈ m.outputs) (f : ℚ) :
    ∃ t, Run (callStep setSlave m) s [.schedule r f, .execute r, .finish {}] t ∧ t.pc = .idle ∧
      t.log = s.log ++ [.scheduled r f, .written r f (v.request blk.addr (s.outs (m.owner r)).valbuf f).1 .ok] ∧
      ∀ b, (t.outs b).valbuf =
        if b = m.owner r then (v.request blk.addr (s.outs (m.owner r)).valbuf f).2 else (s.outs b).valbuf := by
  have hbuf₁ : ∀ b, ((writeSchedule r f s).outs b).valbuf = (s.outs b).valbuf := by
    intro b
    apply valbuf_setOut
    rfl
  obtain ⟨hbuf₂, hlog₂, hpc₂⟩ := writeBegin_frame r (writeSchedule r f s)
  have hvalue : ((writeSchedule r f s).outs r) = { s.outs r with writeValue := f, writePending := true } :=
    Function.update_self ..
  rw [hvalue, if_pos rfl] at hpc₂
  obtain ⟨hlog₃, hbuf₃⟩ :=
    writeFinish_image hset blk v r f {} (writeBegin r (writeSchedule r f s)) (owner_eq hv).symm
  rw [hbuf₂, hbuf₁] at hlog₃ hbuf₃
  refine ⟨writeFinish setSlave m slave blk v r f {} (writeBegin r (writeSchedule r f s)), ?_, writeFinish_pc .., ?_,
    fun b => ?_⟩
  · rw [run_cons]
    refine ⟨writeSchedule r f s, if_pos hout, ?_⟩
    rw [run_cons]
    refine ⟨writeBegin r (writeSchedule r f s), if_pos ⟨hout, hpc⟩, ?_⟩
    rw [run_cons]
    refine ⟨_, ?_, (run_nil ..).mpr rfl⟩
    simp only [callStep, hpc₂, hslave, hblk, hv]
    rfl
  · rw [hlog₃, hlog₂]
    simp [writeSchedule, State.add, State.setOut]
  · rw [hbuf₃, hbuf₂, hbuf₁]

def AlwaysRight (setSlave : Bool → Int → Bool) (m : Master) (reg : Register) : Prop :=
  ∀ s, Reachable (callStep setSlave m) Init s → m.WordsRight reg s.log

/-- An output of another type writes what no bit of the register stands for. -/
theorem other_type_wrong (hset : ∀ slave ∈ m.slaves, setSlave m.tcp slave.id = true) (hm : m.Checked)
    (hdir : ∀ r blk, r ∈ m.outputs → m.block? r = some blk → blk.dir = .output) {reg : Register} {r : Ref}
    (hr : m.Writes reg r) (hmask : ¬ m.IsBitmask r) : ¬ AlwaysRight setSlave m reg := by
  intro hright
  obtain ⟨hout, ⟨slave, hslave, hid⟩, blk, v, hblk, hv, hbit, i, hi, haddr⟩ := hr
  have htype : v.type ≠ .bitmask := fun h => hmask ⟨v, hv, h⟩
  have hscale : v.scale ≠ 0 := (hm.value hblk hv).scale (hdir r blk hout hblk)
  obtain ⟨f, hf⟩ := exists_word hbit htype hscale blk.addr hi
  obtain ⟨t, hrun, -, hlog, -⟩ := write_once (s := start) rfl (hset slave (List.mem_of_getElem? hslave))
    hslave hblk hv hout f
  obtain ⟨w, hw, hne⟩ := hf (start.outs (m.owner r)).valbuf
  rw [haddr] at hw
  have hwords := hright t ⟨start, _, rfl, hrun⟩ [.scheduled r f] r f _ .ok (by rw [hlog]; exact List.prefix_refl _)
    ⟨slave, hslave, hid⟩ w hw
  apply hne
  apply BitVec.eq_of_getLsbD_eq
  intro k hk
  have hoff : ¬ m.On reg
      ([.scheduled r f] ++ [.written r f (v.request blk.addr (start.outs (m.owner r)).valbuf f).1 .ok]) k := by
    rintro ⟨r', f', ⟨-, v', hv', htype', -⟩, hatt, -⟩
    have hne : r ≠ r' := by
      rintro rfl
      exact hmask ⟨v', hv', htype'⟩
    simp [attempted, Event.attemptedFor, hne] at hatt
  have hbit : w.getLsbD k = false := by
    rw [← Bool.not_eq_true, hwords k hk]
    exact hoff
  rw [hbit]
  simp

theorem two_blocks_wrong (hset : ∀ slave ∈ m.slaves, setSlave m.tcp slave.id = true) (hm : m.Checked)
    {reg : Register} (honce : m.MappedOnce reg) {r r' : Ref} (hr : m.Writes reg r) (hr' : m.Writes reg r')
    (hmask : m.IsBitmask r) (hmask' : m.IsBitmask r') (hne : ¬ (r.slave = r'.slave ∧ r.block = r'.block)) :
    ¬ AlwaysRight setSlave m reg := by
  intro hright
  obtain ⟨v, hv, htype⟩ := hmask
  obtain ⟨v', hv', htype'⟩ := hmask'
  obtain ⟨hout, ⟨slave, hslave, -⟩, blk, -, hblk, -⟩ := id hr
  obtain ⟨hout', ⟨slave', hslave', hid'⟩, blk', -, hblk', -⟩ := id hr'
  have hown : m.owner r' ≠ m.owner r := by
    intro h
    obtain ⟨h1, h2, -⟩ := (owner_eq_iff hm hv' hv htype' htype).mp h
    exact hne ⟨h1.symm, h2.symm⟩
  have hbit := (hm.value hblk hv).bit htype
  have hbit' := (hm.value hblk' hv').bit htype'
  have hmap := (mapsBit_iff hr hv htype v.bit.toNat).mpr (by omega)
  have hbits : v'.bit ≠ v.bit.toNat := by
    intro h
    have heq := honce _ r r' hmap ((mapsBit_iff hr' hv' htype' v.bit.toNat).mpr h)
    exact hne ⟨congrArg Ref.slave heq, congrArg Ref.block heq⟩
  -- both outputs are switched on, one after the other
  obtain ⟨t, hrun, hpc, hlog, hbuf⟩ :=
    write_once (s := start) rfl (hset slave (List.mem_of_getElem? hslave)) hslave hblk hv hout 1
  obtain ⟨u, hrun', -, hlog', -⟩ := write_once hpc (hset slave' (List.mem_of_getElem? hslave')) hslave' hblk'
    hv' hout' 1
  rw [hbuf, if_neg hown, request_bitmask htype', ((writes_bitmask hblk' hv' htype').mp hr').2.2] at hlog'
  generalize hword : setBit (start.outs (m.owner r')).valbuf v'.bit (1 / 2 < (1 : ℚ)) = word at hlog'
  have hwords := hright u ⟨start, _, rfl, (run_append ..).mpr ⟨t, hrun, hrun'⟩⟩ (t.log ++ [.scheduled r' 1]) r' 1
    (.writeRegister reg.addr word) .ok (by rw [hlog', List.append_assoc]; exact List.prefix_refl _)
    ⟨slave', hslave', hid'⟩ word (if_pos rfl) v.bit.toNat (by omega)
  have hon : m.On reg (t.log ++ [.scheduled r' 1] ++ [.written r' 1 (.writeRegister reg.addr word) .ok])
      v.bit.toNat := by
    have hrr : r' ≠ r := by
      rintro rfl
      exact hne ⟨rfl, rfl⟩
    refine ⟨r, 1, hmap, ?_, by norm_num⟩
    rw [attempted_concat, attempted_concat, hlog]
    simp [attempted, Event.attemptedFor, hrr]
  have hclear : word.getLsbD v.bit.toNat = false := by
    rw [← hword, setBit_getLsbD _ hbit' _ (by omega), if_neg hbits]
    exact BitVec.getLsbD_zero
  rw [hclear] at hwords
  exact absurd (hwords.mpr hon) (by simp)

/-- **Bitmask outputs of a register.** Every word written to it has the latest value of each mapped bit, and 0 at
the others, exactly if all that writes to it are bitmask outputs of one block. -/
theorem bitmask_image (setSlave : Bool → Int → Bool) (hset : ∀ tcp id, idValid tcp id = true → setSlave tcp id = true)
    (cfg : MasterConf) (hint : cfg.Ints) (m : Master) (hm : masterConfigure cfg = some m) (reg : Register)
    (honce : m.MappedOnce reg) : AlwaysRight setSlave m reg ↔ m.OneBlock reg := by
  have hacc := masterConfigure_accepted hm
  have hids : ∀ slave ∈ m.slaves, setSlave m.tcp slave.id = true := fun slave hs => hset _ _ (hacc.ids slave hs)
  have hchecked := masterConfigure_checked hm hint
  constructor
  · intro hright r r' hr hr'
    have hmask : ∀ r, m.Writes reg r → m.IsBitmask r := by
      intro r hr
      by_contra hmask
      refine other_type_wrong hids hchecked (fun r blk hout hblk => ?_) hr hmask hright
      obtain ⟨slave, hslave, hmem⟩ := List.mem_flatMap.mp hout
      obtain ⟨i, hi⟩ := List.mem_iff_getElem?.mp hslave
      obtain ⟨slave', hslave', hblk⟩ := Option.bind_eq_some_iff.mp hblk
      rw [(hacc.outputs i slave hi).slave r hmem, hi] at hslave'
      cases hslave'
      exact masterConfigure_dir hm hslave hmem hblk
    refine ⟨hmask r hr, ?_⟩
    by_contra hne
    exact two_blocks_wrong hids hchecked honce hr hr' (hmask r hr) (hmask r' hr') hne hright
  · intro hone s hs
    have hkept : Kept m reg s := by
      apply hs.invariant
      · rintro s rfl
        exact Kept.start
      · intro s c t h _ hst
        exact callStep_kept hids hchecked honce hone h hst
    exact hkept.shared.words

theorem thread_running {s : State} (hs : Reachable (step setSlave m) Init s) :
    ∀ r f, s.pc = .executing r f → r ∈ m.outputs := by
  apply hs.invariant (I := fun s => ∀ r f, s.pc = .executing r f → r ∈ m.outputs)
  · rintro s rfl r f h
    cases h
  · intro s a t ih hs hst r f ht
    rcases executing_step hst ht with h | ⟨-, -, hhead, -⟩
    · exact ih r f h
    · have hmem : r ∈ m.valueOut s.slaveCurrIdx := (curr_suffix hs _).subset (List.mem_of_head? hhead)
      unfold Master.valueOut at hmem
      split at hmem
      · rename_i slave hslave
        exact List.mem_flatMap.mpr ⟨slave, List.mem_of_getElem? hslave, hmem⟩
      · cases hmem

/-- The thread of the master makes such calls only, so what it writes is right as well. -/
theorem thread_words_right (setSlave : Bool → Int → Bool)
    (hset : ∀ tcp id, idValid tcp id = true → setSlave tcp id = true) (cfg : MasterConf) (hint : cfg.Ints)
    (m : Master)
    (hm : masterConfigure cfg = some m) (reg : Register) (honce : m.MappedOnce reg) (hone : m.OneBlock reg)
    (s : State) (hs : Reachable (step setSlave m) Init s) : m.WordsRight reg s.log := by
  have hacc := masterConfigure_accepted hm
  have hshared : Shared m reg s := by
    apply hs.invariant
    · rintro s rfl
      exact Kept.start.shared
    · intro s a t h hs hst
      exact step_shared (fun slave hs => hset _ _ (hacc.ids slave hs)) (masterConfigure_checked hm hint) honce hone h
        (thread_running hs) hst
  exact hshared.words

/-! Two bits of register 0, in one block and in two. -/

def bitConf (title : String) (bit : Int) : ValueConf :=
  { title := title, reg := 0, type := some .bitmask, bit := bit }

def masksConf (blocks : List (List ValueConf)) : MasterConf where
  tcp := true
  slaves := [{
    id := 1
    interval := 1000
    blocks := blocks.map fun values =>
      { dir := some .output, regtype := some .reg, addr := 0, count := 1, values := values } }]

def oneMask : Master := (masterConfigure (masksConf [[bitConf "a" 0, bitConf "b" 1]])).get (by decide +kernel)

def twoMasks : Master := (masterConfigure (masksConf [[bitConf "a" 0], [bitConf "b" 1]])).get (by decide +kernel)

theorem mappedOnce_of_bits {reg : Register} (h : ∀ r ∈ m.outputs, ∀ r' ∈ m.outputs,
    (m.val? r).map (·.bit) = (m.val? r').map (·.bit) → r = r') : m.MappedOnce reg := by
  rintro k r r' ⟨hr, v, hv, -, hbit⟩ ⟨hr', v', hv', -, hbit'⟩
  refine h r hr.1 r' hr'.1 ?_
  rw [hv, hv']
  simp [hbit, hbit']

theorem bitmask_image_one_block : AlwaysRight modbusSetSlave oneMask ⟨1, 0⟩ ↔ oneMask.OneBlock ⟨1, 0⟩ :=
  bitmask_image modbusSetSlave modbusSetSlave_accepts _ (by decide) oneMask (Option.some_get _).symm
    ⟨1, 0⟩ (mappedOnce_of_bits (by decide +kernel))

/-- The second block starts from an image of its own and clears bit 0. -/
theorem other_block_clears : (masksConf [[bitConf "a" 0], [bitConf "b" 1]]).Ints ∧
    masterConfigure (masksConf [[bitConf "a" 0], [bitConf "b" 1]]) = some twoMasks ∧ twoMasks.MappedOnce ⟨1, 0⟩ ∧
    (∃ s, Reachable (callStep modbusSetSlave twoMasks) Init s ∧
      s.log = [.scheduled ⟨0, 0, 0⟩ 1, .written ⟨0, 0, 0⟩ 1 (.writeRegister 0 1) .ok,
        .scheduled ⟨0, 1, 0⟩ 1, .written ⟨0, 1, 0⟩ 1 (.writeRegister 0 2) .ok]) ∧
    ¬ AlwaysRight modbusSetSlave twoMasks ⟨1, 0⟩ := by
  have hlog : ([.schedule ⟨0, 0, 0⟩ 1, .execute ⟨0, 0, 0⟩, .finish {}, .schedule ⟨0, 1, 0⟩ 1, .execute ⟨0, 1, 0⟩,
      .finish {}].foldlM (callStep modbusSetSlave twoMasks) start).map (·.log) =
      some [.scheduled ⟨0, 0, 0⟩ 1, .written ⟨0, 0, 0⟩ 1 (.writeRegister 0 1) .ok,
        .scheduled ⟨0, 1, 0⟩ 1, .written ⟨0, 1, 0⟩ 1 (.writeRegister 0 2) .ok] := by decide +kernel
  obtain ⟨s, hrun, hs⟩ := Option.map_eq_some_iff.mp hlog
  have hreach : Reachable (callStep modbusSetSlave twoMasks) Init s := ⟨start, _, rfl, hrun⟩
  refine ⟨by decide, (Option.some_get _).symm, mappedOnce_of_bits (by decide +kernel),
    ⟨s, hreach, hs⟩, fun hright => ?_⟩
  have hof : ∀ b, twoMasks.OfSlave 1 ⟨0, b, 0⟩ := fun b => ⟨_, rfl, by decide +kernel⟩
  have hfirst : (twoMasks.val? ⟨0, 0, 0⟩).map (fun v => (v.type, v.bit, v.reg)) = some (.bitmask, 0, 0) := by
    decide +kernel
  obtain ⟨v, hv, heq⟩ := Option.map_eq_some_iff.mp hfirst
  simp only [Prod.mk.injEq] at heq
  obtain ⟨htype, hbit, hreg⟩ := heq
  have hbase : (twoMasks.block? ⟨0, 0, 0⟩).map (·.addr) = some 0 := by decide +kernel
  obtain ⟨blk, hblk, haddr⟩ := Option.map_eq_some_iff.mp hbase
  have hwrites : twoMasks.Writes ⟨1, 0⟩ ⟨0, 0, 0⟩ :=
    (writes_bitmask hblk hv htype).mpr ⟨by decide +kernel, hof 0, by rw [haddr, hreg]; decide⟩
  have hwords := hright s hreach [.scheduled ⟨0, 0, 0⟩ 1, .written ⟨0, 0, 0⟩ 1 (.writeRegister 0 1) .ok,
    .scheduled ⟨0, 1, 0⟩ 1] ⟨0, 1, 0⟩ 1 (.writeRegister 0 2) .ok (by rw [hs]; exact List.prefix_refl _)
    (hof 1) 2 rfl 0 (by omega)
  exact absurd (hwords.mpr ⟨⟨0, 0, 0⟩, 1, ⟨hwrites, v, hv, htype, hbit⟩, by decide +kernel, by norm_num⟩) (by decide)

end Uvrgw.Mb
