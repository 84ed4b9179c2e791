import Mathlib.Logic.Function.Basic
import Uvrgw.Lib.Run
import Uvrgw.Mb.Code

/-!
# The thread of a Modbus master (`mb.c`)

`master_thread` cut at its critical sections: `write_schedule` of another thread may come before and
after each of them. What the bus and the clock do is part of the actions.
-/

namespace Uvrgw.Mb

open Uvrgw.Lib

/-! ## State -/

/-- The mutable part of `MB_SLAVE_VAL_T`. -/
structure Out where
  writePending : Bool := false
  writeValue : ℚ := 0
  /-- The register image; the one of the `bitmask_base` counts. -/
  valbuf : BitVec 16 := 0
  deriving DecidableEq, Repr

/-- The mutable part of `MB_SLAVE_T`. -/
structure SlaveState where
  blockReadIdx : Nat := 0
  /-- The list from `value_out_curr` on. -/
  valueOutCurr : List Ref := []
  nextPoll : Int := 0
  nextWrite : Int := 0
  deriving DecidableEq, Repr

inductive Result where
  | ok
  | error (errno : Int)
  deriving DecidableEq, Repr

/-- What can be seen from outside. -/
inductive Event where
  | scheduled (r : Ref) (f : ℚ)
  | read (slave block : Nat) (result : Result)
  /-- `slave_task_read` finds all input blocks done. -/
  | polled (slave : Nat)
  | written (r : Ref) (f : ℚ) (request : Request) (result : Result)
  deriving DecidableEq, Repr

inductive Pc where
  | idle
  /-- In the loop of `slave_task_write`. -/
  | writing
  /-- `write_execute` has taken a value. -/
  | executing (r : Ref) (f : ℚ)
  deriving DecidableEq, Repr

structure State where
  outs : Ref → Out := fun _ => {}
  slaves : Nat → SlaveState := fun _ => {}
  slaveCurrIdx : Nat := 0
  nextTransaction : Int := 0
  reconnect : Bool := true
  pc : Pc := .idle
  log : List Event := []

namespace State

def setOut (s : State) (r : Ref) (o : Out) : State := { s with outs := Function.update s.outs r o }

def setSlave (s : State) (i : Nat) (x : SlaveState) : State := { s with slaves := Function.update s.slaves i x }

def add (s : State) (e : Event) : State := { s with log := s.log ++ [e] }

end State

/-- `MODBUS_ENOBASE`. -/
def enobase : Int := 112345678

def etimedout : Int := 110

def einval : Int := 22

/-- `MASTER_RECONNECT_DELAY_MS`. -/
def reconnectDelay : Int := 1000

def linkError (m : Master) (err : Int) (s : State) : State :=
  if m.tcp || err ≠ etimedout then { s with reconnect := true } else s

/-! ## The functions of the thread -/

section Functions

-- `setSlave tcp id` is true if `modbus_set_slave` accepts the id
variable (setSlave : Bool → Int → Bool) (m : Master)

def writeSchedule (r : Ref) (f : ℚ) (s : State) : State :=
  (s.setOut r { s.outs r with writeValue := f, writePending := true }).add (.scheduled r f)

/-- The loop of `slave_task_read` that finds the next input block. -/
def nextInput (blocks : List Block) (idx : Nat) : Option Nat :=
  ((blocks.drop idx).findIdx? (·.dir = .input)).map (idx + ·)

/-- `slave_task_read`, with the result of its transaction. -/
def slaveTaskRead (slave : Slave) (now : Int) (read : Result) (s : State) : State × Int :=
  let i := s.slaveCurrIdx
  let x := s.slaves i
  if now < x.nextPoll then (s, 0)
  else
    match nextInput slave.blocks x.blockReadIdx with
    | none =>
      ((s.setSlave i { x with
          blockReadIdx := max x.blockReadIdx slave.blocks.length
          nextPoll := now + slave.interval }).add (.polled i), 0)
    | some b =>
      let result := if setSlave m.tcp slave.id then read else .error einval
      let s := s.add (.read i b result)
      let x := { x with blockReadIdx := b + 1 }
      match result with
      | .ok => (s.setSlave i x, 1)
      | .error err =>
        if err < enobase then (linkError m err (s.setSlave i { x with nextPoll := now + slave.interval }), -1)
        else (s.setSlave i x, -1)

/-- What the environment does in `master_task` before a write. -/
structure TaskEnv where
  connected : Bool := true
  read : Result := .ok
  /-- The next `utl_get_ticks`. -/
  ticks : Int := 0
  deriving DecidableEq, Repr

/-- `master_task` up to `slave_task_write`; `none` if this is reached, else the return value. -/
def masterTaskRead (now : Int) (env : TaskEnv) (s : State) : State × Option Int :=
  if s.reconnect && !env.connected then ({ s with nextTransaction := env.ticks + reconnectDelay }, some 0)
  else
    let s := { s with reconnect := false }
    match m.slaves[s.slaveCurrIdx]? with
    | none => ({ s with slaveCurrIdx := 0 }, some 0)
    | some slave =>
      let (s, ret) := slaveTaskRead setSlave m slave now env.read s
      (s, if ret ≠ 0 then some ret else none)

/-- The end of `master_task`: all IOs of the slave are done. -/
def nextSlave (s : State) : State :=
  match m.slaves[s.slaveCurrIdx]? with
  | none => s
  | some slave =>
    let i := s.slaveCurrIdx
    { s.setSlave i { s.slaves i with blockReadIdx := 0, valueOutCurr := slave.valueOut } with
      slaveCurrIdx := if i + 1 < m.slaves.length then i + 1 else 0
      pc := .idle }

/-- A pass of `master_thread`, up to the loop of `slave_task_write`. -/
def masterTask (now : Int) (env : TaskEnv) (s : State) : State :=
  if s.nextTransaction ≤ now then
    match masterTaskRead setSlave m now env s with
    | (s, some ret) => if ret ≠ 0 then { s with nextTransaction := env.ticks + m.separationTime } else s
    | (s, none) =>
      if now < (s.slaves s.slaveCurrIdx).nextWrite then nextSlave m s else { s with pc := .writing }
  else s

/-- A pass of the loop of `slave_task_write`, up to the end of the first critical section of
`write_execute`. -/
def writeTake (s : State) : State :=
  let i := s.slaveCurrIdx
  match (s.slaves i).valueOutCurr with
  | [] => nextSlave m s
  | r :: rest =>
    let o := s.outs r
    let s := (s.setSlave i { s.slaves i with valueOutCurr := rest }).setOut r { o with writePending := false }
    if o.writePending then { s with pc := .executing r o.writeValue } else s

/-- What the environment does in the rest of `write_execute`. -/
structure WriteEnv where
  result : Result := .ok
  /-- The `utl_get_ticks` of `slave_task_write`. -/
  failTicks : Int := 0
  /-- The `utl_get_ticks` of `master_thread`. -/
  ticks : Int := 0
  deriving DecidableEq, Repr

/-- The way back from `write_execute` with a return value other than 0. -/
def writeReturn (slave : Slave) (env : WriteEnv) (failed : Bool) (s : State) : State :=
  let i := s.slaveCurrIdx
  let s := if failed then s.setSlave i { s.slaves i with nextWrite := env.failTicks + slave.interval } else s
  { s with pc := .idle, nextTransaction := env.ticks + m.separationTime }

/-- Keep the value for a retry, a newer one wins. -/
def requeue (r : Ref) (f : ℚ) (s : State) : State :=
  if (s.outs r).writePending then s else s.setOut r { s.outs r with writeValue := f, writePending := true }

/-- The rest of `write_execute`. -/
def writeFinish (slave : Slave) (blk : Block) (v : SlaveVal) (r : Ref) (f : ℚ) (env : WriteEnv) (s : State) :
    State :=
  if setSlave m.tcp slave.id then
    let base := { r with value := v.bitmaskBase.getD r.value }
    let (request, buf) := v.request blk.addr (s.outs base).valbuf f
    let s := s.setOut base { s.outs base with valbuf := buf }
    let s := s.add (.written r f request env.result)
    match env.result with
    | .ok => writeReturn m slave env false s
    | .error err =>
      let s := requeue r f s
      writeReturn m slave env true (if err < enobase then linkError m err s else s)
  else writeReturn m slave env true s

/-! ## Machine -/

inductive Act where
  /-- Any thread. -/
  | schedule (r : Ref) (f : ℚ)
  | task (now : Int) (env : TaskEnv)
  | take
  | finish (env : WriteEnv)
  deriving DecidableEq, Repr

def Master.outputs (m : Master) : List Ref := m.slaves.flatMap (·.valueOut)

def step (s : State) : Act → Option State
  | .schedule r f => if r ∈ m.outputs then some (writeSchedule r f s) else none
  | .task now env => if s.pc = .idle then some (masterTask setSlave m now env s) else none
  | .take => if s.pc = .writing then some (writeTake m s) else none
  | .finish env =>
    match s.pc with
    | .executing r f => do
      let slave ← m.slaves[s.slaveCurrIdx]?
      let blk ← m.block? r
      let v ← m.val? r
      return writeFinish setSlave m slave blk v r f env s
    | _ => none

def start : State := {}

def Init (s : State) : Prop := s = start

/-! ## What a step can do -/

inductive Moves (s : State) : Act → State → Prop
  | schedule {r : Ref} {f : ℚ} (hr : r ∈ m.outputs) : Moves s (.schedule r f) (writeSchedule r f s)
  | task {now : Int} {env : TaskEnv} (hpc : s.pc = .idle) : Moves s (.task now env) (masterTask setSlave m now env s)
  | take (hpc : s.pc = .writing) : Moves s .take (writeTake m s)
  | finish {env : WriteEnv} {r : Ref} {f : ℚ} {slave : Slave} {blk : Block} {v : SlaveVal}
      (hpc : s.pc = .executing r f) (hslave : m.slaves[s.slaveCurrIdx]? = some slave) (hblk : m.block? r = some blk)
      (hv : m.val? r = some v) : Moves s (.finish env) (writeFinish setSlave m slave blk v r f env s)

variable {setSlave m}

theorem moves_of_step {s t : State} {a : Act} (h : step setSlave m s a = some t) : Moves setSlave m s a t := by
  cases a with
  | schedule r f =>
    simp only [step, Option.ite_none_right_eq_some, Option.some.injEq] at h
    exact h.2 ▸ .schedule h.1
  | task now env =>
    simp only [step, Option.ite_none_right_eq_some, Option.some.injEq] at h
    exact h.2 ▸ .task h.1
  | take =>
    simp only [step, Option.ite_none_right_eq_some, Option.some.injEq] at h
    exact h.2 ▸ .take h.1
  | finish env =>
    simp only [step] at h
    split at h
    · rename_i r f hpc
      simp only [Option.bind_eq_bind, Option.bind_eq_some_iff, Option.pure_def, Option.some.injEq] at h
      obtain ⟨slave, hslave, blk, hblk, v, hv, rfl⟩ := h
      exact .finish hpc hslave hblk hv
    · cases h

def Event.isRead : Event → Bool
  | .read .. | .polled _ => true
  | .scheduled .. | .written .. => false

def Event.isWritten : Event → Bool
  | .written .. => true
  | _ => false

theorem isWritten_reads {e : Event} (h : e.isRead = true) : e.isWritten = false := by
  cases e with
  | read | polled => rfl
  | scheduled | written => cases h

/-- What `master_task` leaves alone before a write. -/
structure Reads (s t : State) : Prop where
  outs : t.outs = s.outs
  pc : t.pc = s.pc
  curr : ∀ i, (t.slaves i).valueOutCurr = (s.slaves i).valueOutCurr
  nextWrite : ∀ i, (t.slaves i).nextWrite = (s.slaves i).nextWrite
  log : ∃ es, t.log = s.log ++ es ∧ ∀ e ∈ es, e.isRead = true

theorem Reads.refl (s : State) : Reads s s := ⟨rfl, rfl, fun _ => rfl, fun _ => rfl, [], by simp⟩

theorem linkError_eq (m : Master) (err : Int) (s : State) :
    ∃ rc, linkError m err s = { s with reconnect := rc } := by
  unfold linkError
  split
  · exact ⟨true, rfl⟩
  · exact ⟨s.reconnect, rfl⟩

variable (setSlave m) in
theorem slaveTaskRead_reads (slave : Slave) (now : Int) (read : Result) (s : State) :
    Reads s (slaveTaskRead setSlave m slave now read s).1 ∧
      (slaveTaskRead setSlave m slave now read s).1.slaveCurrIdx = s.slaveCurrIdx := by
  have hset : ∀ (x : SlaveState) (es : List Event) (rc : Bool),
      x.valueOutCurr = (s.slaves s.slaveCurrIdx).valueOutCurr → x.nextWrite = (s.slaves s.slaveCurrIdx).nextWrite →
      (∀ e ∈ es, e.isRead = true) →
      Reads s { s.setSlave s.slaveCurrIdx x with log := s.log ++ es, reconnect := rc } := by
    intro x es rc hc hw hes
    refine ⟨rfl, rfl, fun i => ?_, fun i => ?_, es, rfl, hes⟩
    · by_cases hi : i = s.slaveCurrIdx
      · simp [State.setSlave, hi, hc]
      · simp [State.setSlave, hi]
    · by_cases hi : i = s.slaveCurrIdx
      · simp [State.setSlave, hi, hw]
      · simp [State.setSlave, hi]
  unfold slaveTaskRead
  dsimp only
  split
  · exact ⟨Reads.refl s, rfl⟩
  · split
    · exact ⟨hset _ [_] _ rfl rfl (by simp [Event.isRead]), rfl⟩
    · split
      · exact ⟨hset _ [_] _ rfl rfl (by simp [Event.isRead]), rfl⟩
      · split
        · obtain ⟨rc, hrc⟩ := linkError_eq m _ _
          rw [hrc]
          exact ⟨hset _ [_] _ rfl rfl (by simp [Event.isRead]), rfl⟩
        · exact ⟨hset _ [_] _ rfl rfl (by simp [Event.isRead]), rfl⟩

variable (setSlave m) in
theorem masterTaskRead_reads (now : Int) (env : TaskEnv) (s : State) :
    Reads s (masterTaskRead setSlave m now env s).1 := by
  unfold masterTaskRead
  split
  · exact ⟨rfl, rfl, fun _ => rfl, fun _ => rfl, [], by simp⟩
  · dsimp only
    split
    · exact ⟨rfl, rfl, fun _ => rfl, fun _ => rfl, [], by simp⟩
    · rename_i slave _
      obtain ⟨⟨h1, h2, h3, h4, h5⟩, -⟩ :=
        slaveTaskRead_reads setSlave m slave now env.read { s with reconnect := false }
      exact ⟨h1, h2, h3, h4, h5⟩

variable (setSlave m) in
theorem masterTaskRead_reached (now : Int) (env : TaskEnv) (s : State)
    (h : (masterTaskRead setSlave m now env s).2 = none) :
    (masterTaskRead setSlave m now env s).1.slaveCurrIdx = s.slaveCurrIdx ∧
      ∃ slave, m.slaves[s.slaveCurrIdx]? = some slave := by
  unfold masterTaskRead at h ⊢
  split at h
  · simp at h
  · rename_i hc
    rw [if_neg hc]
    dsimp only at h ⊢
    split at h
    · simp at h
    · rename_i slave hslave
      simp only [hslave]
      exact ⟨(slaveTaskRead_reads setSlave m slave now env.read { s with reconnect := false }).2, slave, rfl⟩

theorem nextSlave_pc {s : State} (h : s.pc ≠ .idle → s.pc = .writing) :
    (nextSlave m s).pc = .idle ∨ (nextSlave m s).pc = .writing := by
  unfold nextSlave
  split
  · by_cases hp : s.pc = .idle
    · exact .inl hp
    · exact .inr (h hp)
  · exact .inl rfl

variable (setSlave m) in
theorem masterTask_pc {s : State} (h : s.pc = .idle) (now : Int) (env : TaskEnv) :
    (masterTask setSlave m now env s).pc = .idle ∨ (masterTask setSlave m now env s).pc = .writing := by
  have hreads := masterTaskRead_reads setSlave m now env s
  unfold masterTask
  split
  · generalize masterTaskRead setSlave m now env s = u at hreads ⊢
    obtain ⟨u, ret⟩ := u
    have hidle : u.pc = .idle := hreads.pc.trans h
    cases ret with
    | some ret =>
      dsimp only
      split <;> exact .inl hidle
    | none =>
      dsimp only
      split
      · exact nextSlave_pc fun hne => absurd hidle hne
      · exact .inr rfl
  · exact .inl h

theorem nextSlave_frame (s : State) : (nextSlave m s).outs = s.outs ∧ (nextSlave m s).log = s.log := by
  unfold nextSlave
  split <;> exact ⟨rfl, rfl⟩

variable (setSlave m) in
theorem masterTask_frame (now : Int) (env : TaskEnv) (s : State) :
    (masterTask setSlave m now env s).outs = s.outs ∧
      ∃ es, (masterTask setSlave m now env s).log = s.log ++ es ∧ ∀ e ∈ es, e.isWritten = false := by
  obtain ⟨hout, -, -, -, es, hlog, hes⟩ := masterTaskRead_reads setSlave m now env s
  have hquiet : ∀ e ∈ es, e.isWritten = false := fun e he => isWritten_reads (hes e he)
  unfold masterTask
  split
  · generalize masterTaskRead setSlave m now env s = u at hout hlog ⊢
    obtain ⟨u, ret⟩ := u
    cases ret with
    | some ret =>
      dsimp only
      split <;> exact ⟨hout, es, hlog, hquiet⟩
    | none =>
      dsimp only
      split
      · rw [(nextSlave_frame u).1, (nextSlave_frame u).2]
        exact ⟨hout, es, hlog, hquiet⟩
      · exact ⟨hout, es, hlog, hquiet⟩
  · exact ⟨rfl, [], by simp, by simp⟩

theorem writeTake_log (s : State) : (writeTake m s).log = s.log := by
  unfold writeTake
  dsimp only
  split
  · exact (nextSlave_frame s).2
  · split <;> rfl

theorem writeReturn_frame (slave : Slave) (env : WriteEnv) (failed : Bool) (s : State) :
    (writeReturn m slave env failed s).outs = s.outs ∧ (writeReturn m slave env failed s).log = s.log ∧
      (writeReturn m slave env failed s).pc = .idle := by
  unfold writeReturn
  split <;> exact ⟨rfl, rfl, rfl⟩

theorem errorReturn_frame (slave : Slave) (env : WriteEnv) (err : Int) (s : State) :
    (writeReturn m slave env true (if err < enobase then linkError m err s else s)).outs = s.outs ∧
      (writeReturn m slave env true (if err < enobase then linkError m err s else s)).log = s.log ∧
      (writeReturn m slave env true (if err < enobase then linkError m err s else s)).pc = .idle := by
  have hlink : ∃ rc, (if err < enobase then linkError m err s else s) = { s with reconnect := rc } := by
    split
    · exact linkError_eq m err s
    · exact ⟨s.reconnect, rfl⟩
  obtain ⟨rc, hrc⟩ := hlink
  rw [hrc]
  exact writeReturn_frame ..

theorem writeFinish_pc (slave : Slave) (blk : Block) (v : SlaveVal) (r : Ref) (f : ℚ) (env : WriteEnv)
    (s : State) : (writeFinish setSlave m slave blk v r f env s).pc = .idle := by
  unfold writeFinish
  split
  · dsimp only
    split <;> exact (writeReturn_frame ..).2.2
  · exact (writeReturn_frame ..).2.2

theorem requeue_log (r : Ref) (f : ℚ) (s : State) : (requeue r f s).log = s.log := by
  unfold requeue
  split <;> rfl

variable (setSlave m) in
theorem writeFinish_log (slave : Slave) (blk : Block) (v : SlaveVal) (r : Ref) (f : ℚ) (env : WriteEnv) (s : State) :
    (writeFinish setSlave m slave blk v r f env s).log = s.log ∨
      ∃ buf, (writeFinish setSlave m slave blk v r f env s).log =
        s.log ++ [.written r f (v.request blk.addr buf f).1 env.result] := by
  unfold writeFinish
  split
  · refine .inr ⟨(s.outs { r with value := v.bitmaskBase.getD r.value }).valbuf, ?_⟩
    dsimp only
    split
    · rw [(writeReturn_frame ..).2.1]
      rfl
    · rw [(errorReturn_frame ..).2.1, requeue_log]
      rfl
  · exact .inl (writeReturn_frame ..).2.1

end Functions

/-! ## A TCP master with coils of one slave -/

/-- `modbus_set_slave` of libmodbus. -/
def modbusSetSlave (tcp : Bool) (id : Int) : Bool := (0 ≤ id && id ≤ 247) || (tcp && id == 255)

def coilConf (title : String) (reg : Int) : ValueConf := { title := title, reg := reg, type := some .bit }

def exampleConf (values : List ValueConf) : MasterConf where
  tcp := true
  slaves := [{
    id := 1
    interval := 1000
    blocks := [{ dir := some .output, regtype := some .bit, addr := 0, count := 2, values := values }] }]

def exampleMaster (values : List ValueConf) : Option Master := masterConfigure (exampleConf values)

theorem modbusSetSlave_accepts (tcp : Bool) (id : Int) (h : idValid tcp id = true) :
    modbusSetSlave tcp id = true := by
  cases tcp
  · simp [idValid, modbusSetSlave] at h ⊢
    omega
  · simpa [idValid, modbusSetSlave] using h

end Uvrgw.Mb
