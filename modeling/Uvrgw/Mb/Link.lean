import Uvrgw.Lib.Latch
import Uvrgw.Mb.Master

/-!
# The link of a Modbus master (`mb.c`)

Which calls of libmodbus a run makes that need the context open or closed, in their order.
-/

namespace Uvrgw.Mb

open Uvrgw.Lib

/-! ## Calls -/

inductive LinkCall where
  | connect (ok : Bool)
  /-- `modbus_rtu_set_*`. -/
  | setLine (ok : Bool)
  | flush
  /-- A read or a write. -/
  | transaction
  | close
  deriving DecidableEq, Repr

/-- The context, open or not, after a call; `none` is a call that the context is not in the state for. -/
def linkAfter (isOpen : Bool) : LinkCall → Option Bool
  | .connect ok => if isOpen then none else some ok
  | .setLine _ | .flush | .transaction => if isOpen then some true else none
  | .close => if isOpen then some false else none

/-! ## The calls of the functions -/

section Functions

variable (setSlave : Bool → Int → Bool) (m : Master)

/-- What the environment does in `master_connect`: whether the calls succeed. -/
structure ConnectEnv where
  connect : Bool := true
  serialMode : Bool := true
  rts : Bool := true
  /-- `none` if no delay is configured. -/
  rtsDelay : Option Bool := none
  deriving DecidableEq, Repr

/-- The results of the line settings up to the first that fails. -/
def untilFalse : List Bool → List Bool
  | [] => []
  | true :: l => true :: untilFalse l
  | false :: _ => [false]

/-- The line settings of an RTU master. -/
def ConnectEnv.settings (env : ConnectEnv) : List Bool :=
  untilFalse ([env.serialMode, env.rts] ++ env.rtsDelay.toList)

/-- `master_connect`: its calls and whether the link is up. -/
def masterConnect (env : ConnectEnv) : List LinkCall × Bool :=
  if !env.connect then ([.connect false], false)
  else if m.tcp then ([.connect true], true)
  else if env.settings.all id then (.connect true :: env.settings.map .setLine, true)
  else (.connect true :: env.settings.map .setLine ++ [.close], false)

def linkErrorCalls (err : Int) : List LinkCall := if m.tcp || err ≠ etimedout then [.close] else []

def slaveTaskReadCalls (slave : Slave) (now : Int) (read : Result) (s : State) : List LinkCall :=
  let x := s.slaves s.slaveCurrIdx
  if now < x.nextPoll then []
  else
    match nextInput slave.blocks x.blockReadIdx with
    | none => []
    | some _ =>
      let calls := if setSlave m.tcp slave.id then [.transaction] else []
      match if setSlave m.tcp slave.id then read else .error einval with
      | .ok => calls
      | .error err => if err < enobase then calls ++ linkErrorCalls m err else calls

/-- `master_task` once the link is up, up to `slave_task_write`. -/
def openTaskCalls (now : Int) (read : Result) (s : State) : List LinkCall :=
  (if m.tcp then [] else [.flush]) ++
    match m.slaves[s.slaveCurrIdx]? with
    | none => []
    | some slave => slaveTaskReadCalls setSlave m slave now read s

/-- A pass of `master_thread`, up to the loop of `slave_task_write`. -/
def masterTaskCalls (now : Int) (env : ConnectEnv) (read : Result) (s : State) : List LinkCall :=
  if s.nextTransaction ≤ now then
    if s.reconnect then
      let (calls, up) := masterConnect m env
      if up then calls ++ openTaskCalls setSlave m now read s else calls
    else openTaskCalls setSlave m now read s
  else []

/-- The rest of `write_execute`. -/
def writeFinishCalls (slave : Slave) (result : Result) : List LinkCall :=
  if setSlave m.tcp slave.id then
    match result with
    | .ok => [.transaction]
    | .error err => .transaction :: if err < enobase then linkErrorCalls m err else []
  else []

/-- A step and what `master_connect` meets in it. -/
abbrev LinkAct : Type := Act × ConnectEnv

/-- The result of `master_connect` is the one of its calls. -/
def LinkAct.act (a : LinkAct) : Act :=
  match a.1 with
  | .task now env => .task now { env with connected := (masterConnect m a.2).2 }
  | act => act

def linkStep (s : State) (a : LinkAct) : Option State := step setSlave m s (LinkAct.act m a)

/-- The calls of a step. -/
def callsOf (s : State) (a : LinkAct) : List LinkCall :=
  match a.1 with
  | .task now env => masterTaskCalls setSlave m now a.2 env.read s
  | .finish env =>
    match m.slaves[s.slaveCurrIdx]? with
    | none => []
    | some slave => writeFinishCalls setSlave m slave env.result
  | .schedule .. | .take => []

/-- The calls of a run. -/
def calls : State → List LinkAct → List LinkCall
  | _, [] => []
  | s, a :: acts => callsOf setSlave m s a ++ (linkStep setSlave m s a).elim [] fun t => calls t acts

end Functions

variable {setSlave : Bool → Int → Bool} {m : Master}

/-! ## One function -/

theorem run_connect (env : ConnectEnv) : Run linkAfter false (masterConnect m env).1 (masterConnect m env).2 := by
  have hset : ∀ l : List Bool, Run linkAfter true (l.map .setLine) true := by
    intro l
    induction l with
    | nil => exact (run_nil _ _).mpr rfl
    | cons b l ih => exact (run_cons ..).mpr ⟨true, rfl, ih⟩
  unfold masterConnect
  split
  · exact (run_cons ..).mpr ⟨false, rfl, (run_nil ..).mpr rfl⟩
  · split
    · exact (run_cons ..).mpr ⟨true, rfl, (run_nil ..).mpr rfl⟩
    · split
      · exact (run_cons ..).mpr ⟨true, rfl, hset _⟩
      · refine (run_cons ..).mpr ⟨true, rfl, (run_append ..).mpr ⟨true, hset _, ?_⟩⟩
        exact (run_cons ..).mpr ⟨false, rfl, (run_nil ..).mpr rfl⟩

/-- `link_error` closes the link if and only if it asks for a new one. -/
theorem run_linkError {s : State} (err : Int) (hs : s.reconnect = false) :
    Run linkAfter true (linkErrorCalls m err) (!(linkError m err s).reconnect) := by
  unfold linkErrorCalls linkError
  split
  · exact (run_cons ..).mpr ⟨false, rfl, (run_nil ..).mpr rfl⟩
  · rw [hs]
    exact (run_nil ..).mpr rfl

variable (setSlave m) in
theorem run_read (slave : Slave) (now : Int) (read : Result) {s : State} (hs : s.reconnect = false) :
    Run linkAfter true (slaveTaskReadCalls setSlave m slave now read s)
      (!(slaveTaskRead setSlave m slave now read s).1.reconnect) := by
  have htrans : Run linkAfter true (if setSlave m.tcp slave.id then [.transaction] else []) true := by
    split
    · exact (run_cons ..).mpr ⟨true, rfl, (run_nil ..).mpr rfl⟩
    · exact (run_nil ..).mpr rfl
  unfold slaveTaskReadCalls slaveTaskRead
  dsimp only
  by_cases hpoll : now < (s.slaves s.slaveCurrIdx).nextPoll
  · rw [if_pos hpoll, if_pos hpoll, hs]
    exact (run_nil ..).mpr rfl
  · rw [if_neg hpoll, if_neg hpoll]
    cases nextInput slave.blocks (s.slaves s.slaveCurrIdx).blockReadIdx with
    | none =>
      dsimp only [State.setSlave, State.add]
      rw [hs]
      exact (run_nil ..).mpr rfl
    | some b =>
      dsimp only
      generalize hresult : (if setSlave m.tcp slave.id = true then read else .error einval) = result
      cases result with
      | ok =>
        dsimp only [State.setSlave, State.add]
        rw [hs]
        exact htrans
      | error err =>
        dsimp only
        split
        · exact (run_append ..).mpr ⟨true, htrans, run_linkError err hs⟩
        · dsimp only [State.setSlave, State.add]
          rw [hs]
          exact htrans

theorem slaveTaskRead_quiet {slave : Slave} {now : Int} {read : Result} {s : State}
    (h : (slaveTaskRead setSlave m slave now read s).2 = 0) :
    (slaveTaskRead setSlave m slave now read s).1.reconnect = s.reconnect := by
  unfold slaveTaskRead at h ⊢
  dsimp only at h ⊢
  split
  · rfl
  · rename_i hpoll
    rw [if_neg hpoll] at h
    split
    · rfl
    · rename_i b hb
      simp only [hb] at h
      split at h
      · cases h
      · split at h <;> cases h

/-! ## One step -/

/-- No write is under way on a closed link. -/
def Ready (s : State) : Prop := s.pc ≠ .idle → s.reconnect = false

@[simp] theorem nextSlave_reconnect (s : State) : (nextSlave m s).reconnect = s.reconnect := by
  unfold nextSlave
  split <;> rfl

theorem masterTaskRead_open (now : Int) (env : TaskEnv) {s : State} (h : (s.reconnect && !env.connected) = false) :
    masterTaskRead setSlave m now env s = masterTaskRead setSlave m now env { s with reconnect := false } := by
  unfold masterTaskRead
  rw [h]
  rfl

variable (setSlave m) in
theorem run_openTask (now : Int) (env : TaskEnv) {s : State} (hs : s.reconnect = false) :
    Run linkAfter true (openTaskCalls setSlave m now env.read s)
      (!(masterTaskRead setSlave m now env s).1.reconnect) := by
  have hflush : Run linkAfter true (if m.tcp then [] else [.flush]) true := by
    split
    · exact (run_nil ..).mpr rfl
    · exact (run_cons ..).mpr ⟨true, rfl, (run_nil ..).mpr rfl⟩
  refine (run_append ..).mpr ⟨true, hflush, ?_⟩
  have hread := fun slave => run_read setSlave m slave now env.read (s := { s with reconnect := false }) rfl
  unfold masterTaskRead
  rw [hs, if_neg (by simp)]
  dsimp only
  cases m.slaves[s.slaveCurrIdx]? with
  | none => exact (run_nil ..).mpr rfl
  | some slave => exact hread slave

/-- The environment of a pass whose `master_connect` meets `cenv`. -/
def taskEnv (m : Master) (env : TaskEnv) (cenv : ConnectEnv) : TaskEnv :=
  { env with connected := (masterConnect m cenv).2 }

variable (setSlave m) in
theorem run_taskRead (now : Int) (env : TaskEnv) (cenv : ConnectEnv) {s : State} (h : s.nextTransaction ≤ now) :
    Run linkAfter (!s.reconnect) (masterTaskCalls setSlave m now cenv env.read s)
      (!(masterTaskRead setSlave m now (taskEnv m env cenv) s).1.reconnect) := by
  have hconnect := run_connect (m := m) cenv
  unfold masterTaskCalls
  rw [if_pos h]
  cases hr : s.reconnect with
  | false =>
    rw [if_neg (by simp)]
    exact run_openTask setSlave m now (taskEnv m env cenv) hr
  | true =>
    rw [if_pos rfl]
    dsimp only
    cases hup : (masterConnect m cenv).2 with
    | false =>
      rw [hup] at hconnect
      rw [if_neg (by simp), masterTaskRead, hr, taskEnv, hup, if_pos (by simp)]
      dsimp only
      exact hconnect
    | true =>
      rw [hup] at hconnect
      rw [if_pos rfl, masterTaskRead_open now _ (by simp [taskEnv, hup])]
      have hopen := run_openTask setSlave m now (taskEnv m env cenv) (s := { s with reconnect := false }) rfl
      exact (run_append ..).mpr ⟨true, hconnect, hopen⟩

theorem masterTask_reconnect (now : Int) (env : TaskEnv) (s : State) :
    (masterTask setSlave m now env s).reconnect =
      if s.nextTransaction ≤ now then (masterTaskRead setSlave m now env s).1.reconnect else s.reconnect := by
  unfold masterTask
  split
  · generalize masterTaskRead setSlave m now env s = r
    obtain ⟨u, ret⟩ := r
    cases ret with
    | some ret =>
      dsimp only
      split <;> rfl
    | none =>
      dsimp only
      split
      · exact nextSlave_reconnect u
      · rfl
  · rfl

theorem masterTaskRead_none {now : Int} {env : TaskEnv} {s : State}
    (h : (masterTaskRead setSlave m now env s).2 = none) :
    (masterTaskRead setSlave m now env s).1.reconnect = false := by
  unfold masterTaskRead at h ⊢
  split
  · rename_i hclosed
    rw [if_pos hclosed] at h
    cases h
  · rename_i hopen
    rw [if_neg hopen] at h
    dsimp only at h ⊢
    cases hslave : m.slaves[s.slaveCurrIdx]? with
    | none => rfl
    | some slave =>
      rw [hslave] at h
      dsimp only at h ⊢
      apply slaveTaskRead_quiet
      by_contra hret
      rw [if_pos hret] at h
      cases h

theorem masterTask_ready (now : Int) (env : TaskEnv) {s : State} (hidle : s.pc = .idle) :
    Ready (masterTask setSlave m now env s) := by
  have hreads := masterTaskRead_reads setSlave m now env s
  intro hpc
  rw [masterTask_reconnect]
  unfold masterTask at hpc
  by_cases hdue : s.nextTransaction ≤ now
  · rw [if_pos hdue] at hpc ⊢
    apply masterTaskRead_none
    cases hret : (masterTaskRead setSlave m now env s).2 with
    | none => rfl
    | some ret =>
      exfalso
      apply hpc
      rw [← Prod.mk.eta (p := masterTaskRead setSlave m now env s), hret]
      dsimp only
      split <;> exact hreads.pc.trans hidle
  · rw [if_neg hdue] at hpc
    exact absurd hidle hpc

/-! ### Writes -/

@[simp] theorem writeReturn_reconnect (slave : Slave) (env : WriteEnv) (failed : Bool) (s : State) :
    (writeReturn m slave env failed s).reconnect = s.reconnect := by
  unfold writeReturn
  split <;> rfl

@[simp] theorem requeue_reconnect (r : Ref) (f : ℚ) (s : State) : (requeue r f s).reconnect = s.reconnect := by
  unfold requeue
  split <;> rfl

variable (setSlave m) in
theorem run_writeFinish (slave : Slave) (blk : Block) (v : SlaveVal) (r : Ref) (f : ℚ) (env : WriteEnv) {s : State}
    (hs : s.reconnect = false) : Run linkAfter true (writeFinishCalls setSlave m slave env.result)
      (!(writeFinish setSlave m slave blk v r f env s).reconnect) := by
  unfold writeFinishCalls writeFinish
  split
  · dsimp only
    cases env.result with
    | ok =>
      dsimp only
      rw [writeReturn_reconnect]
      dsimp only [State.add, State.setOut]
      rw [hs]
      exact (run_cons ..).mpr ⟨true, rfl, (run_nil ..).mpr rfl⟩
    | error err =>
      dsimp only
      rw [writeReturn_reconnect]
      refine (run_cons ..).mpr ⟨true, rfl, ?_⟩
      split
      · apply run_linkError
        rw [requeue_reconnect]
        exact hs
      · rw [requeue_reconnect]
        dsimp only [State.add, State.setOut]
        rw [hs]
        exact (run_nil ..).mpr rfl
  · rw [writeReturn_reconnect, hs]
    exact (run_nil ..).mpr rfl

theorem writeTake_reconnect (s : State) : (writeTake m s).reconnect = s.reconnect := by
  unfold writeTake
  dsimp only
  split
  · exact nextSlave_reconnect s
  · split <;> rfl

/-! ### Any step -/

theorem link_step {s t : State} {a : LinkAct} (h : linkStep setSlave m s a = some t) (hs : Ready s) :
    Run linkAfter (!s.reconnect) (callsOf setSlave m s a) (!t.reconnect) ∧ Ready t := by
  obtain ⟨act, cenv⟩ := a
  unfold linkStep at h
  cases act with
  | schedule r f =>
    cases moves_of_step h with
    | schedule hr => exact ⟨(run_nil ..).mpr rfl, hs⟩
  | task now env =>
    cases moves_of_step h with
    | task hpc =>
      refine ⟨?_, masterTask_ready now _ hpc⟩
      rw [masterTask_reconnect]
      by_cases hdue : s.nextTransaction ≤ now
      · rw [if_pos hdue]
        exact run_taskRead setSlave m now env cenv hdue
      · unfold callsOf masterTaskCalls
        dsimp only
        rw [if_neg hdue, if_neg hdue]
        exact (run_nil ..).mpr rfl
  | take =>
    cases moves_of_step h with
    | take hpc =>
      have hopen : s.reconnect = false := hs (by rw [hpc]; simp)
      rw [Ready, writeTake_reconnect]
      exact ⟨(run_nil ..).mpr rfl, fun _ => hopen⟩
  | finish env =>
    cases moves_of_step h with
    | @finish _ r f slave blk v hpc hslave hblk hv =>
      have hopen : s.reconnect = false := hs (by rw [hpc]; simp)
      rw [hopen, callsOf, hslave]
      exact ⟨run_writeFinish setSlave m slave blk v r f env hopen, fun hne => absurd (writeFinish_pc ..) hne⟩

/-! ## Runs -/

variable (setSlave m) in
/-- **The link.** In every run the link is opened only while it is closed, everything else is called only while it is
open, and `reconnect` always says which it is. -/
theorem link_used (acts : List LinkAct) (t : State) (h : Run (linkStep setSlave m) start acts t) :
    Run linkAfter false (calls setSlave m start acts) (!t.reconnect) ∧ Ready t := by
  have hrun : ∀ s, Run (linkStep setSlave m) s acts t → Ready s →
      Run linkAfter (!s.reconnect) (calls setSlave m s acts) (!t.reconnect) ∧ Ready t := by
    clear h
    induction acts with
    | nil =>
      intro s h hs
      obtain rfl := (run_nil s t).mp h
      exact ⟨(run_nil ..).mpr rfl, hs⟩
    | cons a acts ih =>
      intro s h hs
      obtain ⟨u, hu, h⟩ := (run_cons s a acts t).mp h
      obtain ⟨hcalls, hready⟩ := link_step hu hs
      obtain ⟨hrest, ht⟩ := ih u h hready
      refine ⟨?_, ht⟩
      rw [calls, hu]
      exact (run_append ..).mpr ⟨_, hcalls, hrest⟩
  exact hrun start h fun hne => absurd rfl hne

/-! ## Attempts to connect -/

/-- A call of `master_connect`. -/
structure Connect where
  now : Int
  up : Bool
  /-- The `utl_get_ticks` after it. -/
  ticks : Int
  deriving DecidableEq, Repr

def connectOf (m : Master) (s : State) (a : LinkAct) : Option Connect :=
  match a.1 with
  | .task now env =>
    if s.nextTransaction ≤ now ∧ s.reconnect then some ⟨now, (masterConnect m a.2).2, env.ticks⟩ else none
  | .schedule .. | .take | .finish _ => none

def connects (setSlave : Bool → Int → Bool) (m : Master) : State → List LinkAct → List Connect
  | _, [] => []
  | s, a :: acts => (connectOf m s a).toList ++ (linkStep setSlave m s a).elim [] fun t => connects setSlave m t acts

/-- `connect_failed` after an attempt, and whether a failure (`true`) or the end of one is logged. -/
def connectReport (connectFailed : Bool) (x : Connect) : Bool × List Bool :=
  if x.up then (false, if connectFailed then [false] else []) else (true, if connectFailed then [] else [true])

def connectReports : Bool → List Connect → Bool × List Bool
  | connectFailed, [] => (connectFailed, [])
  | connectFailed, x :: l =>
    let (connectFailed, log) := connectReport connectFailed x
    let (connectFailed, log') := connectReports connectFailed l
    (connectFailed, log ++ log')

theorem connectReports_reported (connectFailed : Bool) (l : List Connect) :
    Reported connectFailed (l.map (!·.up)) (connectReports connectFailed l).1 (connectReports connectFailed l).2 := by
  induction l generalizing connectFailed with
  | nil => exact Reported.nil _
  | cons x l ih =>
    have hfirst : Reported connectFailed [!x.up] (connectReport connectFailed x).1
        (connectReport connectFailed x).2 := by
      unfold connectReport
      cases x.up <;> cases connectFailed
      · exact Reported.change Bool.false_ne_true
      · exact Reported.same true
      · exact Reported.same false
      · exact Reported.change Bool.false_ne_true.symm
    exact hfirst.append (ih _)

/-- After a failed attempt the thread waits. -/
def Waiting (x : Connect) (s : State) : Prop :=
  x.up = false → s.reconnect = true ∧ s.pc = .idle ∧ s.nextTransaction = x.ticks + reconnectDelay

theorem Waiting.connect {x y : Connect} {s : State} {a : LinkAct} (hx : Waiting x s) (hy : connectOf m s a = some y) :
    x.up = false → x.ticks + reconnectDelay ≤ y.now := by
  intro hup
  obtain ⟨-, -, hnext⟩ := hx hup
  unfold connectOf at hy
  split at hy
  · split at hy
    · rename_i hdue
      cases hy
      dsimp only
      omega
    · cases hy
  all_goals cases hy

theorem connect_waiting {s t : State} {a : LinkAct} {y : Connect} (h : linkStep setSlave m s a = some t)
    (hy : connectOf m s a = some y) : Waiting y t := by
  obtain ⟨act, cenv⟩ := a
  intro hup
  cases act with
  | task now env =>
    unfold linkStep at h
    cases moves_of_step h with
    | task hpc =>
      simp only [connectOf, Option.ite_none_right_eq_some, Option.some.injEq] at hy
      obtain ⟨⟨hdue, hclosed⟩, rfl⟩ := hy
      dsimp only at hup ⊢
      unfold masterTask masterTaskRead
      rw [if_pos hdue, hclosed, hup, if_pos (by simp)]
      exact ⟨rfl, hpc, rfl⟩
  | schedule r f => cases hy
  | take => cases hy
  | finish env => cases hy

theorem Waiting.step {x : Connect} {s t : State} {a : LinkAct} (hx : Waiting x s)
    (h : linkStep setSlave m s a = some t) (hy : connectOf m s a = none) : Waiting x t := by
  obtain ⟨act, cenv⟩ := a
  intro hup
  obtain ⟨hclosed, hpc, hnext⟩ := hx hup
  unfold linkStep at h
  cases act with
  | schedule r f =>
    cases moves_of_step h with
    | schedule hr => exact ⟨hclosed, hpc, hnext⟩
  | task now env =>
    cases moves_of_step h with
    | task _ =>
      have hearly : ¬ s.nextTransaction ≤ now := by
        intro hdue
        simp [connectOf, hdue, hclosed] at hy
      unfold masterTask
      rw [if_neg hearly]
      exact ⟨hclosed, hpc, hnext⟩
  | take =>
    cases moves_of_step h with
    | take hwriting =>
      rw [hpc] at hwriting
      cases hwriting
  | finish env =>
    cases moves_of_step h with
    | finish hexec =>
      rw [hpc] at hexec
      cases hexec

variable (setSlave m) in
/-- **Attempts.** After a failed attempt to connect the next one comes a second later or more, and what is logged are
the changes between failure and success. -/
theorem connects_paced (acts : List LinkAct) (t : State) (h : Run (linkStep setSlave m) start acts t) :
    (connects setSlave m start acts).IsChain (fun x y => x.up = false → x.ticks + reconnectDelay ≤ y.now) ∧
      Reported false ((connects setSlave m start acts).map (!·.up))
        (connectReports false (connects setSlave m start acts)).1
        (connectReports false (connects setSlave m start acts)).2 := by
  refine ⟨?_, connectReports_reported false _⟩
  have hrun : ∀ s, Run (linkStep setSlave m) s acts t →
      (connects setSlave m s acts).IsChain (fun x y => x.up = false → x.ticks + reconnectDelay ≤ y.now) ∧
        ∀ x, Waiting x s → ∀ y ∈ (connects setSlave m s acts).head?,
          x.up = false → x.ticks + reconnectDelay ≤ y.now := by
    clear h
    induction acts with
    | nil => exact fun s _ => ⟨List.IsChain.nil, by simp [connects]⟩
    | cons a acts ih =>
      intro s h
      obtain ⟨u, hu, h⟩ := (run_cons s a acts t).mp h
      obtain ⟨hchain, hhead⟩ := ih u h
      rw [connects, hu]
      cases hy : connectOf m s a with
      | none => exact ⟨hchain, fun x hx => hhead x (hx.step hu hy)⟩
      | some y =>
        refine ⟨List.isChain_cons.mpr ⟨hhead y (connect_waiting hu hy), hchain⟩, fun x hx z hz => ?_⟩
        obtain rfl : y = z := by simpa using hz
        exact hx.connect hy
  exact (hrun start h).1

/-! An RTU master with one coil, whose port opens at the second attempt and fails at the first write. -/

def coilMaster : Master :=
  (masterConfigure { exampleConf [coilConf "a" 0] with tcp := false }).get (by decide +kernel)

def linkActs : List LinkAct :=
  [(.schedule ⟨0, 0, 0⟩ 1, {}), (.task 0 { ticks := 5 }, { connect := false }), (.task 500 {}, {}),
    (.task 1005 {}, {}), (.take, {}), (.task 1015 {}, {}), (.take, {}), (.finish { result := .error 5 }, {})]

def linkEnd : State := (linkActs.foldlM (linkStep (fun _ _ => true) coilMaster) start).get (by decide +kernel)

theorem link_used_example : Run linkAfter false
    [.connect false, .connect true, .setLine true, .setLine true, .flush, .flush, .transaction, .close] false := by
  have h := (link_used (fun _ _ => true) coilMaster linkActs linkEnd (Option.some_get _).symm).1
  have hcalls : calls (fun _ _ => true) coilMaster start linkActs =
      [.connect false, .connect true, .setLine true, .setLine true, .flush, .flush, .transaction, .close] := by
    decide +kernel
  have hclosed : linkEnd.reconnect = true := by decide +kernel
  rw [hcalls, hclosed] at h
  exact h

theorem connects_paced_example :
    [⟨0, false, 5⟩, ⟨1005, true, 0⟩].IsChain (fun x y : Connect => x.up = false → x.ticks + reconnectDelay ≤ y.now) ∧
      Reported false [true, false] false [true, false] := by
  obtain ⟨hchain, hreports⟩ := connects_paced (fun _ _ => true) coilMaster linkActs linkEnd (Option.some_get _).symm
  have hconnects : connects (fun _ _ => true) coilMaster start linkActs = [⟨0, false, 5⟩, ⟨1005, true, 0⟩] := by
    decide +kernel
  rw [hconnects] at hchain hreports
  exact ⟨hchain, hreports⟩

end Uvrgw.Mb
