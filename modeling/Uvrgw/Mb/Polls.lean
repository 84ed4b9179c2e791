import Mathlib.Data.List.Infix
import Uvrgw.Mb.Master

/-!
# Polling a Modbus slave

A cycle of a slave is what is read between two moves of `next_poll`. Every cycle that ends with all input
blocks done has read each of them once, in order, as long as `slave_task_read` does not come back to the
slave after the end of a cycle before the slave was left.
-/

namespace Uvrgw.Mb

open Uvrgw.Lib

/-! ## Input blocks -/

def isInput (blocks : List Block) (b : Nat) : Bool := (blocks[b]?).any (·.dir = .input)

def inputsBefore (blocks : List Block) (k : Nat) : List Nat := (List.range k).filter (isInput blocks)

def Slave.inputs (slave : Slave) : List Nat := inputsBefore slave.blocks slave.blocks.length

theorem inputsBefore_mono (blocks : List Block) {k n : Nat} (h : k ≤ n) :
    inputsBefore blocks k <+: inputsBefore blocks n := by
  apply List.IsPrefix.filter
  obtain ⟨d, rfl⟩ := Nat.exists_eq_add_of_le h
  rw [List.range_add]
  exact List.prefix_append ..

theorem inputsBefore_skip {blocks : List Block} {k n : Nat} (h : k ≤ n)
    (hskip : ∀ j, k ≤ j → j < n → isInput blocks j = false) : inputsBefore blocks n = inputsBefore blocks k := by
  induction n, h using Nat.le_induction with
  | base => rfl
  | succ n hn ih =>
    rw [← ih fun j hj hlt => hskip j hj (by omega)]
    unfold inputsBefore
    rw [List.range_succ, List.filter_append, List.filter_cons_of_neg (by simp [hskip n hn (by omega)])]
    simp

theorem isInput_of_ge {blocks : List Block} {b : Nat} (h : blocks.length ≤ b) : isInput blocks b = false := by
  simp [isInput, List.getElem?_eq_none h]

theorem nextInput_none {blocks : List Block} {idx : Nat} (h : nextInput blocks idx = none) :
    inputsBefore blocks idx = inputsBefore blocks blocks.length := by
  rw [nextInput, Option.map_eq_none_iff, List.findIdx?_eq_none_iff] at h
  rcases Nat.le_total idx blocks.length with hle | hle
  · refine (inputsBefore_skip hle fun j hj hlt => ?_).symm
    have := h blocks[j] (List.mem_iff_getElem?.mpr ⟨j - idx, by simp [List.getElem?_drop, hj, hlt]⟩)
    simpa [isInput, hlt] using this
  · exact inputsBefore_skip hle fun j hj _ => isInput_of_ge hj

theorem nextInput_some {blocks : List Block} {idx b : Nat} (h : nextInput blocks idx = some b) :
    b < blocks.length ∧ inputsBefore blocks (b + 1) = inputsBefore blocks idx ++ [b] := by
  obtain ⟨j, hj, rfl⟩ := Option.map_eq_some_iff.mp h
  obtain ⟨hlt, hdir, hbefore⟩ := List.findIdx?_eq_some_iff_getElem.mp hj
  have hlen : idx + j < blocks.length := by simpa [Nat.lt_sub_iff_add_lt'] using hlt
  have hb : isInput blocks (idx + j) = true := by simpa [isInput, hlen] using hdir
  refine ⟨hlen, ?_⟩
  have hskip : inputsBefore blocks (idx + j) = inputsBefore blocks idx := by
    refine inputsBefore_skip (by omega) fun k hk hlt => ?_
    have := hbefore (k - idx) (by omega)
    simpa [isInput, hk, show k < blocks.length by omega] using this
  unfold inputsBefore at hskip ⊢
  rw [List.range_succ, List.filter_append, hskip, List.filter_cons_of_pos hb, List.filter_nil]

/-! ## Cycles -/

def Result.NoResponse : Result → Prop
  | .ok => False
  | .error err => err < enobase

instance : DecidablePred Result.NoResponse
  | .ok => isFalse id
  | .error err => inferInstanceAs (Decidable (err < enobase))

/-- The blocks read since `next_poll` of slave `i` was moved, after an event. -/
def cycleStep (i : Nat) (blocks : List Nat) : Event → List Nat
  | .polled j => if j = i then [] else blocks
  | .read j b result => if j = i then (if result.NoResponse then [] else blocks ++ [b]) else blocks
  | _ => blocks

def cycle (i : Nat) (log : List Event) : List Nat := log.foldl (cycleStep i) []

theorem cycle_concat (i : Nat) (log : List Event) (e : Event) :
    cycle i (log ++ [e]) = cycleStep i (cycle i log) e := by
  simp [cycle]

/-- Every attempt is for the next input block, and a cycle ends with all blocks done only after all of them. -/
def Complete (i : Nat) (slave : Slave) (log : List Event) : Prop :=
  ∀ pre e, pre ++ [e] <+: log →
    (e = .polled i → cycle i pre = slave.inputs) ∧
      ∀ b result, e = .read i b result → cycle i pre ++ [b] <+: slave.inputs

def Event.Off (i : Nat) (e : Event) : Prop := e ≠ .polled i ∧ ∀ b result, e ≠ .read i b result

theorem cycleStep_off {i : Nat} {e : Event} (h : e.Off i) (blocks : List Nat) : cycleStep i blocks e = blocks := by
  cases e with
  | scheduled => rfl
  | written => rfl
  | polled j => exact if_neg fun hj => h.1 (by rw [hj])
  | read j b result => exact if_neg fun hj => h.2 b result (by rw [hj])

theorem Complete.concat {i : Nat} {slave : Slave} {log : List Event} (h : Complete i slave log) {e : Event}
    (hp : e = .polled i → cycle i log = slave.inputs)
    (hr : ∀ b result, e = .read i b result → cycle i log ++ [b] <+: slave.inputs) :
    Complete i slave (log ++ [e]) := by
  intro pre e' hpre
  rcases List.prefix_concat_iff.mp hpre with heq | hpre
  · obtain ⟨rfl, he⟩ := List.append_inj' heq rfl
    obtain rfl : e' = e := by simpa using he
    exact ⟨hp, hr⟩
  · exact h pre e' hpre

theorem Complete.off {i : Nat} {slave : Slave} {log : List Event} (h : Complete i slave log) {e : Event}
    (he : e.Off i) : Complete i slave (log ++ [e]) :=
  h.concat (fun hp => absurd hp he.1) fun b result hr => absurd hr (he.2 b result)

/-! ## Reads -/

section Reads

variable (setSlave : Bool → Int → Bool) (m : Master)

/-- What `slave_task_read` does to the current slave. -/
inductive ReadStep (slave : Slave) (now : Int) (s t : State) (ret : Int) : Prop
  | early (h : now < (s.slaves s.slaveCurrIdx).nextPoll) (hret : ret = 0) (hlog : t.log = s.log)
  | polled (h : (s.slaves s.slaveCurrIdx).nextPoll ≤ now) (hret : ret = 0)
      (hall : inputsBefore slave.blocks (s.slaves s.slaveCurrIdx).blockReadIdx = slave.inputs)
      (hlog : t.log = s.log ++ [.polled s.slaveCurrIdx])
  | read (b : Nat) (result : Result) (h : (s.slaves s.slaveCurrIdx).nextPoll ≤ now) (hret : ret ≠ 0)
      (hb : b < slave.blocks.length)
      (hnext : inputsBefore slave.blocks (b + 1) =
        inputsBefore slave.blocks (s.slaves s.slaveCurrIdx).blockReadIdx ++ [b])
      (hlog : t.log = s.log ++ [.read s.slaveCurrIdx b result])
      (hidx : (t.slaves s.slaveCurrIdx).blockReadIdx = b + 1)

theorem slaveTaskRead_step (slave : Slave) (now : Int) (read : Result) (s : State) :
    ReadStep slave now s (slaveTaskRead setSlave m slave now read s).1
      (slaveTaskRead setSlave m slave now read s).2 := by
  unfold slaveTaskRead
  dsimp only
  split
  · rename_i h
    exact .early h rfl rfl
  · rename_i h
    have hdue := not_lt.mp h
    split
    · rename_i hnext
      exact .polled hdue rfl (nextInput_none hnext) rfl
    · rename_i b hnext
      obtain ⟨hb, hinputs⟩ := nextInput_some hnext
      generalize (if setSlave m.tcp slave.id then read else .error einval) = result
      cases result with
      | ok => exact .read b .ok hdue (by simp) hb hinputs rfl (by simp [State.setSlave])
      | error err =>
        dsimp only
        split
        · obtain ⟨rc, hrc⟩ := linkError_eq m err
            ((s.add (.read s.slaveCurrIdx b (.error err))).setSlave s.slaveCurrIdx
            { s.slaves s.slaveCurrIdx with blockReadIdx := b + 1, nextPoll := now + slave.interval })
          rw [hrc]
          exact .read b (.error err) hdue (by simp) hb hinputs rfl (by simp [State.setSlave])
        · exact .read b (.error err) hdue (by simp) hb hinputs rfl (by simp [State.setSlave])

def Enters (s : State) (now : Int) (env : TaskEnv) : Prop :=
  s.nextTransaction ≤ now ∧ (s.reconnect = true → env.connected = true)

/-- Where `slave_task_read` goes on with a cycle, the clock has not gone back behind `next_poll`; where it begins
one, `block_read_idx` is not behind an input block any more. -/
def Rewound (s : State) : Act → Prop
  | .task now env => Enters s now env → ∀ slave, m.slaves[s.slaveCurrIdx]? = some slave →
      if now < (s.slaves s.slaveCurrIdx).nextPoll then cycle s.slaveCurrIdx s.log = []
      else cycle s.slaveCurrIdx s.log = [] →
        inputsBefore slave.blocks (s.slaves s.slaveCurrIdx).blockReadIdx = []
  | _ => True

instance (s : State) (now : Int) (env : TaskEnv) : Decidable (Enters s now env) := by
  unfold Enters
  infer_instance

instance (s : State) : ∀ a, Decidable (Rewound m s a)
  | .task now env =>
    match h : m.slaves[s.slaveCurrIdx]? with
    | none => isTrue fun _ slave hslave => by simp [h] at hslave
    | some slave =>
      decidable_of_iff (Enters s now env →
          if now < (s.slaves s.slaveCurrIdx).nextPoll then cycle s.slaveCurrIdx s.log = []
          else cycle s.slaveCurrIdx s.log = [] →
            inputsBefore slave.blocks (s.slaves s.slaveCurrIdx).blockReadIdx = [])
        (by simp [Rewound, h])
  | .schedule .. | .take | .finish _ => isTrue trivial

structure PollInv (i : Nat) (slave : Slave) (s : State) : Prop where
  complete : Complete i slave s.log
  /-- Within a cycle the slave is the current one, and its blocks up to `block_read_idx` have been read. -/
  within : cycle i s.log ≠ [] → s.slaveCurrIdx = i ∧ s.pc = .idle ∧
    cycle i s.log = inputsBefore slave.blocks (s.slaves i).blockReadIdx

variable {setSlave m} {i : Nat} {slave : Slave} {s t : State}

theorem PollInv.rest (h : PollInv i slave s) (hlog : t.log = s.log) (hc : cycle i s.log = []) :
    PollInv i slave t := by
  refine ⟨hlog ▸ h.complete, fun hne => ?_⟩
  rw [hlog] at hne
  exact absurd hc hne

theorem PollInv.off (h : PollInv i slave s) {e : Event} (he : e.Off i) (hlog : t.log = s.log ++ [e])
    (hc : cycle i s.log ≠ [] → t.slaveCurrIdx = s.slaveCurrIdx ∧ t.pc = s.pc ∧
      (t.slaves i).blockReadIdx = (s.slaves i).blockReadIdx) : PollInv i slave t := by
  have hcycle : cycle i t.log = cycle i s.log := by
    rw [hlog, cycle_concat, cycleStep_off he]
  refine ⟨hlog ▸ h.complete.off he, fun hne => ?_⟩
  rw [hcycle] at hne ⊢
  obtain ⟨hcurr, hpc, hidx⟩ := hc hne
  rw [hcurr, hpc, hidx]
  exact h.within hne

theorem PollInv.schedule (h : PollInv i slave s) (r : Ref) (f : ℚ) : PollInv i slave (writeSchedule r f s) :=
  h.off (e := .scheduled r f) ⟨by simp, by simp⟩ rfl fun _ => ⟨rfl, rfl, rfl⟩

theorem PollInv.take (h : PollInv i slave s) (hpc : s.pc = .writing) : PollInv i slave (writeTake m s) := by
  have hc : cycle i s.log = [] := by
    by_contra hne
    have := (h.within hne).2.1
    rw [hpc] at this
    cases this
  refine h.rest ?_ hc
  unfold writeTake nextSlave
  dsimp only
  repeat' split
  all_goals rfl

theorem PollInv.finish (h : PollInv i slave s) {r : Ref} {f : ℚ} (hpc : s.pc = .executing r f) (slave' : Slave)
    (blk : Block) (v : SlaveVal) (env : WriteEnv) :
    PollInv i slave (writeFinish setSlave m slave' blk v r f env s) := by
  have hc : cycle i s.log = [] := by
    by_contra hne
    have := (h.within hne).2.1
    rw [hpc] at this
    cases this
  rcases writeFinish_log setSlave m slave' blk v r f env s with hlog | ⟨buf, hlog⟩
  · exact h.rest hlog hc
  · exact h.off ⟨by simp, by simp⟩ hlog fun hne => absurd hc hne

variable (setSlave m) in
theorem masterTaskRead_cases (now : Int) (env : TaskEnv) (s : State) :
    ((masterTaskRead setSlave m now env s).1.log = s.log ∧ (masterTaskRead setSlave m now env s).1.slaves = s.slaves ∧
      ((masterTaskRead setSlave m now env s).1.slaveCurrIdx = s.slaveCurrIdx ∨ m.slaves[s.slaveCurrIdx]? = none) ∧
      (masterTaskRead setSlave m now env s).2 ≠ none) ∨
    (s.reconnect = true → env.connected = true) ∧ ∃ slave ret, m.slaves[s.slaveCurrIdx]? = some slave ∧
      (masterTaskRead setSlave m now env s).1.slaveCurrIdx = s.slaveCurrIdx ∧
      ReadStep slave now s (masterTaskRead setSlave m now env s).1 ret ∧
      (masterTaskRead setSlave m now env s).2 = if ret ≠ 0 then some ret else none := by
  unfold masterTaskRead
  split
  · exact .inl ⟨rfl, rfl, .inl rfl, by simp⟩
  · rename_i hconn
    dsimp only
    split
    · rename_i hnone
      exact .inl ⟨rfl, rfl, .inr hnone, by simp⟩
    · rename_i slave hslave
      have hcurr := (slaveTaskRead_reads setSlave m slave now env.read { s with reconnect := false }).2
      refine .inr ⟨by simpa using hconn, slave, _, hslave, hcurr, ?_, rfl⟩
      have hstep := slaveTaskRead_step setSlave m slave now env.read { s with reconnect := false }
      generalize slaveTaskRead setSlave m slave now env.read { s with reconnect := false } = u at hstep ⊢
      cases hstep with
      | early h hret hlog => exact .early h hret hlog
      | polled h hret hall hlog => exact .polled h hret hall hlog
      | read b result h hret hb hnext hlog hidx => exact .read b result h hret hb hnext hlog hidx

/-- When `slave_task_read` of the slave returns 0, no cycle is under way. -/
theorem PollInv.readOwn (h : PollInv s.slaveCurrIdx slave s) {now ret : Int} (hstep : ReadStep slave now s t ret)
    (hbegin : if now < (s.slaves s.slaveCurrIdx).nextPoll then cycle s.slaveCurrIdx s.log = []
      else cycle s.slaveCurrIdx s.log = [] → inputsBefore slave.blocks (s.slaves s.slaveCurrIdx).blockReadIdx = [])
    (hcurr : t.slaveCurrIdx = s.slaveCurrIdx) (hpc : t.pc = .idle) :
    PollInv s.slaveCurrIdx slave t ∧ (ret = 0 → cycle s.slaveCurrIdx t.log = []) := by
  have hsofar (hle : (s.slaves s.slaveCurrIdx).nextPoll ≤ now) :
      cycle s.slaveCurrIdx s.log = inputsBefore slave.blocks (s.slaves s.slaveCurrIdx).blockReadIdx := by
    rw [if_neg (by omega)] at hbegin
    by_cases hne : cycle s.slaveCurrIdx s.log = []
    · rw [hne, hbegin hne]
    · exact (h.within hne).2.2
  cases hstep with
  | early hlt _ hlog =>
    have hc : cycle s.slaveCurrIdx s.log = [] := by rwa [if_pos hlt] at hbegin
    exact ⟨h.rest hlog hc, fun _ => by rw [hlog, hc]⟩
  | polled hle _ hall hlog =>
    have hc : cycle s.slaveCurrIdx t.log = [] := by
      rw [hlog, cycle_concat]
      exact if_pos rfl
    refine ⟨⟨?_, fun hne => absurd hc hne⟩, fun _ => hc⟩
    rw [hlog]
    exact h.complete.concat (fun _ => (hsofar hle).trans hall) (by simp)
  | read b result hle hret hb hnext hlog hidx =>
    have hall : cycle s.slaveCurrIdx s.log ++ [b] = inputsBefore slave.blocks (b + 1) := by
      rw [hsofar hle, hnext]
    refine ⟨⟨?_, fun hne => ?_⟩, fun hzero => absurd hzero hret⟩
    · rw [hlog]
      refine h.complete.concat (by simp) fun b' result' heq => ?_
      cases heq
      rw [hall]
      exact inputsBefore_mono _ hb
    · rw [hlog, cycle_concat, cycleStep, if_pos rfl] at hne ⊢
      split at hne
      · exact absurd rfl hne
      · rename_i hresp
        rw [if_neg hresp, hall, hidx]
        exact ⟨hcurr, hpc, rfl⟩

theorem PollInv.readOther (h : PollInv i slave s) (hi : s.slaveCurrIdx ≠ i) {slave' : Slave} {now ret : Int}
    (hstep : ReadStep slave' now s t ret) : PollInv i slave t ∧ cycle i t.log = [] := by
  have hc : cycle i s.log = [] := by
    by_contra hne
    exact hi (h.within hne).1
  have hoff {e : Event} (he : e.Off i) (hlog : t.log = s.log ++ [e]) : PollInv i slave t ∧ cycle i t.log = [] := by
    refine ⟨h.off he hlog fun hne => absurd hc hne, ?_⟩
    rw [hlog, cycle_concat, cycleStep_off he, hc]
  cases hstep with
  | early _ _ hlog => exact ⟨h.rest hlog hc, by rw [hlog, hc]⟩
  | polled _ _ _ hlog => exact hoff ⟨by simpa using hi, by simp⟩ hlog
  | read b result _ _ _ _ hlog _ => exact hoff ⟨by simp, fun _ _ heq => hi (by cases heq; rfl)⟩ hlog

variable (setSlave) in
/-- The part of `master_task` that reads: it is left within a cycle only with a read of this cycle. -/
theorem PollInv.taskRead (h : PollInv i slave s) (hslave : m.slaves[i]? = some slave) (hidle : s.pc = .idle)
    {now : Int} {env : TaskEnv} (hdue : s.nextTransaction ≤ now) (hrew : Rewound m s (.task now env)) :
    PollInv i slave (masterTaskRead setSlave m now env s).1 ∧
      ((masterTaskRead setSlave m now env s).2 = none →
        cycle i (masterTaskRead setSlave m now env s).1.log = []) := by
  have hpc := (masterTaskRead_reads setSlave m now env s).pc
  have hcases := masterTaskRead_cases setSlave m now env s
  generalize masterTaskRead setSlave m now env s = u at hpc hcases ⊢
  obtain ⟨u, ret'⟩ := u
  dsimp only at hpc hcases ⊢
  rcases hcases with ⟨hlog, hslaves, hcurr, hret⟩ | ⟨hconn, slave', ret, hslave', hcurr, hstep, hret⟩
  · refine ⟨⟨hlog ▸ h.complete, fun hne => ?_⟩, fun hnone => absurd hnone hret⟩
    rw [hlog] at hne ⊢
    obtain ⟨hi, hidle, hcycle⟩ := h.within hne
    have hcurr' : u.slaveCurrIdx = s.slaveCurrIdx := hcurr.resolve_right (by simp [hi, hslave])
    exact ⟨hcurr'.trans hi, hpc.trans hidle, hslaves ▸ hcycle⟩
  · by_cases hi : s.slaveCurrIdx = i
    · subst hi
      obtain rfl : slave' = slave := Option.some.inj (hslave'.symm.trans hslave)
      obtain ⟨hu, hc⟩ := h.readOwn hstep (hrew ⟨hdue, hconn⟩ slave' hslave') hcurr (hpc.trans hidle)
      refine ⟨hu, fun hnone => hc ?_⟩
      by_contra hne
      rw [hret, if_pos hne] at hnone
      cases hnone
    · exact (h.readOther hi hstep).imp_right fun hc _ => hc

theorem PollInv.task (h : PollInv i slave s) (hslave : m.slaves[i]? = some slave) (hidle : s.pc = .idle) {now : Int}
    {env : TaskEnv} (hrew : Rewound m s (.task now env)) : PollInv i slave (masterTask setSlave m now env s) := by
  unfold masterTask
  split
  · rename_i hdue
    have hread := h.taskRead setSlave hslave hidle hdue hrew
    generalize masterTaskRead setSlave m now env s = u at hread ⊢
    obtain ⟨u, ret⟩ := u
    obtain ⟨hu, hc⟩ := hread
    cases ret with
    | some ret =>
      dsimp only at hu ⊢
      split
      · exact ⟨hu.complete, hu.within⟩
      · exact hu
    | none =>
      dsimp only at hu hc ⊢
      split
      · refine hu.rest ?_ (hc rfl)
        unfold nextSlave
        split <;> rfl
      · exact hu.rest rfl (hc rfl)
  · exact h

theorem PollInv.step (h : PollInv i slave s) (hslave : m.slaves[i]? = some slave) {a : Act} (hrew : Rewound m s a)
    (hst : step setSlave m s a = some t) : PollInv i slave t := by
  cases moves_of_step hst with
  | @schedule r f => exact h.schedule r f
  | task hidle => exact h.task hslave hidle hrew
  | take hpc => exact h.take hpc
  | @finish env r f slave' blk v hpc => exact h.finish hpc slave' blk v env

end Reads

/-- **No poll is swallowed**, as long as `slave_task_read` is not entered for a new cycle with `block_read_idx`
still behind an input block: `next_poll` is moved with all blocks done only after each of them was read once,
in order, and every read is for the next block of its cycle. -/
theorem no_poll_swallowed (setSlave : Bool → Int → Bool) (m : Master) (i : Nat) (slave : Slave)
    (hslave : m.slaves[i]? = some slave) (s t : State) (l : List Act) (hs : Init s)
    (hrun : Run (step setSlave m) s l t) (hrew : Meets (step setSlave m) (Rewound m) s l) :
    ∀ pre e, pre ++ [e] <+: t.log → (e = .polled i → cycle i pre = slave.inputs) ∧
      ∀ b result, e = .read i b result → cycle i pre ++ [b] <+: slave.inputs := by
  have hinit : PollInv i slave s := by
    obtain rfl := hs
    exact ⟨fun pre e h => by simp [start] at h, fun h => absurd rfl h⟩
  have hinv : PollInv i slave t :=
    hrun.invariant_of_meets (fun u a w hu ha hst => hu.step hslave ha hst) hrew hinit
  exact hinv.complete

/-! A slave with one or two input blocks and a coil. -/

def contactConf (title : String) (addr : Int) : BlockConf where
  dir := some .input
  regtype := some .inbit
  addr := addr
  count := 1
  values := [coilConf title 0]

def pollConf (inputs : List BlockConf) : MasterConf where
  tcp := true
  slaves := [{
    id := 1
    interval := 1000
    blocks := inputs ++
      [{ dir := some .output, regtype := some .bit, addr := 0, count := 1, values := [coilConf "o" 0] }] }]

def pairPolls : Master := (masterConfigure (pollConf [contactConf "i" 0, contactConf "j" 8])).get (by decide +kernel)

def pairActs : List Act := [.task 0 {}, .task 10 {}, .task 20 {}, .take]

def pairEnd : State := (pairActs.foldlM (step modbusSetSlave pairPolls) start).get (by decide +kernel)

theorem no_poll_swallowed_example :
    cycle 0 [.read 0 0 .ok, .read 0 1 .ok] = (pairPolls.slaves.get ⟨0, by decide +kernel⟩).inputs :=
  (no_poll_swallowed modbusSetSlave pairPolls 0 _ (List.getElem?_eq_getElem _) start pairEnd pairActs rfl
    (Option.some_get _).symm (by decide +kernel) [.read 0 0 .ok, .read 0 1 .ok] (.polled 0) (by decide +kernel)).1 rfl

def polls : Master := (masterConfigure (pollConf [contactConf "i" 0])).get (by decide +kernel)

def cycleActs : List Act := [.task 0 {}, .task 10 {}, .take]

/-- In the second cycle a write takes until after the next poll. -/
def slowWriteActs : List Act :=
  cycleActs ++ [.task 1010 {}, .schedule ⟨0, 1, 0⟩ 1, .task 1020 {}, .take, .finish { ticks := 2100 }, .task 2200 {}]

def slowWriteEnd : State := (slowWriteActs.foldlM (step modbusSetSlave polls) start).get (by decide +kernel)

/-- All input blocks are taken as done once more, and none has been read. -/
theorem poll_swallowed :
    Run (step modbusSetSlave polls) start slowWriteActs slowWriteEnd ∧
      ∃ pre, pre ++ [.polled 0] <+: slowWriteEnd.log ∧ cycle 0 pre = [] ∧
        (polls.slaves.get ⟨0, by decide +kernel⟩).inputs = [0] :=
  ⟨(Option.some_get _).symm, slowWriteEnd.log.dropLast, by decide +kernel, by decide +kernel, by decide +kernel⟩

end Uvrgw.Mb
