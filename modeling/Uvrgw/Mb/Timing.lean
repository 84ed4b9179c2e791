import Uvrgw.Mb.Master

/-!
# The separation time of a Modbus master

The thread with a clock that never goes back. The clock is `utl_get_ticks`: a time is what it would show at
that moment, in ms. Each request has its own time, and the number of the `master_task` call that issues it.
-/

namespace Uvrgw.Mb

open Uvrgw.Lib

structure Issued where
  call : Nat
  start : Int
  finish : Int
  deriving DecidableEq, Repr

structure Timed where
  state : State := start
  clock : Int := 0
  /-- The calls of `master_task` so far. -/
  calls : Nat := 0
  issued : List Issued := []

/-- An action, with the time of its request if it issues one. -/
structure TimedAct where
  act : Act
  start : Int := 0
  finish : Int := 0
  deriving DecidableEq, Repr

/-- The clock readings of an action come in the order of the source. -/
def TimedAct.InOrder (a : TimedAct) (clock : Int) : Prop :=
  match a.act with
  | .task now env => clock ≤ now ∧ now ≤ a.start ∧ a.start ≤ a.finish ∧ a.finish ≤ env.ticks
  | .finish env => clock ≤ a.start ∧ a.start ≤ a.finish ∧ a.finish ≤ env.failTicks ∧ env.failTicks ≤ env.ticks
  | .schedule .. | .take => True

instance (a : TimedAct) (clock : Int) : Decidable (a.InOrder clock) := by
  unfold TimedAct.InOrder
  split <;> infer_instance

def clockAfter (clock : Int) : Act → Int
  | .task _ env => env.ticks
  | .finish env => env.ticks
  | .schedule .. | .take => clock

/-- `master_thread` calls `master_task` only if the timer has expired. -/
def Timed.callsAfter (t : Timed) : Act → Nat
  | .task now _ => if t.state.nextTransaction ≤ now then t.calls + 1 else t.calls
  | _ => t.calls

section Steps

variable (setSlave : Bool → Int → Bool) (m : Master)

/-- Without the slave address nothing is sent. -/
def Event.isRequest : Event → Bool
  | .read i _ _ => (m.slaves[i]?).any fun slave => setSlave m.tcp slave.id
  | .written .. => true
  | .scheduled .. | .polled _ => false

def timedStep (t : Timed) (a : TimedAct) : Option Timed := do
  guard (a.InOrder t.clock)
  let s ← step setSlave m t.state a.act
  let requests := (s.log.drop t.state.log.length).filter (Event.isRequest setSlave m)
  return {
    state := s
    clock := clockAfter t.clock a.act
    calls := t.callsAfter a.act
    issued := t.issued ++ requests.map fun _ => ⟨t.callsAfter a.act, a.start, a.finish⟩ }

def TimedInit (t : Timed) : Prop := t.state = start ∧ t.issued = []

/-! ## What a step issues -/

/-- The requests between two states. -/
def Sends (s t : State) (n : Nat) : Prop :=
  ∃ es, t.log = s.log ++ es ∧ (es.filter (Event.isRequest setSlave m)).length ≤ n

variable {setSlave m}

theorem Sends.of_eq {s t : State} {n : Nat} (h : t.log = s.log) : Sends setSlave m s t n :=
  ⟨[], by simp [h], by simp⟩

theorem Sends.one {s t : State} {e : Event} (h : t.log = s.log ++ [e]) : Sends setSlave m s t 1 :=
  ⟨[e], h, by simpa using List.length_filter_le _ [e]⟩

theorem linkError_frame (err : Int) (s : State) :
    (linkError m err s).log = s.log ∧ (linkError m err s).nextTransaction = s.nextTransaction := by
  obtain ⟨rc, hrc⟩ := linkError_eq m err s
  rw [hrc]
  exact ⟨rfl, rfl⟩

variable (setSlave m) in
theorem slaveTaskRead_spec (slave : Slave) (now : Int) (read : Result) (s : State) :
    (slaveTaskRead setSlave m slave now read s).1.nextTransaction = s.nextTransaction ∧
      Sends setSlave m s (slaveTaskRead setSlave m slave now read s).1
        (if (slaveTaskRead setSlave m slave now read s).2 = 0 then 0 else 1) := by
  unfold slaveTaskRead
  dsimp only
  split
  · exact ⟨rfl, .of_eq rfl⟩
  · split
    · exact ⟨rfl, [_], rfl, by simp [Event.isRequest]⟩
    · split
      · exact ⟨rfl, .one rfl⟩
      · split
        · obtain ⟨hlog, hnext⟩ := linkError_frame (m := m) ‹Int› _
          exact ⟨hnext, .one hlog⟩
        · exact ⟨rfl, .one rfl⟩

/-- A step without a request: the timer stays, or is set at the end of the call. -/
structure Quiet (setSlave : Bool → Int → Bool) (m : Master) (s t : State) (ticks : Int) : Prop where
  sends : Sends setSlave m s t 0
  timer : t.nextTransaction = s.nextTransaction ∨ t.pc = .idle ∧ ticks ≤ t.nextTransaction

/-- A step that ends a call of `master_task`, with a request or without. -/
structure Ends (setSlave : Bool → Int → Bool) (m : Master) (s t : State) (ticks : Int) : Prop where
  sends : Sends setSlave m s t 1
  pc : t.pc = .idle
  timer : t.nextTransaction = ticks + m.separationTime

theorem nextSlave_timer (s : State) :
    (nextSlave m s).log = s.log ∧ (nextSlave m s).nextTransaction = s.nextTransaction := by
  unfold nextSlave
  split <;> exact ⟨rfl, rfl⟩

theorem masterTaskRead_spec (now : Int) (env : TaskEnv) (s : State) {t : State} {ret : Option Int}
    (h : masterTaskRead setSlave m now env s = (t, ret)) :
    t.pc = s.pc ∧ Sends setSlave m s t (if ret.getD 0 = 0 then 0 else 1) ∧
      (t.nextTransaction = s.nextTransaction ∨ ret = some 0 ∧ env.ticks ≤ t.nextTransaction) := by
  have hpc : t.pc = s.pc := by
    rw [← (masterTaskRead_reads setSlave m now env s).pc, h]
  refine ⟨hpc, ?_⟩
  unfold masterTaskRead at h
  split at h
  · -- the connection fails
    cases h
    refine ⟨.of_eq rfl, .inr ⟨rfl, ?_⟩⟩
    dsimp only [reconnectDelay]
    omega
  · dsimp only at h
    split at h
    · cases h
      exact ⟨.of_eq rfl, .inl rfl⟩
    · rename_i slave _
      obtain ⟨htimer, hsends⟩ :=
        slaveTaskRead_spec setSlave m slave now env.read { s with reconnect := false }
      generalize slaveTaskRead setSlave m slave now env.read { s with reconnect := false } = u at h htimer hsends
      obtain ⟨u, r⟩ := u
      cases h
      refine ⟨?_, .inl htimer⟩
      by_cases hr : r = 0
      · rw [if_pos (by simp [hr])]
        rwa [if_pos hr] at hsends
      · rw [if_neg (by simp [hr])]
        rwa [if_neg hr] at hsends

variable (setSlave m) in
theorem masterTask_spec {s : State} (hpc : s.pc = .idle) {now : Int} (env : TaskEnv)
    (hdue : s.nextTransaction ≤ now) :
    Quiet setSlave m s (masterTask setSlave m now env s) env.ticks ∨
      Ends setSlave m s (masterTask setSlave m now env s) env.ticks := by
  unfold masterTask
  rw [if_pos hdue]
  cases htask : masterTaskRead setSlave m now env s with
  | mk t ret =>
    obtain ⟨htpc, hsends, htimer⟩ := masterTaskRead_spec now env s htask
    cases ret with
    | none =>
      have hstay : t.nextTransaction = s.nextTransaction := htimer.resolve_right (by simp)
      dsimp only
      split
      · obtain ⟨hlog, hnext⟩ := nextSlave_timer t
        obtain ⟨es, hes, hlen⟩ := hsends
        exact .inl ⟨⟨es, hlog.trans hes, hlen⟩, .inl (hnext.trans hstay)⟩
      · exact .inl ⟨hsends, .inl hstay⟩
    | some ret =>
      dsimp only
      by_cases hret : ret = 0
      · rw [if_neg (not_not.mpr hret)]
        rw [Option.getD_some, if_pos hret] at hsends
        refine .inl ⟨hsends, ?_⟩
        rcases htimer with h | ⟨-, h⟩
        · exact .inl h
        · exact .inr ⟨htpc.trans hpc, h⟩
      · rw [if_pos hret]
        rw [Option.getD_some, if_neg hret] at hsends
        exact .inr ⟨hsends, htpc.trans hpc, rfl⟩

variable (setSlave m) in
theorem writeTake_quiet (s : State) : Sends setSlave m s (writeTake m s) 0 ∧
    (writeTake m s).nextTransaction = s.nextTransaction := by
  unfold writeTake
  dsimp only
  split
  · obtain ⟨hlog, hnext⟩ := nextSlave_timer s
    exact ⟨.of_eq hlog, hnext⟩
  · split <;> exact ⟨.of_eq rfl, rfl⟩

variable (setSlave m) in
theorem writeFinish_ends (slave : Slave) (blk : Block) (v : SlaveVal) (r : Ref) (f : ℚ) (env : WriteEnv) (s : State) :
    Ends setSlave m s (writeFinish setSlave m slave blk v r f env s) env.ticks := by
  refine ⟨?_, writeFinish_pc slave blk v r f env s, ?_⟩
  · rcases writeFinish_log setSlave m slave blk v r f env s with h | ⟨buf, h⟩
    · exact ⟨[], by simp [h], by simp⟩
    · exact .one h
  · unfold writeFinish writeReturn
    split_ifs <;> dsimp only <;> split <;> rfl

/-! ## The invariant -/

structure TimedInv (m : Master) (t : Timed) : Prop where
  timer : ∀ r ∈ t.issued, r.finish + m.separationTime ≤ t.state.nextTransaction
  calls : ∀ r ∈ t.issued, r.call ≤ t.calls
  /-- A call that is not over has been started after the timer, and has sent nothing yet. -/
  running : t.state.pc ≠ .idle → t.state.nextTransaction ≤ t.clock ∧ ∀ r ∈ t.issued, r.call < t.calls
  apart : t.issued.Pairwise fun a b => a.call < b.call ∧ a.finish + m.separationTime ≤ b.start

theorem TimedInv.init {t : Timed} (h : TimedInit t) : TimedInv m t := by
  obtain ⟨hstate, hissued⟩ := h
  refine ⟨by simp [hissued], by simp [hissued], ?_, by simp [hissued]⟩
  intro hpc
  rw [hstate] at hpc
  exact absurd rfl hpc

theorem Sends.length_le {s t : State} {n : Nat} (h : Sends setSlave m s t n) :
    ((t.log.drop s.log.length).filter (Event.isRequest setSlave m)).length ≤ n := by
  obtain ⟨es, hlog, hlen⟩ := h
  rwa [hlog, List.drop_left]

/-- A step without a request keeps the invariant if the timer does not go back. -/
theorem TimedInv.quiet {t t' : Timed} (h : TimedInv m t) (hissued : t'.issued = t.issued)
    (hcalls : t.calls ≤ t'.calls) (htimer : t.state.nextTransaction ≤ t'.state.nextTransaction)
    (hrun : t'.state.pc ≠ .idle → t'.state.nextTransaction ≤ t'.clock ∧ ∀ r ∈ t.issued, r.call < t'.calls) :
    TimedInv m t' := by
  refine ⟨fun r hr => ?_, fun r hr => ?_, ?_, ?_⟩
  · rw [hissued] at hr
    have := h.timer r hr
    omega
  · rw [hissued] at hr
    have := h.calls r hr
    omega
  · rwa [hissued]
  · rw [hissued]
    exact h.apart

/-- The end of a call that has been started after the timer, and has sent nothing before. -/
theorem TimedInv.ends {t t' : Timed} (h : TimedInv m t) (hsep : 0 ≤ m.separationTime) {new : List Issued}
    {ticks : Int} (hissued : t'.issued = t.issued ++ new) (hnew : new.length ≤ 1)
    (hspan : ∀ r ∈ new, r.call = t'.calls ∧ t.state.nextTransaction ≤ r.start ∧ r.finish ≤ ticks)
    (hcalls : ∀ r ∈ t.issued, r.call < t'.calls) (hticks : t.state.nextTransaction ≤ ticks)
    (htimer : t'.state.nextTransaction = ticks + m.separationTime) (hpc : t'.state.pc = .idle) : TimedInv m t' := by
  refine ⟨fun r hr => ?_, fun r hr => ?_, fun hne => absurd hpc hne, ?_⟩
  · rw [hissued, List.mem_append] at hr
    rw [htimer]
    rcases hr with hr | hr
    · have := h.timer r hr
      omega
    · have := (hspan r hr).2.2
      omega
  · rw [hissued, List.mem_append] at hr
    rcases hr with hr | hr
    · exact (hcalls r hr).le
    · exact (hspan r hr).1.le
  · rw [hissued, List.pairwise_append]
    refine ⟨h.apart, ?_, fun a ha b hb => ?_⟩
    · match new, hnew with
      | [], _ => exact .nil
      | [r], _ => exact List.pairwise_singleton _ r
    · obtain ⟨hcall, hstart, -⟩ := hspan b hb
      have := hcalls a ha
      have := h.timer a ha
      omega

/-- What a step adds to the requests. -/
theorem Sends.issued {s t : State} {n : Nat} (h : Sends setSlave m s t n) (issued : List Issued) (r : Issued) :
    ∃ new : List Issued, issued ++ ((t.log.drop s.log.length).filter (Event.isRequest setSlave m)).map (fun _ => r) =
      issued ++ new ∧ new.length ≤ n ∧ ∀ r' ∈ new, r' = r := by
  refine ⟨_, rfl, ?_, fun r' hr' => ?_⟩
  · rw [List.length_map]
    exact h.length_le
  · obtain ⟨-, -, rfl⟩ := List.mem_map.mp hr'
    rfl

theorem Sends.silent {s t : State} (h : Sends setSlave m s t 0) (issued : List Issued) (r : Issued) :
    issued ++ ((t.log.drop s.log.length).filter (Event.isRequest setSlave m)).map (fun _ => r) = issued := by
  obtain ⟨new, hissued, hnew, -⟩ := h.issued issued r
  rw [hissued, List.eq_nil_of_length_eq_zero (Nat.le_zero.mp hnew), List.append_nil]

theorem timedInv_step (hsep : 0 ≤ m.separationTime) {t t' : Timed} {a : TimedAct} (h : TimedInv m t)
    (hst : timedStep setSlave m t a = some t') : TimedInv m t' := by
  simp only [timedStep, Option.bind_eq_bind, Option.bind_eq_some_iff, Option.pure_def, Option.guard_eq_some',
    Option.some.injEq] at hst
  obtain ⟨-, horder, s, hs, rfl⟩ := hst
  obtain ⟨act, start, finish⟩ := a
  unfold TimedAct.InOrder at horder
  cases moves_of_step hs with
  | @schedule r f =>
    have hsends : Sends setSlave m t.state (writeSchedule r f t.state) 0 := ⟨[_], rfl, by simp [Event.isRequest]⟩
    exact h.quiet (hsends.silent ..) (le_refl _) (le_refl _) h.running
  | take hpc =>
    obtain ⟨hsends, htimer⟩ := writeTake_quiet setSlave m t.state
    refine h.quiet (hsends.silent ..) (le_refl _) htimer.ge fun _ => ?_
    dsimp only
    rw [htimer]
    exact h.running (by rw [hpc]; simp)
  | @finish env r f slave blk v hpc =>
    obtain ⟨hsends, hidle, htimer⟩ := writeFinish_ends setSlave m slave blk v r f env t.state
    obtain ⟨hclock, hcalls⟩ := h.running (by rw [hpc]; simp)
    obtain ⟨new, hissued, hnew, heq⟩ := hsends.issued t.issued ⟨t.calls, start, finish⟩
    dsimp only at horder
    refine h.ends hsep hissued hnew (fun r' hr' => ?_) hcalls (by omega) htimer hidle
    rw [heq r' hr']
    exact ⟨rfl, by dsimp only; omega, by dsimp only; omega⟩
  | @task now env hpc =>
    dsimp only at horder
    by_cases hdue : t.state.nextTransaction ≤ now
    · have hcalls : t.callsAfter (.task now env) = t.calls + 1 := if_pos hdue
      have hbefore : ∀ r ∈ t.issued, r.call < t.callsAfter (.task now env) := by
        intro r hr
        have := h.calls r hr
        omega
      rcases masterTask_spec setSlave m hpc env hdue with hquiet | hends
      · refine h.quiet (hquiet.sends.silent ..) (by dsimp only; omega) ?_ fun hrun => ?_
        · rcases hquiet.timer with h' | ⟨-, h'⟩
          · exact h'.ge
          · dsimp only
            omega
        · rcases hquiet.timer with h' | ⟨h', -⟩
          · refine ⟨?_, hbefore⟩
            dsimp only [clockAfter]
            omega
          · exact absurd h' hrun
      · obtain ⟨new, hissued, hnew, heq⟩ := hends.sends.issued t.issued ⟨t.callsAfter (.task now env), start, finish⟩
        refine h.ends hsep hissued hnew (fun r' hr' => ?_) hbefore (by omega) hends.timer hends.pc
        rw [heq r' hr']
        exact ⟨rfl, by dsimp only; omega, by dsimp only; omega⟩
    · -- the timer has not expired
      have hstay : masterTask setSlave m now env t.state = t.state := if_neg hdue
      have hcalls : t.callsAfter (.task now env) = t.calls := if_neg hdue
      have hsends : Sends setSlave m t.state (masterTask setSlave m now env t.state) 0 := .of_eq (by rw [hstay])
      refine h.quiet (hsends.silent ..) hcalls.ge (by dsimp only; rw [hstay]) fun hrun => ?_
      dsimp only at hrun
      rw [hstay] at hrun
      exact absurd hpc hrun

end Steps

/-- **Separation.** A call of `master_task` issues at most one request, and from the end of a request to the start of
the next one the separation time passes, whatever their results are. -/
theorem requests_apart (setSlave : Bool → Int → Bool) (m : Master) (hsep : 0 ≤ m.separationTime) (t : Timed)
    (ht : Reachable (timedStep setSlave m) TimedInit t) :
    t.issued.Pairwise fun a b => a.call < b.call ∧ a.finish + m.separationTime ≤ b.start :=
  (ht.invariant (I := TimedInv m) (fun _ h => .init h) fun _ _ _ h _ hst => timedInv_step hsep h hst).apart

/-! A coil that is written again after a timeout. -/

def separated : Master :=
  (masterConfigure { exampleConf [coilConf "a" 0] with separationTime := 100 }).get (by decide +kernel)

def retryActs : List TimedAct :=
  [{ act := .task 0 {} }, { act := .take }, { act := .schedule ⟨0, 0, 0⟩ 1 },
    { act := .task 10 { ticks := 10 }, start := 10, finish := 10 }, { act := .take },
    { act := .finish { result := .error 110, failTicks := 300, ticks := 301 }, start := 12, finish := 300 },
    { act := .task 401 { ticks := 401 }, start := 401, finish := 401 },
    { act := .task 1300 { ticks := 1300 }, start := 1300, finish := 1300 }, { act := .take },
    { act := .finish { failTicks := 1320, ticks := 1321 }, start := 1302, finish := 1320 }]

def retried : Timed := (retryActs.foldlM (timedStep modbusSetSlave separated) {}).get (by decide +kernel)

theorem requests_apart_retry : retried.issued.length = 2 ∧
    retried.issued.Pairwise fun a b => a.call < b.call ∧ a.finish + separated.separationTime ≤ b.start :=
  ⟨by decide +kernel, requests_apart modbusSetSlave separated (by decide +kernel) retried
    ⟨{}, retryActs, ⟨rfl, rfl⟩, (Option.some_get _).symm⟩⟩

end Uvrgw.Mb
