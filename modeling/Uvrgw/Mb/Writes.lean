import Uvrgw.Lib.Mailbox
import Uvrgw.Mb.Master

/-!
# No Modbus write is lost or reordered

Each output value, with the thread that writes it, is a mailbox for the newest message.
-/

namespace Uvrgw.Mb

open Uvrgw.Lib

/-! ## An output as a mailbox -/

def Event.scheduledFor (r : Ref) : Event → Option ℚ
  | .scheduled r' f => if r' = r then some f else none
  | _ => none

/-- The value of a successful transaction. -/
def Event.writtenFor (r : Ref) : Event → Option ℚ
  | .written r' f _ .ok => if r' = r then some f else none
  | _ => none

def scheduledValues (r : Ref) (s : State) : List ℚ := s.log.filterMap (Event.scheduledFor r)

def writtenValues (r : Ref) (s : State) : List ℚ := s.log.filterMap (Event.writtenFor r)

def Out.queued (o : Out) : Option ℚ := if o.writePending then some o.writeValue else none

def Pc.taken (r : Ref) : Pc → Option ℚ
  | .executing r' f => if r' = r then some f else none
  | _ => none

def mailbox (r : Ref) (s : State) : Mailbox ℚ where
  slot := (s.outs r).queued
  flight := s.pc.taken r
  posted := scheduledValues r s
  delivered := writtenValues r s

theorem isRead_neither {e : Event} (h : e.isRead = true) (r : Ref) :
    e.scheduledFor r = none ∧ e.writtenFor r = none := by
  cases e <;> simp_all [Event.isRead, Event.scheduledFor, Event.writtenFor]

theorem mailbox_reads {s t : State} (h : Reads s t) (r : Ref) : mailbox r t = mailbox r s := by
  obtain ⟨es, hlog, hes⟩ := h.log
  have h1 : es.filterMap (Event.scheduledFor r) = [] :=
    List.filterMap_eq_nil_iff.mpr fun e he => (isRead_neither (hes e he) r).1
  have h2 : es.filterMap (Event.writtenFor r) = [] :=
    List.filterMap_eq_nil_iff.mpr fun e he => (isRead_neither (hes e he) r).2
  simp [mailbox, scheduledValues, writtenValues, h.outs, h.pc, hlog, h1, h2]

section Steps

variable {setSlave : Bool → Int → Bool} {m : Master}

theorem mailbox_nextSlave {s : State} {r : Ref} (h : s.pc.taken r = none) :
    mailbox r (nextSlave m s) = mailbox r s := by
  unfold nextSlave
  split
  · rfl
  · simp only [mailbox, h]
    rfl

theorem queued_setOut {s : State} {b : Ref} {o : Out} (h : o.queued = (s.outs b).queued) (r : Ref) :
    ((s.setOut b o).outs r).queued = (s.outs r).queued := by
  unfold State.setOut
  by_cases hr : r = b
  · simp [hr, h]
  · simp [hr]

theorem requeue_spec (r : Ref) (f : ℚ) (s : State) :
    (requeue r f s).log = s.log ∧
      ∀ r', ((requeue r f s).outs r').queued =
        if r' = r then (s.outs r).queued.or (some f) else (s.outs r').queued := by
  unfold requeue
  cases hp : (s.outs r).writePending with
  | true =>
    refine ⟨rfl, fun r' => ?_⟩
    by_cases hr : r' = r
    · simp [Out.queued, hp, hr]
    · simp [hr]
  | false =>
    refine ⟨rfl, fun r' => ?_⟩
    by_cases hr : r' = r
    · simp [State.setOut, Out.queued, hp, hr]
    · simp [State.setOut, hr]

theorem writeFinish_spec {slave : Slave} (hset : setSlave m.tcp slave.id = true) (blk : Block) (v : SlaveVal)
    (r : Ref) (f : ℚ) (env : WriteEnv) (s : State) :
    (writeFinish setSlave m slave blk v r f env s).pc = .idle ∧
      (∃ req, (writeFinish setSlave m slave blk v r f env s).log = s.log ++ [.written r f req env.result]) ∧
      ∀ r', ((writeFinish setSlave m slave blk v r f env s).outs r').queued =
        if r' = r ∧ env.result ≠ .ok then (s.outs r).queued.or (some f) else (s.outs r').queued := by
  unfold writeFinish
  rw [if_pos hset]
  dsimp only
  generalize hbase : ({ r with value := v.bitmaskBase.getD r.value } : Ref) = base
  generalize v.request blk.addr (s.outs base).valbuf f = req
  have hbuf := queued_setOut (s := s) (b := base) (o := { s.outs base with valbuf := req.2 }) rfl
  cases hres : env.result with
  | ok =>
    obtain ⟨hout, hlog, hpc⟩ := writeReturn_frame (m := m) slave env false
      ((s.setOut base { s.outs base with valbuf := req.2 }).add (.written r f req.1 .ok))
    refine ⟨hpc, ⟨req.1, by rw [hlog]; rfl⟩, fun r' => ?_⟩
    rw [hout, if_neg (by simp)]
    exact hbuf r'
  | error err =>
    dsimp only
    generalize hu : (s.setOut base { s.outs base with valbuf := req.2 }).add (.written r f req.1 (.error err)) = u
    have hulog : u.log = s.log ++ [.written r f req.1 (.error err)] := by rw [← hu]; rfl
    have huout : ∀ r', (u.outs r').queued = (s.outs r').queued := by rw [← hu]; exact hbuf
    obtain ⟨hrlog, hrout⟩ := requeue_spec r f u
    obtain ⟨hout, hlog, hpc⟩ := errorReturn_frame (m := m) slave env err (requeue r f u)
    refine ⟨hpc, ⟨req.1, ?_⟩, fun r' => ?_⟩
    · rw [hlog, ← hulog, ← hrlog]
    · rw [hout]
      simp only [hrout, huout, ne_eq, reduceCtorEq, not_false_eq_true, and_true]

/-! ## Simulation -/

theorem mailbox_schedule (r r' : Ref) (f : ℚ) (s : State) :
    mailbox r (writeSchedule r' f s) = mailbox r s ∨ (mailbox r s).Step (mailbox r (writeSchedule r' f s)) := by
  by_cases hr : r' = r
  · subst hr
    right
    have hstep := Mailbox.Step.post (mailbox r' s) f
    convert hstep using 1
    simp [mailbox, writeSchedule, State.setOut, State.add, Out.queued, scheduledValues, writtenValues,
      Event.scheduledFor, Event.writtenFor]
  · left
    have hr' : r ≠ r' := fun h => hr h.symm
    simp [mailbox, writeSchedule, State.setOut, State.add, scheduledValues, writtenValues,
      Event.scheduledFor, Event.writtenFor, hr, hr']

theorem mailbox_task {s : State} (hpc : s.pc = .idle) (r : Ref) (now : Int) (env : TaskEnv) :
    mailbox r (masterTask setSlave m now env s) = mailbox r s := by
  have hread := masterTaskRead_reads setSlave m now env s
  unfold masterTask
  split
  · generalize masterTaskRead setSlave m now env s = u at hread ⊢
    obtain ⟨u, ret⟩ := u
    cases ret with
    | some ret =>
      dsimp only
      split
      · exact mailbox_reads hread r
      · exact mailbox_reads hread r
    | none =>
      have hidle : u.pc = .idle := hread.pc.trans hpc
      dsimp only
      split
      · rw [mailbox_nextSlave (by rw [hidle]; rfl)]
        exact mailbox_reads hread r
      · rw [← mailbox_reads hread r]
        simp [mailbox, scheduledValues, writtenValues, hidle, Pc.taken]
  · rfl

theorem mailbox_take {s : State} (hpc : s.pc = .writing) (r : Ref) :
    mailbox r (writeTake m s) = mailbox r s ∨ (mailbox r s).Step (mailbox r (writeTake m s)) := by
  unfold writeTake
  dsimp only
  split
  · left
    exact mailbox_nextSlave (by rw [hpc]; rfl)
  · rename_i r' rest _
    cases hp : (s.outs r').writePending with
    | false =>
      left
      have hq := queued_setOut (s := s) (b := r') (o := { s.outs r' with writePending := false })
        (by simp [Out.queued, hp])
      simp only [Bool.false_eq_true, if_false, mailbox]
      congr 1
      exact hq r
    | true =>
      rw [if_pos rfl]
      by_cases hr : r' = r
      · subst hr
        right
        have hstep := Mailbox.Step.take (mailbox r' s) (by simp [mailbox, hpc, Pc.taken])
        convert hstep using 1
        simp [mailbox, State.setOut, State.setSlave, Out.queued, hp, scheduledValues, writtenValues, Pc.taken]
      · left
        have hr' : r ≠ r' := fun h => hr h.symm
        simp [mailbox, State.setOut, State.setSlave, scheduledValues, writtenValues, Pc.taken, hr, hr', hpc]

theorem mailbox_finish {s : State} {slave : Slave} {r' : Ref} {f : ℚ} (hset : setSlave m.tcp slave.id = true)
    (hpc : s.pc = .executing r' f) (blk : Block) (v : SlaveVal) (env : WriteEnv) (r : Ref) :
    mailbox r (writeFinish setSlave m slave blk v r' f env s) = mailbox r s ∨
      (mailbox r s).Step (mailbox r (writeFinish setSlave m slave blk v r' f env s)) := by
  obtain ⟨hidle, ⟨req, hlog⟩, hout⟩ := writeFinish_spec hset blk v r' f env s
  by_cases hr : r' = r
  · subst hr
    right
    cases hres : env.result with
    | ok =>
      have hstep := Mailbox.Step.deliver (mailbox r' s)
      convert hstep using 1
      simp [mailbox, hout, hidle, hlog, hpc, hres, scheduledValues, writtenValues, Pc.taken, Event.scheduledFor,
        Event.writtenFor]
    | error err =>
      have hstep := Mailbox.Step.back (mailbox r' s)
      convert hstep using 1
      simp [mailbox, hout, hidle, hlog, hpc, hres, scheduledValues, writtenValues, Pc.taken, Event.scheduledFor,
        Event.writtenFor]
  · left
    have hr' : r ≠ r' := fun h => hr h.symm
    have hwritten : (Event.written r' f req env.result).writtenFor r = none := by
      cases env.result <;> simp [Event.writtenFor, hr]
    simp [mailbox, hout, hidle, hlog, hpc, scheduledValues, writtenValues, Pc.taken, Event.scheduledFor,
      hwritten, hr, hr']

/-- Every step of the machine is a step of the mailbox, or none. -/
theorem mailbox_step (hset : ∀ slave ∈ m.slaves, setSlave m.tcp slave.id = true) {s t : State} {a : Act}
    (h : step setSlave m s a = some t) (r : Ref) :
    mailbox r t = mailbox r s ∨ (mailbox r s).Step (mailbox r t) := by
  cases moves_of_step h with
  | @schedule r' f => exact mailbox_schedule r r' f s
  | @task now env hpc => exact .inl (mailbox_task hpc r now env)
  | take hpc => exact mailbox_take hpc r
  | @finish env r' f slave blk v hpc hslave =>
    exact mailbox_finish (hset slave (List.mem_of_getElem? hslave)) hpc blk v env r

end Steps

/-! ## Every run -/

theorem mailbox_ordered {setSlave : Bool → Int → Bool} {m : Master}
    (hset : ∀ slave ∈ m.slaves, setSlave m.tcp slave.id = true) {s : State}
    (hs : Reachable (step setSlave m) Init s) (r : Ref) : (mailbox r s).Ordered := by
  apply hs.invariant
  · rintro s rfl
    exact Mailbox.Ordered.empty
  · intro s a t ho _ hst
    rcases mailbox_step hset hst r with h | h
    · rw [h]
      exact ho
    · exact ho.step h

/-- A transaction of an output carries the request of its value for the number. -/
theorem written_request {setSlave : Bool → Int → Bool} {m : Master} {s : State}
    (hs : Reachable (step setSlave m) Init s) {r : Ref} {f : ℚ} {request : Request} {result : Result}
    (h : .written r f request result ∈ s.log) :
    ∃ blk v buf, m.block? r = some blk ∧ m.val? r = some v ∧ request = (v.request blk.addr buf f).1 := by
  revert r f request result
  apply hs.invariant
  · rintro s rfl r f request result h
    cases h
  · intro s a t ih _ hst r f request result h
    cases moves_of_step hst with
    | schedule =>
      rcases List.mem_append.mp h with h | h
      · exact ih h
      · simp at h
    | @task now env =>
      obtain ⟨-, es, hlog, hes⟩ := masterTask_frame setSlave m now env s
      rw [hlog] at h
      rcases List.mem_append.mp h with h | h
      · exact ih h
      · exact absurd (hes _ h) (by simp [Event.isWritten])
    | take =>
      rw [writeTake_log] at h
      exact ih h
    | @finish env r' f' slave blk v hpc hslave hblk hv =>
      rcases writeFinish_log setSlave m slave blk v r' f' env s with hlog | ⟨buf, hlog⟩
      · rw [hlog] at h
        exact ih h
      · rw [hlog] at h
        rcases List.mem_append.mp h with h | h
        · exact ih h
        · cases List.mem_singleton.mp h
          exact ⟨blk, v, buf, hblk, hv, rfl⟩

/-- **No write is lost or reordered.** The successful transactions of an output carry scheduled values in
the order of scheduling, each in the request of that value, and once nothing is pending or under way, the last
one carried the newest. -/
theorem no_lost_write (setSlave : Bool → Int → Bool)
    (hset : ∀ tcp id, idValid tcp id = true → setSlave tcp id = true) (cfg : MasterConf) (m : Master)
    (hm : masterConfigure cfg = some m) (s : State) (hs : Reachable (step setSlave m) Init s) (r : Ref) :
    (writtenValues r s).Sublist (scheduledValues r s) ∧
      ((s.outs r).writePending = false → (∀ f, s.pc ≠ .executing r f) →
        (writtenValues r s).getLast? = (scheduledValues r s).getLast?) ∧
      ∀ f request result, .written r f request result ∈ s.log →
        ∃ blk v buf, m.block? r = some blk ∧ m.val? r = some v ∧ request = (v.request blk.addr buf f).1 := by
  have hacc := masterConfigure_accepted hm
  have ho := mailbox_ordered (fun slave hslave => hset _ _ (hacc.ids slave hslave)) hs r
  refine ⟨ho.inOrder, fun hp hpc => ho.settled ?_ ?_, fun f request result h => written_request hs h⟩
  · simp [mailbox, Out.queued, hp]
  · unfold mailbox Pc.taken
    dsimp only
    split
    · rename_i r' f heq
      rw [if_neg]
      rintro rfl
      exact hpc f heq
    · rfl

/-! A coil of a TCP slave: the first write times out, a newer value comes meanwhile. -/

def coil : Master := (exampleMaster [coilConf "a" 0]).get (by decide +kernel)

def coilActs : List Act :=
  [.task 0 {}, .take, .schedule ⟨0, 0, 0⟩ 1, .task 10 {}, .take, .schedule ⟨0, 0, 0⟩ 0,
    .finish { result := .error 110, failTicks := 300, ticks := 300 }, .task 400 {},
    .task 1300 {}, .take, .finish { ticks := 1310 }]

def coilEnd : State := (coilActs.foldlM (step modbusSetSlave coil) start).get (by decide +kernel)

theorem no_lost_write_example :
    (writtenValues ⟨0, 0, 0⟩ coilEnd).getLast? = (scheduledValues ⟨0, 0, 0⟩ coilEnd).getLast? := by
  refine (no_lost_write modbusSetSlave modbusSetSlave_accepts (exampleConf [coilConf "a" 0]) coil
    (Option.some_get _).symm coilEnd ⟨start, coilActs, rfl, (Option.some_get _).symm⟩ ⟨0, 0, 0⟩).2.1
    (by decide +kernel) fun f h => ?_
  have hidle : coilEnd.pc = .idle := by decide +kernel
  rw [hidle] at h
  cases h

end Uvrgw.Mb
