import Uvrgw.Mb.Master

/-!
# Fairness of the writes of a Modbus slave

Between two attempts for one output, every other pending output of the slave gets its attempt, as long as
no pause after a failed write cuts the pass over the outputs short.
-/

namespace Uvrgw.Mb

open Uvrgw.Lib

def Master.valueOut (m : Master) (i : Nat) : List Ref :=
  match m.slaves[i]? with
  | some slave => slave.valueOut
  | none => []

/-- `value_out_curr` of a slave. -/
def curr (i : Nat) (s : State) : List Ref := (s.slaves i).valueOutCurr

/-- `write_execute` takes a pending value of `r`. -/
def Attempt (r : Ref) (s : State) (a : Act) : Prop :=
  a = .take ∧ s.pc = .writing ∧ (curr s.slaveCurrIdx s).head? = some r ∧ (s.outs r).writePending = true

instance (r : Ref) (s : State) (a : Act) : Decidable (Attempt r s a) := by
  unfold Attempt
  infer_instance

def Waits (r : Ref) (s : State) : Prop := (s.outs r).writePending = true ∨ ∃ f, s.pc = .executing r f

instance (r : Ref) : DecidablePred (Waits r) := fun s =>
  match h : s.pc with
  | .executing r' f =>
    decidable_of_iff ((s.outs r).writePending = true ∨ r' = r) (by simp [Waits, h])
  | .idle | .writing => decidable_of_iff ((s.outs r).writePending = true) (by simp [Waits, h])

section

variable (setSlave : Bool → Int → Bool) (m : Master)

/-- If `slave_task_write` is entered in the pause after a failed write, then no pending output is left
in its pass. -/
def NothingLeft (s : State) : Act → Prop
  | .task now env =>
    s.nextTransaction ≤ now → (masterTaskRead setSlave m now env s).2 = none →
      now < (s.slaves s.slaveCurrIdx).nextWrite → ∀ r ∈ curr s.slaveCurrIdx s, (s.outs r).writePending = false
  | _ => True

instance : ∀ (s : State) (a : Act), Decidable (NothingLeft setSlave m s a)
  | s, .task now env =>
    inferInstanceAs (Decidable (s.nextTransaction ≤ now → (masterTaskRead setSlave m now env s).2 = none →
      now < (s.slaves s.slaveCurrIdx).nextWrite →
        ∀ r ∈ curr s.slaveCurrIdx s, (s.outs r).writePending = false))
  | _, .schedule .. | _, .take | _, .finish _ => isTrue trivial

/-! ## The pass over the outputs -/

inductive Moved (i : Nat) (s : State) (a : Act) (t : State) : Prop
  | kept (h : curr i t = curr i s)
  | reset (h : curr i t = m.valueOut i)
      (hleft : NothingLeft setSlave m s a → ∀ r ∈ curr i s, (s.outs r).writePending = false)
  | popped (r : Ref) (hi : s.slaveCurrIdx = i) (ha : a = .take) (hpc : s.pc = .writing)
      (h : curr i s = r :: curr i t)

variable {setSlave m}

theorem nextSlave_curr (s : State) (i : Nat) :
    curr i (nextSlave m s) = curr i s ∨ s.slaveCurrIdx = i ∧ curr i (nextSlave m s) = m.valueOut i := by
  unfold nextSlave
  split
  · exact .inl rfl
  · rename_i slave hs
    by_cases hi : s.slaveCurrIdx = i
    · subst hi
      exact .inr ⟨rfl, by simp [curr, State.setSlave, Master.valueOut, hs]⟩
    · have hi' : i ≠ s.slaveCurrIdx := fun h => hi h.symm
      exact .inl (by simp [curr, State.setSlave, hi'])

theorem task_moved (i : Nat) (now : Int) (env : TaskEnv) (s : State) :
    Moved setSlave m i s (.task now env) (masterTask setSlave m now env s) := by
  have hreads := masterTaskRead_reads setSlave m now env s
  have hreached := masterTaskRead_reached setSlave m now env s
  have hleft : s.nextTransaction ≤ now → (masterTaskRead setSlave m now env s).2 = none →
      now < (s.slaves s.slaveCurrIdx).nextWrite → NothingLeft setSlave m s (.task now env) →
        ∀ r ∈ curr s.slaveCurrIdx s, (s.outs r).writePending = false := fun h1 h2 h3 h => h h1 h2 h3
  unfold masterTask
  split
  · rename_i hdue
    generalize masterTaskRead setSlave m now env s = u at hreads hreached hleft ⊢
    obtain ⟨u, ret⟩ := u
    cases ret with
    | some ret =>
      apply Moved.kept
      dsimp only
      split <;> exact hreads.curr i
    | none =>
      obtain ⟨hidx, -⟩ := hreached rfl
      dsimp only at hidx ⊢
      split
      · rename_i hpause
        rw [hidx, hreads.nextWrite] at hpause
        rcases nextSlave_curr (m := m) u i with h | ⟨hi, h⟩
        · exact .kept (h.trans (hreads.curr i))
        · rw [hidx] at hi
          subst hi
          exact .reset h (hleft hdue rfl hpause)
      · exact .kept (hreads.curr i)
  · exact .kept rfl

theorem take_moved {s : State} (i : Nat) (hpc : s.pc = .writing) :
    Moved setSlave m i s .take (writeTake m s) := by
  unfold writeTake
  dsimp only
  split
  · rename_i hnil
    rcases nextSlave_curr (m := m) s i with h | ⟨hi, h⟩
    · exact .kept h
    · subst hi
      refine .reset h fun _ r hr => ?_
      rw [curr, hnil] at hr
      cases hr
  · rename_i r rest hcons
    by_cases hi : s.slaveCurrIdx = i
    · subst hi
      refine .popped r rfl rfl hpc ?_
      rw [curr, hcons]
      split <;> simp [curr, State.setSlave, State.setOut]
    · have hi' : i ≠ s.slaveCurrIdx := fun h => hi h.symm
      apply Moved.kept
      split <;> simp [curr, State.setSlave, State.setOut, hi']

theorem take_pops {s t : State} {i : Nat} {r : Ref} {rest : List Ref} (h : step setSlave m s .take = some t)
    (hi : s.slaveCurrIdx = i) (hcurr : curr i s = r :: rest) : curr i t = rest := by
  simp only [step, Option.ite_none_right_eq_some, Option.some.injEq] at h
  obtain ⟨-, rfl⟩ := h
  subst hi
  rw [curr] at hcurr
  unfold writeTake
  simp only [hcurr]
  split <;> simp [curr, State.setSlave, State.setOut]

theorem writeReturn_curr (slave : Slave) (env : WriteEnv) (failed : Bool) (s : State) (i : Nat) :
    curr i (writeReturn m slave env failed s) = curr i s := by
  unfold writeReturn
  split
  · by_cases hi : i = s.slaveCurrIdx
    · simp [curr, State.setSlave, hi]
    · simp [curr, State.setSlave, hi]
  · rfl

theorem requeue_slaves (r : Ref) (f : ℚ) (s : State) : (requeue r f s).slaves = s.slaves := by
  unfold requeue
  split <;> rfl

theorem finish_curr (slave : Slave) (blk : Block) (v : SlaveVal) (r : Ref) (f : ℚ) (env : WriteEnv) (s : State)
    (i : Nat) : curr i (writeFinish setSlave m slave blk v r f env s) = curr i s := by
  unfold writeFinish
  split
  · dsimp only
    split
    · rw [writeReturn_curr]
      rfl
    · rw [writeReturn_curr]
      split
      · obtain ⟨rc, hrc⟩ := linkError_eq m _ _
        rw [hrc, curr, requeue_slaves]
        rfl
      · rw [curr, requeue_slaves]
        rfl
  · rw [writeReturn_curr]

theorem step_moved (i : Nat) {s t : State} {a : Act} (h : step setSlave m s a = some t) :
    Moved setSlave m i s a t := by
  cases moves_of_step h with
  | schedule => exact .kept rfl
  | @task now env => exact task_moved i now env s
  | take hpc => exact take_moved i hpc
  | finish => exact .kept (finish_curr ..)

theorem take_executing {s : State} {r : Ref} {f : ℚ} (hpc : s.pc = .writing)
    (ht : (writeTake m s).pc = .executing r f) : Attempt r s .take := by
  unfold writeTake at ht
  dsimp only at ht
  split at ht
  · rcases nextSlave_pc (m := m) (s := s) fun _ => hpc with h | h <;> simp [h] at ht
  · rename_i r' rest hcons
    split at ht
    · rename_i hp
      obtain ⟨rfl, -⟩ := Pc.executing.inj ht
      exact ⟨rfl, hpc, by rw [curr, hcons]; rfl, hp⟩
    · have : s.pc = .executing r f := ht
      simp [hpc] at this

theorem executing_step {s t : State} {a : Act} {r : Ref} {f : ℚ} (h : step setSlave m s a = some t)
    (ht : t.pc = .executing r f) : s.pc = .executing r f ∨ Attempt r s a := by
  cases moves_of_step h with
  | schedule => exact .inl ht
  | @task now env hpc => rcases masterTask_pc setSlave m hpc now env with hp | hp <;> simp [hp] at ht
  | take hpc => exact .inr (take_executing hpc ht)
  | finish =>
    rw [writeFinish_pc] at ht
    cases ht

theorem curr_suffix {s : State} (hs : Reachable (step setSlave m) Init s) (i : Nat) :
    curr i s <:+ m.valueOut i := by
  apply hs.invariant (I := fun s => curr i s <:+ m.valueOut i)
  · rintro s rfl
    exact List.nil_suffix
  · intro s a t hi _ hst
    rcases step_moved i hst with h | ⟨h, -⟩ | ⟨r, -, -, -, h⟩
    · rwa [h]
    · exact h.symm ▸ List.suffix_refl _
    · rw [h] at hi
      exact (List.suffix_cons r _).trans hi

/-! ## The order of attempts -/

section Order

variable {A B : Ref} {outs : List Ref}

/-- The pass comes to `B` before it comes to `A`. -/
def BFirst (A B : Ref) (outs c : List Ref) : Prop :=
  [B, A].Sublist c ∨ A ∉ c ∧ (B ∈ c ∨ [B, A].Sublist outs)

theorem BFirst.after (hnodup : outs.Nodup) (hB : B ∈ outs) (hne : A ≠ B) {c : List Ref}
    (hc : (A :: c) <:+ outs) : BFirst A B outs c := by
  obtain ⟨before, rfl⟩ := hc
  right
  constructor
  · exact (List.nodup_cons.mp (List.Nodup.of_append_right hnodup)).1
  · rcases List.mem_append.mp hB with h | h
    · right
      exact (List.singleton_sublist.mpr h).append (List.singleton_sublist.mpr (List.mem_cons_self ..))
    · left
      exact (List.mem_cons.mp h).resolve_left fun h => hne h.symm

theorem BFirst.reset {c : List Ref} (h : BFirst A B outs c) (hB : B ∉ c) : BFirst A B outs outs := by
  rcases h with h | ⟨-, h | h⟩
  · exact absurd (h.subset (List.mem_cons_self ..)) hB
  · exact absurd h hB
  · exact .inl h

theorem BFirst.pop {r : Ref} {c : List Ref} (hr : r ≠ B) (h : BFirst A B outs (r :: c)) : BFirst A B outs c := by
  rcases h with h | ⟨hA, h⟩
  · cases h with
    | cons _ h => exact .inl h
    | cons_cons _ _ => exact absurd rfl hr
  · refine .inr ⟨fun hc => hA (List.mem_cons_of_mem r hc), ?_⟩
    rcases h with h | h
    · exact .inl ((List.mem_cons.mp h).resolve_left fun h => hr h.symm)
    · exact .inr h

theorem BFirst.head_ne {c : List Ref} (hnodup : (A :: c).Nodup) (hne : A ≠ B) : ¬ BFirst A B outs (A :: c) := by
  rintro (h | ⟨hA, -⟩)
  · cases h with
    | cons _ h =>
      have hmem : A ∈ c := h.subset (List.mem_cons_of_mem _ (List.mem_singleton.mpr rfl))
      exact (List.nodup_cons.mp hnodup).1 hmem
    | cons_cons _ _ => exact hne rfl
  · exact hA (List.mem_cons_self ..)

end Order

theorem valueOut_nodup (hacc : Accepted m) (i : Nat) : (m.valueOut i).Nodup := by
  unfold Master.valueOut
  split
  · rename_i slave hs
    exact (hacc.outputs i slave hs).nodup
  · exact List.nodup_nil

theorem valueOut_slave (hacc : Accepted m) {i : Nat} {r : Ref} (h : r ∈ m.valueOut i) : r.slave = i := by
  unfold Master.valueOut at h
  split at h
  · rename_i slave hs
    exact (hacc.outputs i slave hs).slave r h
  · cases h

/-- An attempt for an output of a slave is made while this slave is the current one. -/
theorem Attempt.cons (hacc : Accepted m) {s : State} (hs : Reachable (step setSlave m) Init s) {i : Nat} {r : Ref}
    {a : Act} (hr : r ∈ m.valueOut i) (h : Attempt r s a) : s.slaveCurrIdx = i ∧ ∃ rest, curr i s = r :: rest := by
  obtain ⟨-, -, hhead, -⟩ := h
  obtain ⟨rest, hrest⟩ := List.head?_eq_some_iff.mp hhead
  have hmem : r ∈ m.valueOut s.slaveCurrIdx := by
    apply (curr_suffix hs _).subset
    rw [hrest]
    exact List.mem_cons_self ..
  have hi : s.slaveCurrIdx = i := (valueOut_slave hacc hmem).symm.trans (valueOut_slave hacc hr)
  rw [hi] at hrest
  exact ⟨hi, rest, hrest⟩

end

section Run

variable {setSlave : Bool → Int → Bool} {m : Master} {A B : Ref} {i : Nat}

/-- A step that is no attempt for `B` does not bring the pass to `A`. -/
theorem bFirst_step {s t : State} {a : Act} (hst : step setSlave m s a = some t)
    (hleft : NothingLeft setSlave m s a) (hpend : (s.outs B).writePending = true) (hno : ¬ Attempt B s a)
    (h : BFirst A B (m.valueOut i) (curr i s)) : BFirst A B (m.valueOut i) (curr i t) := by
  rcases step_moved i hst with hk | ⟨hr, hnone⟩ | ⟨r, hi, ha, hpc, hpop⟩
  · rwa [hk]
  · rw [hr]
    refine h.reset fun hmem => ?_
    have := hnone hleft B hmem
    rw [hpend] at this
    cases this
  · rw [hpop] at h
    refine h.pop fun hrB => hno ⟨ha, hpc, ?_, hpend⟩
    rw [hi, hpop, hrB]
    rfl

theorem bFirst_run {s u : State} {l : List Act} (hrun : Run (step setSlave m) s l u)
    (hleft : Meets (step setSlave m) (NothingLeft setSlave m) s l)
    (hwait : Throughout (step setSlave m) (Waits B) s l) (hno : ¬ Occurs (step setSlave m) (Attempt B) s l)
    (hpc : ∀ f, s.pc ≠ .executing B f) (h : BFirst A B (m.valueOut i) (curr i s)) :
    BFirst A B (m.valueOut i) (curr i u) := by
  induction l generalizing s with
  | nil =>
    obtain rfl := (run_nil s u).mp hrun
    exact h
  | cons a l ih =>
    obtain ⟨t, hst, hrun⟩ := (run_cons s a l u).mp hrun
    rw [Occurs, not_or] at hno
    have hpend : (s.outs B).writePending = true := hwait.1.resolve_right fun ⟨f, hf⟩ => hpc f hf
    apply ih hrun (hleft.2 t hst) (hwait.2 t hst)
    · exact fun hocc => hno.2 ⟨t, hst, hocc⟩
    · intro f hf
      rcases executing_step hst hf with h' | h'
      · exact hpc f h'
      · exact hno.1 h'
    · exact bFirst_step hst hleft.1 hpend hno.1 h

end Run

/-- **No output starves behind a failing one**, as long as no pause after a failed write cuts a pass
short: between two attempts for `A`, every other output `B` that waits all the time has its attempt. -/
theorem no_starvation (setSlave : Bool → Int → Bool) (cfg : MasterConf) (m : Master)
    (hm : masterConfigure cfg = some m) (i : Nat) (A B : Ref) (hA : A ∈ m.valueOut i) (hB : B ∈ m.valueOut i)
    (hne : A ≠ B) (s u : State) (hs : Reachable (step setSlave m) Init s) (l : List Act)
    (hrun : Run (step setSlave m) s (.take :: l) u) (hfirst : Attempt A s .take) (hsecond : Attempt A u .take)
    (hwait : Throughout (step setSlave m) (Waits B) s (.take :: l))
    (hleft : Meets (step setSlave m) (NothingLeft setSlave m) s (.take :: l)) :
    Occurs (step setSlave m) (Attempt B) s (.take :: l) := by
  have hacc := masterConfigure_accepted hm
  have hu : Reachable (step setSlave m) Init u := hs.run hrun
  obtain ⟨t, hst, hrun⟩ := (run_cons _ _ _ _).mp hrun
  by_contra hno
  rw [Occurs, not_or] at hno
  obtain ⟨hi, rest, hcurr⟩ := hfirst.cons hacc hs hA
  have hrest : curr i t = rest := take_pops hst hi hcurr
  have hpc : ∀ f, t.pc ≠ .executing B f := by
    intro f hf
    rcases executing_step hst hf with h | h
    · rw [hfirst.2.1] at h
      cases h
    · exact hno.1 h
  have hstart : BFirst A B (m.valueOut i) (curr i t) := by
    rw [hrest]
    exact BFirst.after (valueOut_nodup hacc i) hB hne (hcurr ▸ curr_suffix hs i)
  have hend := bFirst_run hrun (hleft.2 t hst) (hwait.2 t hst) (fun hocc => hno.2 ⟨t, hst, hocc⟩) hpc hstart
  obtain ⟨-, rest', hcurr'⟩ := hsecond.cons hacc hu hA
  rw [hcurr'] at hend
  have hnodup : (A :: rest').Nodup := (hcurr' ▸ curr_suffix hu i).sublist.nodup (valueOut_nodup hacc i)
  exact BFirst.head_ne hnodup hne hend

/-! Two coils, the one configured last heads the list. -/

def coils : Master := (masterConfigure (exampleConf [coilConf "a" 0, coilConf "b" 1])).get (by decide +kernel)

def fairStartActs : List Act :=
  [.task 0 {}, .take, .schedule ⟨0, 0, 0⟩ 1, .task 10 {}, .take, .schedule ⟨0, 0, 1⟩ 1]

/-- In the pass, with only coil 0 left. -/
def fairStart : State := (fairStartActs.foldlM (step modbusSetSlave coils) start).get (by decide +kernel)

def fairActs : List Act :=
  [.finish { result := .error 110, failTicks := 300, ticks := 300 }, .task 400 {}, .task 1300 {}, .take,
    .schedule ⟨0, 0, 1⟩ 0, .finish { ticks := 1310 }, .task 1400 {}]

def fairEnd : State :=
  ((.take :: fairActs).foldlM (step modbusSetSlave coils) fairStart).get (by decide +kernel)

theorem no_starvation_example :
    Occurs (step modbusSetSlave coils) (Attempt ⟨0, 0, 1⟩) fairStart (.take :: fairActs) :=
  no_starvation modbusSetSlave _ coils (Option.some_get _).symm 0 ⟨0, 0, 0⟩ ⟨0, 0, 1⟩ (by decide +kernel)
    (by decide +kernel) (by decide) fairStart fairEnd ⟨start, fairStartActs, rfl, (Option.some_get _).symm⟩ fairActs
    (Option.some_get _).symm (by decide +kernel) (by decide +kernel) (by decide +kernel) (by decide +kernel)

def starveStartActs : List Act :=
  [.task 0 {}, .take, .schedule ⟨0, 0, 1⟩ 1, .schedule ⟨0, 0, 0⟩ 1, .task 10 {}]

def starveStart : State := (starveStartActs.foldlM (step modbusSetSlave coils) start).get (by decide +kernel)

/-- The write of coil 1 times out, the slave is left in the pause, and coil 1 is next again. -/
def starveActs : List Act :=
  [.finish { result := .error 110, failTicks := 300, ticks := 300 }, .task 400 {}, .task 1300 {}]

def starveEnd : State :=
  ((.take :: starveActs).foldlM (step modbusSetSlave coils) starveStart).get (by decide +kernel)

theorem coil_starves :
    Run (step modbusSetSlave coils) start starveStartActs starveStart ∧
      Run (step modbusSetSlave coils) starveStart (.take :: starveActs) starveEnd ∧
      Attempt ⟨0, 0, 1⟩ starveStart .take ∧ Attempt ⟨0, 0, 1⟩ starveEnd .take ∧
      Throughout (step modbusSetSlave coils) (Waits ⟨0, 0, 0⟩) starveStart (.take :: starveActs) ∧
      ¬ Occurs (step modbusSetSlave coils) (Attempt ⟨0, 0, 0⟩) starveStart (.take :: starveActs) :=
  ⟨(Option.some_get _).symm, (Option.some_get _).symm, by decide +kernel, by decide +kernel, by decide +kernel,
    by decide +kernel⟩

end Uvrgw.Mb
