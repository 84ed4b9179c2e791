import Uvrgw.Dispatch.Code
import Uvrgw.Lib.Run

/-!
# The watchdog of one name

Startup, the dispatches of every source thread and the watchdog thread, interleaved at the critical
sections of `disp_lock`. The clock readings that are taken outside of the lock are steps of their own.
-/

namespace Uvrgw.Dispatch.Watchdog

open Uvrgw.Lib

/-! ## History -/

/-- What happened to the name. A list of events has the newest one first. -/
inductive Event where
  /-- A valid dispatch, with its time. -/
  | data (t : Int)
  /-- A watchdog check changed the name or called somebody, with the time at which it did. -/
  | reset (t : Int)
  /-- `uvrgw_conf_startup` came by, with its reading. -/
  | started (t : Int)
  /-- A watchdog check ended, with its reading. -/
  | checked (t : Int)
  deriving DecidableEq, Repr

def lastData : List Event → Option Int
  | [] => none
  | .data t :: _ => some t
  | _ :: l => lastData l

/-- The name was reset and no valid dispatch came after that. -/
def resetSinceData : List Event → Bool
  | [] => false
  | .data _ :: _ => false
  | .reset _ :: _ => true
  | _ :: l => resetSinceData l

/-- Where the timeout of an armed name counts from. -/
def armedAt : List Event → Option Int
  | [] => none
  | .data t :: _ => some t
  | .reset _ :: _ => none
  | .started t :: l => some ((armedAt l).getD t)
  | .checked _ :: l => armedAt l

/-- What a reset has to wait for: the last valid dispatch, or startup if there was none. -/
def WaitsFor (l : List Event) (t : Int) : Prop :=
  lastData l = some t ∨ lastData l = none ∧ .started t ∈ l

/-! ## Machine -/

inductive Startup where
  | idle
  | reading (now : Int)
  | running
  deriving DecidableEq, Repr

structure State (V : Type) where
  dp : Dispatcher V
  /-- The monotonic clock. -/
  clock : Int
  startup : Startup := .idle
  /-- The reading of the watchdog thread's current pass. -/
  check : Option Int := none
  log : List Event := []
  deriving DecidableEq, Repr

inductive Act (V : Type) where
  | tick (now : Int)
  | startupRead
  | startupArm
  /-- `uvrgw_conf_disp_val` in any thread. -/
  | disp (val : Option V) (f : Double) (valid : Bool)
  | checkRead
  | check
  deriving DecidableEq, Repr

variable {V : Type}

section Step

variable [DecidableEq V]

/-- The input modules dispatch received data only, so an input is always dispatched as valid. -/
def step (s : State V) : Act V → Option (State V)
  | .tick now => if s.clock ≤ now then some { s with clock := now } else none
  | .startupRead =>
    if s.startup = .idle then some { s with startup := .reading s.clock } else none
  | .startupArm =>
    match s.startup with
    | .reading now =>
      some { s with dp := s.dp.startupArm now, startup := .running, log := .started now :: s.log }
    | _ => none
  | .disp val f valid =>
    if s.dp.producerInput = true → valid = true then
      some { s with
        dp := (s.dp.dispVal s.clock val f valid).1
        log := if f.isfinite ∧ valid then .data s.clock :: s.log else s.log }
    else none
  | .checkRead =>
    if s.startup = .running ∧ s.check = none then some { s with check := some s.clock } else none
  | .check =>
    match s.check with
    | some now =>
      let (dp, calls) := s.dp.watchdogVisit now
      some { s with
        dp := dp
        check := none
        log := .checked now :: if dp = s.dp ∧ calls = [] then s.log else .reset s.clock :: s.log }
    | none => none

end Step

/-- A name after configuration, before any module is started. -/
structure Init (s : State V) : Prop where
  clock : 0 < s.clock
  startup : s.startup = .idle
  check : s.check = none
  log : s.log = []
  deadline : s.dp.deadline = 0
  valid : s.dp.valid = false

/-! ## The critical sections -/

section Sections

variable (dp : Dispatcher V) (now : Int)

theorem startupArm_armed (h : dp.deadline ≠ 0) : dp.startupArm now = dp := by
  simp [Dispatcher.startupArm, h]

theorem startupArm_free (hT : 0 < dp.staleTimeout) (h : dp.deadline = 0) :
    dp.startupArm now = { dp with deadline := now + dp.staleTimeout } := by
  simp [Dispatcher.startupArm, h, hT]

variable [DecidableEq V] (val : Option V) (f : Double) (valid : Bool)

theorem dispVal_skip (h : f.isfinite = false) : (dp.dispVal now val f valid).1 = dp := by
  simp [Dispatcher.dispVal, h]

theorem dispVal_valid (hf : f.isfinite = true) (hT : 0 < dp.staleTimeout) :
    (dp.dispVal now val f true).1 =
      { dp with lastValue := f, valid := true, received := true, timedOut := false,
                deadline := now + dp.staleTimeout } := by
  simp [Dispatcher.dispVal, Dispatcher.store, Dispatcher.rearm, hf, hT]

theorem watchdogVisit_expired (hT : 0 < dp.staleTimeout) (h : dp.expired now) :
    (dp.watchdogVisit now).1 =
      { dp with deadline := 0, timedOut := true, lastValue := dp.initValue, valid := false } := by
  simp [Dispatcher.watchdogVisit, Dispatcher.watchdogCheck, Dispatcher.disarm, Dispatcher.store, h, hT]

theorem watchdogVisit_skip (h : ¬ dp.expired now) : dp.watchdogVisit now = (dp, []) := by
  unfold Dispatcher.watchdogVisit Dispatcher.watchdogCheck
  simp [h]

end Sections

/-! ## Invariant -/

/-- `deadline` of a name that is armed since `t`. -/
def deadlineOf (timeout : Int) : Option Int → Int
  | some t => t + timeout
  | none => 0

/-- What links the fields of the dispatcher to the history. -/
structure Inv (s : State V) : Prop where
  clock : 0 < s.clock
  timeout : 0 < s.dp.staleTimeout
  input : s.dp.producerInput = true
  reading : ∀ now, s.startup = .reading now → 0 < now ∧ now ≤ s.clock
  pass : ∀ now, s.check = some now → now ≤ s.clock
  deadline : s.dp.deadline = deadlineOf s.dp.staleTimeout (armedAt s.log)
  armed : ∀ t, armedAt s.log = some t → 0 < t ∧ t ≤ s.clock ∧ WaitsFor s.log t
  valid : s.dp.valid = true → ∃ t, lastData s.log = some t ∧ armedAt s.log = some t
  reset : resetSinceData s.log = true → armedAt s.log = none ∧ s.dp.getVal = (s.dp.initValue, false)
  notStarted : s.startup ≠ .running → resetSinceData s.log = false ∧ s.check = none
  resets : ∀ t l, .reset t :: l <:+ s.log →
    resetSinceData l = false ∧ ∃ t₀, WaitsFor l t₀ ∧ t₀ + s.dp.staleTimeout ≤ t
  past : ∀ now, .checked now ∈ s.log → now ≤ s.clock
  checks : ∀ now, .checked now ∈ s.log → s.dp.valid = true →
    ∃ t, lastData s.log = some t ∧ now - s.dp.staleTimeout < t

/-- Valid data arms the name until the next reset. -/
theorem armedAt_of_data {l : List Event} {t : Int} (h : lastData l = some t)
    (hr : resetSinceData l = false) : armedAt l = some t := by
  induction l with
  | nil => simp [lastData] at h
  | cons e l ih => cases e <;> simp_all [lastData, resetSinceData, armedAt]

theorem lastData_mem {l : List Event} {t : Int} (h : lastData l = some t) : .data t ∈ l := by
  induction l with
  | nil => simp [lastData] at h
  | cons e l ih => cases e <;> simp_all [lastData]

theorem Inv.deadline_pos {s : State V} (h : Inv s) {t : Int} (ht : armedAt s.log = some t) :
    s.dp.deadline = t + s.dp.staleTimeout ∧ s.dp.deadline ≠ 0 := by
  have := h.timeout
  have := (h.armed t ht).1
  have hd := h.deadline
  rw [ht] at hd
  simp only [deadlineOf] at hd
  exact ⟨hd, by omega⟩

theorem Inv.deadline_zero {s : State V} (h : Inv s) : s.dp.deadline = 0 ↔ armedAt s.log = none := by
  cases ha : armedAt s.log with
  | none => simp [h.deadline, ha, deadlineOf]
  | some t => simp [(h.deadline_pos ha).2]

theorem Inv.init {s : State V} (hs : Init s) (hT : 0 < s.dp.staleTimeout)
    (hin : s.dp.producerInput = true) : Inv s where
  clock := hs.clock
  timeout := hT
  input := hin
  reading := by simp [hs.startup]
  pass := by simp [hs.check]
  deadline := by simp [hs.log, hs.deadline, armedAt, deadlineOf]
  armed := by simp [hs.log, armedAt]
  valid := by simp [hs.valid]
  reset := by simp [hs.log, resetSinceData]
  notStarted := by simp [hs.log, hs.check, resetSinceData]
  resets := by simp [hs.log]
  past := by simp [hs.log]
  checks := by simp [hs.log]

theorem Inv.tick {s : State V} {now : Int} (h : Inv s) (hnow : s.clock ≤ now) :
    Inv { s with clock := now } where
  clock := Int.lt_of_lt_of_le h.clock hnow
  timeout := h.timeout
  input := h.input
  reading := fun r hr => ⟨(h.reading r hr).1, Int.le_trans (h.reading r hr).2 hnow⟩
  pass := fun r hr => Int.le_trans (h.pass r hr) hnow
  deadline := h.deadline
  armed := fun t ht => ⟨(h.armed t ht).1, Int.le_trans (h.armed t ht).2.1 hnow, (h.armed t ht).2.2⟩
  valid := h.valid
  reset := h.reset
  notStarted := h.notStarted
  resets := h.resets
  past := fun r hr => Int.le_trans (h.past r hr) hnow
  checks := h.checks

theorem Inv.startupRead {s : State V} (h : Inv s) (hidle : s.startup = .idle) :
    Inv { s with startup := .reading s.clock } :=
  { h with
    reading := by
      rintro now ⟨⟩
      exact ⟨h.clock, Int.le_refl _⟩
    notStarted := fun _ => h.notStarted (by simp [hidle]) }

theorem Inv.checkRead {s : State V} (h : Inv s) (hrun : s.startup = .running) :
    Inv { s with check := some s.clock } :=
  { h with
    pass := by
      rintro now ⟨⟩
      exact Int.le_refl _
    notStarted := fun hn => absurd hrun hn }

theorem Inv.startupArm {s : State V} {now : Int} (h : Inv s) (hr : s.startup = .reading now) :
    Inv { s with dp := s.dp.startupArm now, startup := .running, log := .started now :: s.log } := by
  have hnow := h.reading now hr
  have hns := h.notStarted (by simp [hr])
  -- Data that came before startup has armed the name already.
  cases ha : armedAt s.log with
  | some t =>
    have hd := h.deadline_pos ha
    have hw := h.armed t ha
    rw [startupArm_armed _ _ hd.2]
    refine
      { h with
        reading := by simp
        deadline := by simpa [armedAt, ha, deadlineOf] using hd.1
        armed := ?_
        valid := ?_
        reset := by simp [resetSinceData, hns.1]
        notStarted := by simp
        resets := by simpa [List.suffix_cons_iff] using h.resets
        past := by simpa using h.past
        checks := by simpa [lastData] using h.checks }
    · rintro t' ht'
      simp only [armedAt, ha, Option.getD_some, Option.some.injEq] at ht'
      subst ht'
      refine ⟨hw.1, hw.2.1, ?_⟩
      rcases hw.2.2 with hl | ⟨hl, hm⟩
      · exact .inl hl
      · exact .inr ⟨hl, List.mem_cons_of_mem _ hm⟩
    · intro hv
      obtain ⟨t', hl, ht'⟩ := h.valid hv
      exact ⟨t', hl, by simpa [armedAt, ha] using ha.symm.trans ht'⟩
  | none =>
    have hd := h.deadline_zero.mpr ha
    have hnd : lastData s.log = none := by
      cases hl : lastData s.log with
      | none => rfl
      | some t => simp [armedAt_of_data hl hns.1] at ha
    have hnv : s.dp.valid = false := by
      by_contra hv
      obtain ⟨t, hl, -⟩ := h.valid (by simpa using hv)
      simp [hnd] at hl
    rw [startupArm_free _ _ h.timeout hd]
    refine
      { h with
        reading := by simp
        deadline := by simp [armedAt, ha, deadlineOf]
        armed := ?_
        valid := by simp [hnv]
        reset := by simp [resetSinceData, hns.1]
        notStarted := by simp
        resets := by simpa [List.suffix_cons_iff] using h.resets
        past := by simpa using h.past
        checks := by simp [hnv] }
    rintro t ht
    simp only [armedAt, ha, Option.getD_none, Option.some.injEq] at ht
    subst ht
    exact ⟨hnow.1, hnow.2, .inr ⟨hnd, List.mem_cons_self ..⟩⟩

theorem Inv.disp [DecidableEq V] {s : State V} {val : Option V} {f : Double} (h : Inv s) :
    Inv { s with
      dp := (s.dp.dispVal s.clock val f true).1
      log := if f.isfinite ∧ true then .data s.clock :: s.log else s.log } := by
  cases hf : f.isfinite with
  | false => simpa [dispVal_skip, hf] using h
  | true =>
    have hT := h.timeout
    rw [dispVal_valid _ _ _ _ hf hT, if_pos (by simp)]
    refine
      { h with
        deadline := by simp [armedAt, deadlineOf]
        armed := ?_
        valid := by simp [lastData, armedAt]
        reset := by simp [resetSinceData]
        notStarted := fun hn => by simpa [resetSinceData] using (h.notStarted hn).2
        resets := by simpa [List.suffix_cons_iff] using h.resets
        past := by simpa using h.past
        checks := ?_ }
    · rintro t ⟨⟩
      exact ⟨h.clock, Int.le_refl _, .inl rfl⟩
    · intro now hnow _
      have := h.past now (by simpa using hnow)
      exact ⟨s.clock, rfl, by simp only; omega⟩

theorem Inv.fresh {s : State V} {now : Int} (h : Inv s) (hne : ¬ s.dp.expired now)
    (hv : s.dp.valid = true) : ∃ t, lastData s.log = some t ∧ now - s.dp.staleTimeout < t := by
  obtain ⟨t, hl, ha⟩ := h.valid hv
  have hd := h.deadline_pos ha
  refine ⟨t, hl, ?_⟩
  simp only [Dispatcher.expired, not_and, Int.not_le] at hne
  have := hne hd.2
  omega

theorem Inv.check_skip {s : State V} {now : Int} (h : Inv s) (hc : s.check = some now)
    (hne : ¬ s.dp.expired now) : Inv { s with check := none, log := .checked now :: s.log } :=
  { h with
    pass := by simp
    armed := fun t ht => by simpa [WaitsFor, lastData] using h.armed t ht
    notStarted := fun hn => ⟨(h.notStarted hn).1, rfl⟩
    resets := by simpa [List.suffix_cons_iff] using h.resets
    past := by
      intro r hr
      rcases List.mem_cons.mp hr with ⟨⟨⟩⟩ | hr
      · exact h.pass _ hc
      · exact h.past r hr
    checks := by
      intro r hr hv
      rcases List.mem_cons.mp hr with ⟨⟨⟩⟩ | hr
      · exact h.fresh hne hv
      · exact h.checks r hr hv }

theorem Inv.check_expired {s : State V} {now : Int} (h : Inv s) (hc : s.check = some now)
    (he : s.dp.expired now) :
    Inv { s with
      dp := { s.dp with deadline := 0, timedOut := true, lastValue := s.dp.initValue, valid := false }
      check := none
      log := .checked now :: .reset s.clock :: s.log } := by
  have hle := h.pass now hc
  -- The name was armed, and a name that is armed was not reset since its last data.
  obtain ⟨t, ha⟩ := Option.ne_none_iff_exists'.mp (mt h.deadline_zero.mpr he.1)
  have hd := (h.deadline_pos ha).1
  have hdue := he.2
  have hnr : resetSinceData s.log = false := by
    by_contra hr
    simp [(h.reset (by simpa using hr)).1] at ha
  refine
    { h with
      pass := by simp
      deadline := by simp [armedAt, deadlineOf]
      armed := by simp [armedAt]
      valid := by simp
      reset := fun _ => ⟨rfl, rfl⟩
      notStarted := fun hn => ?_
      resets := ?_
      past := ?_
      checks := by simp }
  · simp [(h.notStarted hn).2] at hc
  · intro t' l hl
    simp only [List.suffix_cons_iff, List.cons.injEq, reduceCtorEq, false_and, Event.reset.injEq,
      false_or] at hl
    rcases hl with ⟨rfl, rfl⟩ | hl
    · exact ⟨hnr, t, (h.armed t ha).2.2, by simp only; omega⟩
    · exact h.resets t' l hl
  · intro r hr
    simp only [List.mem_cons, reduceCtorEq, Event.checked.injEq, false_or] at hr
    rcases hr with rfl | hr
    · exact hle
    · exact h.past r hr

section Step

variable [DecidableEq V]

theorem Inv.check {s : State V} {now : Int} (h : Inv s) (hc : s.check = some now) :
    Inv { s with
      dp := (s.dp.watchdogVisit now).1
      check := none
      log := .checked now ::
        if (s.dp.watchdogVisit now).1 = s.dp ∧ (s.dp.watchdogVisit now).2 = [] then s.log
        else .reset s.clock :: s.log } := by
  by_cases he : s.dp.expired now
  · -- the deadline is gone, so the name has changed
    have hvisit := watchdogVisit_expired s.dp now h.timeout he
    have hne : ¬ ((s.dp.watchdogVisit now).1 = s.dp ∧ (s.dp.watchdogVisit now).2 = []) := by
      rintro ⟨heq, -⟩
      rw [hvisit] at heq
      exact he.1 (congrArg Dispatcher.deadline heq).symm
    rw [if_neg hne, hvisit]
    exact h.check_expired hc he
  · rw [watchdogVisit_skip _ _ he, if_pos ⟨rfl, rfl⟩]
    exact h.check_skip hc he

theorem Inv.step {s t : State V} (a : Act V) (h : Inv s) (hst : step s a = some t) : Inv t := by
  cases a with
  | tick now =>
    obtain ⟨hnow, rfl⟩ := by simpa [Watchdog.step] using hst
    exact h.tick hnow
  | startupRead =>
    obtain ⟨hidle, rfl⟩ := by simpa [Watchdog.step] using hst
    exact h.startupRead hidle
  | startupArm =>
    simp only [Watchdog.step] at hst
    split at hst
    · rename_i now hr
      cases hst
      exact h.startupArm hr
    · cases hst
  | disp val f valid =>
    obtain ⟨hv, rfl⟩ := by simpa [Watchdog.step] using hst
    cases hv h.input
    exact h.disp
  | checkRead =>
    obtain ⟨⟨hrun, -⟩, rfl⟩ := by simpa [Watchdog.step] using hst
    exact h.checkRead hrun
  | check =>
    simp only [Watchdog.step] at hst
    split at hst
    · rename_i now hc
      cases hst
      exact h.check hc
    · cases hst

theorem step_config {s t : State V} (a : Act V) (hst : step s a = some t) :
    t.dp.config = s.dp.config := by
  cases a with
  | tick now =>
    obtain ⟨-, rfl⟩ := by simpa [Watchdog.step] using hst
    rfl
  | startupRead =>
    obtain ⟨-, rfl⟩ := by simpa [Watchdog.step] using hst
    rfl
  | startupArm =>
    simp only [Watchdog.step] at hst
    split at hst <;> cases hst
    exact Dispatcher.config_startupArm ..
  | disp val f valid =>
    obtain ⟨-, rfl⟩ := by simpa [Watchdog.step] using hst
    exact Dispatcher.config_dispVal ..
  | checkRead =>
    obtain ⟨-, rfl⟩ := by simpa [Watchdog.step] using hst
    rfl
  | check =>
    simp only [Watchdog.step] at hst
    split at hst <;> cases hst
    exact Dispatcher.config_watchdogVisit ..

theorem run_config {s t : State V} {l : List (Act V)} (h : Run step s l t) :
    t.dp.config = s.dp.config :=
  h.invariant (I := fun u => u.dp.config = s.dp.config)
    (fun _ a _ hu huv => (step_config a huv).trans hu) rfl

theorem run_inv {s t : State V} {l : List (Act V)} (hs : Init s) (hT : 0 < s.dp.staleTimeout)
    (hin : s.dp.producerInput = true) (h : Run step s l t) : Inv t :=
  h.invariant (fun _ a _ hu huv => hu.step a huv) (Inv.init hs hT hin)

/-! ## Safety -/

/-- **Watchdog safety.** In every reachable state: a valid name is armed from its last valid
dispatch; a reset waited for the timeout and is the only one since the last valid dispatch; after it
the stored pair is the initial one; and after a check the name is valid only with data that is newer
than the timeout. -/
theorem watchdog_safety (s t : State V) (l : List (Act V)) (hs : Init s)
    (hT : 0 < s.dp.staleTimeout) (hin : s.dp.producerInput = true) (h : Run step s l t) :
    (t.dp.valid = true →
      ∃ t₀, lastData t.log = some t₀ ∧ t.dp.deadline = t₀ + s.dp.staleTimeout) ∧
    (∀ t₁ before, .reset t₁ :: before <:+ t.log →
      (∃ t₀, WaitsFor before t₀ ∧ t₀ + s.dp.staleTimeout ≤ t₁) ∧ resetSinceData before = false) ∧
    (resetSinceData t.log = true → t.dp.getVal = (s.dp.initValue, false)) ∧
    (∀ now, .checked now ∈ t.log → t.dp.valid = true →
      ∃ t₀, .data t₀ ∈ t.log ∧ now - s.dp.staleTimeout < t₀) := by
  have hinv := run_inv hs hT hin h
  obtain ⟨hto, hinit, -⟩ := Dispatcher.config_fields (run_config h)
  rw [← hto, ← hinit]
  refine ⟨fun hv => ?_, fun t₁ before hb => ?_, fun hr => (hinv.reset hr).2, fun now hc hv => ?_⟩
  · obtain ⟨t₀, hl, ha⟩ := hinv.valid hv
    exact ⟨t₀, hl, (hinv.deadline_pos ha).1⟩
  · exact ⟨(hinv.resets t₁ before hb).2, (hinv.resets t₁ before hb).1⟩
  · obtain ⟨t₀, hl, hlt⟩ := hinv.checks now hc hv
    exact ⟨t₀, lastData_mem hl, hlt⟩

end Step

/-- A name with a reader that is armed by startup, gets data and is reset by a late check; the next one
does nothing. -/
def exampleInit : State Nat where
  dp := { name := "p1", staleTimeout := 10, producerInput := true, valueCbs := [some 7] }
  clock := 1

def exampleActs : List (Act Nat) :=
  [.startupRead, .startupArm, .tick 5, .disp none (.fin 3) true, .tick 20, .checkRead, .check, .checkRead, .check]

def exampleLast : State Nat where
  dp := { exampleInit.dp with received := true, timedOut := true }
  clock := 20
  startup := .running
  log := [.checked 20, .checked 20, .reset 20, .data 5, .started 1]

theorem watchdog_safety_example :
    exampleLast.dp.getVal = (.fin 0, false) ∧
      ∃ t₀, .data t₀ ∈ exampleLast.log ∧ t₀ + 10 ≤ 20 := by
  have h := watchdog_safety exampleInit exampleLast exampleActs
    ⟨by decide, rfl, rfl, rfl, rfl, rfl⟩ (by decide) rfl (by decide +kernel)
  refine ⟨h.2.2.1 rfl, ?_⟩
  obtain ⟨⟨t₀, ht₀, hle⟩, -⟩ := h.2.1 20 [.data 5, .started 1] (by decide)
  rcases ht₀ with ht₀ | ⟨ht₀, -⟩
  · exact ⟨t₀, by simp [exampleLast, lastData_mem ht₀], hle⟩
  · cases ht₀

end Uvrgw.Dispatch.Watchdog
