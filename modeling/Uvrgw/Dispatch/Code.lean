import Uvrgw.Number

/-!
# The value dispatcher (`uvrgw_conf.c`)

One node per value name. The functions here are the critical sections of `disp_lock`, each as one
function of the node; `Section.lean` takes them apart again.
-/

namespace Uvrgw.Dispatch

/-- `UVRGW_CONF_VAL_DISPATCH_T`. `V` stands for the addresses of value objects, which the source
passes around as `void *`. -/
structure Dispatcher (V : Type) where
  name : String
  /-- The module that publishes this value, for messages. -/
  producer : Option String := none
  valueCount : Nat := 0
  valueCbsPos : Nat := 0
  /-- One entry per slot; `none` is a slot without a callback. -/
  valueCbs : List (Option V) := []
  producerVal : Option V := none
  producerInput : Bool := false
  timeoutReader : Option String := none
  initValue : Double := .fin 0
  staleTimeout : Int := 0
  /-- 0 is disarmed. -/
  deadline : Int := 0
  timedOut : Bool := false
  received : Bool := false
  lastValue : Double := .fin 0
  valid : Bool := false
  deriving DecidableEq, Repr

/-- One call of a `UVRGW_CONF_DISPATCH_CB`. -/
structure Call (V : Type) where
  val : V
  f : Double
  valid : Bool
  deriving DecidableEq, Repr

variable {V : Type} [DecidableEq V]

namespace Dispatcher

/-- The body of the loop of `fire_cbs`: a filled slot is called unless it is the one of the source. -/
def slotCall (val : Option V) (f : Double) (valid : Bool) (cb : Option V) : Option (Call V) :=
  if cb = val then none else cb.map (⟨·, f, valid⟩)

def fireCbs (dp : Dispatcher V) (val : Option V) (f : Double) (valid : Bool) : List (Call V) :=
  dp.valueCbs.filterMap (slotCall val f valid)

def store (dp : Dispatcher V) (f : Double) (valid : Bool) : Dispatcher V :=
  { dp with lastValue := f, valid := valid }

/-- What valid data does to the watchdog fields. -/
def rearm (dp : Dispatcher V) (now : Int) : Dispatcher V :=
  { dp with
    received := true
    deadline := if 0 < dp.staleTimeout then now + dp.staleTimeout else dp.deadline
    timedOut := false }

/-- `uvrgw_conf_disp_val`, with the clock reading of its `utl_get_ticks`. -/
def dispVal (dp : Dispatcher V) (now : Int) (val : Option V) (f : Double) (valid : Bool) :
    Dispatcher V × List (Call V) :=
  if f.isfinite then
    let dp := dp.store f valid
    let dp := if valid then dp.rearm now else dp
    (dp, dp.fireCbs val f valid)
  else (dp, [])

def getVal (dp : Dispatcher V) : Double × Bool := (dp.lastValue, dp.valid)

/-- The part of `uvrgw_conf_startup` about one name. -/
def startupArm (dp : Dispatcher V) (now : Int) : Dispatcher V :=
  if 0 < dp.staleTimeout ∧ dp.deadline = 0 then { dp with deadline := now + dp.staleTimeout } else dp

def expired (dp : Dispatcher V) (now : Int) : Prop := dp.deadline ≠ 0 ∧ dp.deadline ≤ now

instance (dp : Dispatcher V) (now : Int) : Decidable (dp.expired now) :=
  inferInstanceAs (Decidable (_ ∧ _))

/-- The fields of `watchdog_check` that only `disp_lock` protects. -/
def disarm (dp : Dispatcher V) : Dispatcher V := { dp with deadline := 0, timedOut := true }

def watchdogCheck (dp : Dispatcher V) (now : Int) : Dispatcher V × List (Call V) :=
  if dp.expired now then
    let dp := dp.disarm.store dp.initValue false
    (dp, dp.fireCbs dp.producerVal dp.initValue false)
  else (dp, [])

/-- The visit of one name by `watchdog_thread`. -/
def watchdogVisit (dp : Dispatcher V) (now : Int) : Dispatcher V × List (Call V) :=
  if 0 < dp.staleTimeout then dp.watchdogCheck now else (dp, [])

/-! ## Callbacks -/

theorem slotCall_skip {cb val : Option V} (h : cb = none ∨ cb = val) (f : Double) (valid : Bool) :
    slotCall val f valid cb = none := by
  unfold slotCall
  rcases h with rfl | rfl <;> simp

theorem slotCall_call {v : V} {val : Option V} (h : some v ≠ val) (f : Double) (valid : Bool) :
    slotCall val f valid (some v) = some ⟨v, f, valid⟩ := if_neg h

theorem slotCall_some {cb val : Option V} {f : Double} {valid : Bool} {c : Call V}
    (h : slotCall val f valid cb = some c) : cb = some c.val ∧ c.valid = valid := by
  unfold slotCall at h
  split at h
  · cases h
  · obtain ⟨v, rfl, rfl⟩ := Option.map_eq_some_iff.mp h
    exact ⟨rfl, rfl⟩

theorem fireCbs_mem (dp : Dispatcher V) {val : Option V} {f : Double} {valid : Bool} {v : V}
    (hv : some v ∈ dp.valueCbs) (hne : some v ≠ val) : ⟨v, f, valid⟩ ∈ dp.fireCbs val f valid := by
  exact List.mem_filterMap.mpr ⟨some v, hv, slotCall_call hne f valid⟩

theorem fireCbs_valid (dp : Dispatcher V) {val : Option V} {f : Double} {valid : Bool} :
    ∀ c ∈ dp.fireCbs val f valid, c.valid = valid := by
  intro c hc
  obtain ⟨cb, -, hcb⟩ := List.mem_filterMap.mp hc
  exact (slotCall_some hcb).2

theorem fireCbs_cbs {dp : Dispatcher V} {val : Option V} {f : Double} {valid : Bool} {c : Call V}
    (hc : c ∈ dp.fireCbs val f valid) : some c.val ∈ dp.valueCbs := by
  obtain ⟨cb, hcb, hcall⟩ := List.mem_filterMap.mp hc
  exact (slotCall_some hcall).1 ▸ hcb

theorem dispVal_cbs {dp : Dispatcher V} {now : Int} {val : Option V} {f : Double} {valid : Bool} {c : Call V}
    (hc : c ∈ (dp.dispVal now val f valid).2) : some c.val ∈ dp.valueCbs := by
  unfold dispVal at hc
  split at hc
  · cases valid <;> exact fireCbs_cbs hc
  · cases hc

theorem watchdogVisit_cbs {dp : Dispatcher V} {now : Int} {c : Call V} (hc : c ∈ (dp.watchdogVisit now).2) :
    some c.val ∈ dp.valueCbs ∧ 0 < dp.staleTimeout ∧ dp.expired now := by
  unfold watchdogVisit watchdogCheck at hc
  split at hc
  · split at hc
    · exact ⟨fireCbs_cbs hc, ‹_›, ‹_›⟩
    · cases hc
  · cases hc

theorem dispVal_calls (dp : Dispatcher V) (now : Int) (val : Option V) (f : Double) (valid : Bool) :
    (dp.dispVal now val f valid).1.getVal = dp.getVal ∨
      ∀ v, some v ∈ dp.valueCbs → some v ≠ val → ∃ c ∈ (dp.dispVal now val f valid).2, c.val = v := by
  unfold dispVal
  split
  · refine .inr fun v hv hne => ⟨⟨v, f, valid⟩, fireCbs_mem _ ?_ hne, rfl⟩
    cases valid <;> exact hv
  · exact .inl rfl

theorem watchdogVisit_calls (dp : Dispatcher V) (now : Int) :
    (dp.watchdogVisit now).1.getVal = dp.getVal ∨
      ∀ v, some v ∈ dp.valueCbs → some v ≠ dp.producerVal → ∃ c ∈ (dp.watchdogVisit now).2, c.val = v := by
  unfold watchdogVisit watchdogCheck
  split
  · split
    · exact .inr fun v hv hne => ⟨_, fireCbs_mem _ hv hne, rfl⟩
    · exact .inl rfl
  · exact .inl rfl

/-! ## Configuration -/

/-- What configuration decides about a name: the node without the fields that change at run time. -/
def config (dp : Dispatcher V) : Dispatcher V :=
  { dp with deadline := 0, timedOut := false, received := false, lastValue := .fin 0, valid := false }

omit [DecidableEq V] in
@[simp] theorem config_startupArm (dp : Dispatcher V) (now : Int) :
    (dp.startupArm now).config = dp.config := by
  unfold startupArm
  split <;> rfl

@[simp] theorem config_dispVal (dp : Dispatcher V) (now : Int) (val : Option V) (f : Double)
    (valid : Bool) : (dp.dispVal now val f valid).1.config = dp.config := by
  unfold dispVal
  split
  · cases valid <;> rfl
  · rfl

@[simp] theorem config_watchdogVisit (dp : Dispatcher V) (now : Int) :
    (dp.watchdogVisit now).1.config = dp.config := by
  unfold watchdogVisit watchdogCheck
  split
  · split <;> rfl
  · rfl

omit [DecidableEq V] in
theorem config_fields {dp dq : Dispatcher V} (h : dp.config = dq.config) :
    dp.staleTimeout = dq.staleTimeout ∧ dp.initValue = dq.initValue ∧
      dp.producerInput = dq.producerInput ∧ dp.producerVal = dq.producerVal ∧
      dp.valueCbs = dq.valueCbs := by
  simp only [config, Dispatcher.mk.injEq] at h
  simp [h]

end Dispatcher

end Uvrgw.Dispatch
