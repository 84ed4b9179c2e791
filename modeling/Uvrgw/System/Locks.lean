import Uvrgw.Lib.Locks
import Uvrgw.System.Delivery

/-!
# The order of the locks

What each function does to the locks, as far as the configuration decides it; what data decides is
left open, so a function has many paths. The locks of libmosquitto and libmodbus are not included.
-/

namespace Uvrgw.Conf

open Uvrgw.Lib Uvrgw.Dispatch Uvrgw.Evals

inductive Lock where
  | dispLock (name : String)
  | lastLock (name : String)
  | counterLock (i : Nat)
  | writeLock (master : Nat)
  | sendBufMutex (frame : Nat)
  /-- `lock` of `eval.c`. -/
  | lock
  deriving DecidableEq, Repr

/-- The frame or master of a value object, whichever it is. -/
structure Wiring where
  frame : Val → Nat
  master : Val → Nat

/-- The functions that take locks. -/
inductive Fn where
  | dispVal (name : String) (val : Option Val)
  | fireCbs (cbs : List (Option Val)) (val : Option Val)
  /-- The callback of a value object. -/
  | cb (val : Val)
  /-- `source_update`, and the rounds of `counter_thread` and `counter_publish` for one counter. -/
  | counter (i : Nat)
  | saveStates (i : Nat)
  | watchdogCheck (name : String)
  /-- `uvrgw_conf_startup` for one name. -/
  | startup (name : String)
  | getVal (name : String)
  /-- The last loop of `evaluate`. -/
  | publish (i : Nat) (values : List EvalVal)
  | evaluate (i : Nat)
  /-- `eval_thread` from one wait for its lock to the next. -/
  | evalThread
  /-- `eval_startup` and `eval_shutdown`. -/
  | evalControl
  /-- `iface_task` for one frame. -/
  | ifaceTask (frame : Nat)
  | writeExecute (master : Nat)

/-- The lock operations of a function. -/
inductive LockPath (sys : System) (w : Wiring) : Fn → List (LockAct Lock) → Prop
  /-- The number is not finite. -/
  | dropped (name : String) (val : Option Val) : LockPath sys w (.dispVal name val) []
  | stored {name : String} {val : Option Val} {path : List (LockAct Lock)}
      (h : LockPath sys w (.fireCbs (sys.dispatcher name).valueCbs val) path) :
      LockPath sys w (.dispVal name val) (guarded (.dispLock name) (guarded (.lastLock name) [] ++ path))
  | fired (val : Option Val) : LockPath sys w (.fireCbs [] val) []
  | skip {cb val : Option Val} {cbs : List (Option Val)} {path : List (LockAct Lock)} (hcb : cb = none ∨ cb = val)
      (h : LockPath sys w (.fireCbs cbs val) path) : LockPath sys w (.fireCbs (cb :: cbs) val) path
  | call {v : Val} {val : Option Val} {cbs : List (Option Val)} {path path' : List (LockAct Lock)}
      (hv : some v ≠ val) (hcb : LockPath sys w (.cb v) path) (h : LockPath sys w (.fireCbs cbs val) path') :
      LockPath sys w (.fireCbs (some v :: cbs) val) (path ++ path')
  /-- A callback that takes no further lock, also one that never comes back. -/
  | cut (v : Val) : LockPath sys w (.cb v) []
  /-- `send_value` of `can.c`. -/
  | sendValue (i : Nat) : LockPath sys w (.cb (.can i)) (guarded (.sendBufMutex (w.frame (.can i))) [])
  /-- `write_schedule`. -/
  | writeRtu (i : Nat) : LockPath sys w (.cb (.modbusRtu i)) (guarded (.writeLock (w.master (.modbusRtu i))) [])
  | writeTcp (i : Nat) : LockPath sys w (.cb (.modbusTcp i)) (guarded (.writeLock (w.master (.modbusTcp i))) [])
  /-- `send_value` of `mqtt.c`. -/
  | mqttSend (n i : Nat) : LockPath sys w (.cb (.mqtt n i)) []
  | triggerUpdate (i : Nat) : LockPath sys w (.cb (.eval i)) (guarded .lock [])
  | sourceUpdate {i : Nat} {path : List (LockAct Lock)} (h : LockPath sys w (.counter i) path) :
      LockPath sys w (.cb (.counter i)) path
  /-- Disabled, or without a total. -/
  | counterIdle (i : Nat) : LockPath sys w (.counter i) (guarded (.counterLock i) [])
  | counterDisp {i : Nat} {c : Counters.Counter} {path : List (LockAct Lock)} (hc : sys.counters[i]? = some c)
      (h : LockPath sys w (.dispVal c.name (some (.counter i))) path) :
      LockPath sys w (.counter i) (guarded (.counterLock i) path)
  | saved (i : Nat) : LockPath sys w (.saveStates i) (guarded (.counterLock i) [])
  | saveFailed (i : Nat) :
      LockPath sys w (.saveStates i) (guarded (.counterLock i) [] ++ guarded (.counterLock i) [])
  | notExpired (name : String) : LockPath sys w (.watchdogCheck name) (guarded (.dispLock name) [])
  | reset {name : String} {path : List (LockAct Lock)}
      (h : LockPath sys w (.fireCbs (sys.dispatcher name).valueCbs (sys.dispatcher name).producerVal) path) :
      LockPath sys w (.watchdogCheck name) (guarded (.dispLock name) (guarded (.lastLock name) [] ++ path))
  | startup (name : String) : LockPath sys w (.startup name) (guarded (.dispLock name) [])
  | getVal (name : String) : LockPath sys w (.getVal name) (guarded (.lastLock name) [])
  | published (i : Nat) : LockPath sys w (.publish i []) []
  | publishLocal {i : Nat} {v : EvalVal} {vs : List EvalVal} {path : List (LockAct Lock)} (hd : v.disp = none)
      (h : LockPath sys w (.publish i vs) path) : LockPath sys w (.publish i (v :: vs)) path
  | publishValue {i : Nat} {v : EvalVal} {vs : List EvalVal} {name : String} {path path' : List (LockAct Lock)}
      (hd : v.disp = some name) (hdisp : LockPath sys w (.dispVal name (some (.eval i))) path)
      (h : LockPath sys w (.publish i vs) path') : LockPath sys w (.publish i (v :: vs)) (path ++ path')
  | evaluate {i : Nat} {e : Eval} {path : List (LockAct Lock)} (he : sys.evals[i]? = some e)
      (h : LockPath sys w (.publish i e.values) path) :
      LockPath sys w (.evaluate i) (e.ins.flatMap (fun input => guarded (.lastLock input.disp) []) ++ path)
  /-- A pass that ends in the wait for `cond`. -/
  | evalWait : LockPath sys w .evalThread (guarded .lock [])
  | evalDue {i : Nat} {path : List (LockAct Lock)} (h : LockPath sys w (.evaluate i) path) :
      LockPath sys w .evalThread (guarded .lock [] ++ path)
  | evalControl : LockPath sys w .evalControl (guarded .lock [])
  | ifaceTask (frame : Nat) : LockPath sys w (.ifaceTask frame) (guarded (.sendBufMutex frame) [])
  | written (master : Nat) : LockPath sys w (.writeExecute master) (guarded (.writeLock master) [])
  | writeFailed (master : Nat) :
      LockPath sys w (.writeExecute master) (guarded (.writeLock master) [] ++ guarded (.writeLock master) [])

def CodePath (sys : System) (w : Wiring) (path : List (LockAct Lock)) : Prop := ∃ f, LockPath sys w f path

/-! ## The order -/

/-- The names that a counter reads come first, then the counters, then all other names. -/
def rank (sys : System) : Lock → Nat
  | .dispLock name => if sys.counters.any (·.source = name) then 0 else 2
  | .counterLock _ => 1
  | .lastLock _ | .writeLock _ | .sendBufMutex _ | .lock => 3

theorem rank_dispLock (sys : System) (name : String) :
    rank sys (.dispLock name) = if sys.counters.any (·.source = name) then 0 else 2 := rfl

theorem rank_le (sys : System) (l : Lock) : rank sys l ≤ 3 := by
  cases l with
  | dispLock name =>
    rw [rank_dispLock]
    split <;> omega
  | counterLock i => exact Nat.le_of_ble_eq_true rfl
  | lastLock | writeLock | sendBufMutex | lock => exact Nat.le_refl 3

def NoCounter (cbs : List (Option Val)) : Prop := ∀ i, some (.counter i) ∉ cbs

/-- A counter is a callback of its source only. -/
theorem LoadedSystem.noCounter {conf : Config} {sys : System} (h : LoadedSystem conf sys) {name : String}
    (hname : ¬ sys.counters.any (·.source = name) = true) : NoCounter (sys.dispatcher name).valueCbs := by
  intro i hi
  obtain ⟨dp, hdp, rfl⟩ := List.mem_map.mp (dispatcher_listed hi)
  rw [h.dispatcher hdp] at hi
  obtain ⟨c, hc, hsource⟩ := ((h.entry dp hdp).cbs _).mp hi
  exact hname (List.any_eq_true.mpr ⟨c, List.mem_of_getElem? hc, by simpa using hsource⟩)

theorem LoadedSystem.rank_counter {conf : Config} {sys : System} (h : LoadedSystem conf sys) {i : Nat}
    {c : Counters.Counter} (hc : sys.counters[i]? = some c) : rank sys (.dispLock c.name) = 2 := by
  rw [rank_dispLock, if_neg]
  intro hany
  obtain ⟨d, hd, heq⟩ := List.any_eq_true.mp hany
  exact (h.counters d hd).2 c (List.mem_of_getElem? hc) (by simpa using heq)

section Paths

variable {sys : System} {w : Wiring} {path : List (LockAct Lock)}

/-- The callbacks are those of `fire_cbs`, in its order. -/
theorem lockPath_fireCbs {dp : Dispatcher Val} {val : Option Val} (f : Double) (valid : Bool) :
    LockPath sys w (.fireCbs dp.valueCbs val) path ↔
      ∃ paths, List.Forall₂ (fun c p => LockPath sys w (.cb c.val) p) (dp.fireCbs val f valid) paths ∧
        path = paths.flatten := by
  unfold Dispatcher.fireCbs
  induction dp.valueCbs generalizing path with
  | nil =>
    constructor
    · rintro ⟨⟩
      exact ⟨[], .nil, rfl⟩
    · rintro ⟨paths, hpaths, rfl⟩
      cases hpaths
      exact .fired val
  | cons cb cbs ih =>
    constructor
    · intro h
      cases h with
      | skip hcb h =>
        rw [List.filterMap_cons_none (Dispatcher.slotCall_skip hcb f valid)]
        exact ih.mp h
      | @call v _ _ p q hv hcb h =>
        obtain ⟨paths, hpaths, rfl⟩ := ih.mp h
        rw [List.filterMap_cons_some (Dispatcher.slotCall_call hv f valid)]
        exact ⟨p :: paths, .cons hcb hpaths, rfl⟩
    · rintro ⟨paths, hpaths, rfl⟩
      by_cases hcb : cb = none ∨ cb = val
      · rw [List.filterMap_cons_none (Dispatcher.slotCall_skip hcb f valid)] at hpaths
        exact .skip hcb (ih.mpr ⟨paths, hpaths, rfl⟩)
      · obtain ⟨hnone, hval⟩ := not_or.mp hcb
        obtain ⟨v, rfl⟩ := Option.ne_none_iff_exists'.mp hnone
        rw [List.filterMap_cons_some (Dispatcher.slotCall_call hval f valid)] at hpaths
        cases hpaths with
        | cons hv hpaths => exact .call hval hv (ih.mpr ⟨_, hpaths, rfl⟩)

theorem nested_single {b : Nat} {l : Lock} (hb : b ≤ rank sys l) : Nested (rank sys) b (guarded l []) :=
  .guarded hb .nil

theorem LockPath.cb_nested {v : Val} (h : LockPath sys w (.cb v) path) (hv : ∀ i, v ≠ .counter i) :
    Nested (rank sys) 3 path := by
  cases h with
  | sendValue | writeRtu | writeTcp | triggerUpdate => exact nested_single (Nat.le_refl 3)
  | cut | mqttSend => exact .nil
  | sourceUpdate => exact absurd rfl (hv _)

theorem LockPath.fireCbs_nested {cbs : List (Option Val)} {val : Option Val}
    (h : LockPath sys w (.fireCbs cbs val) path) (hcbs : NoCounter cbs) : Nested (rank sys) 3 path := by
  induction cbs generalizing path with
  | nil =>
    cases h
    exact .nil
  | cons cb cbs ih =>
    have hrest : NoCounter cbs := fun i hi => hcbs i (List.mem_cons_of_mem _ hi)
    cases h with
    | skip _ h => exact ih h hrest
    | call _ hcb h =>
      refine .append (hcb.cb_nested fun i hi => hcbs i ?_) (ih h hrest)
      rw [hi]
      exact List.mem_cons_self

def base (sys : System) : Fn → Nat
  | .dispVal name _ => rank sys (.dispLock name)
  | .fireCbs _ _ | .cb _ | .counter _ => 1
  | .saveStates _ | .watchdogCheck _ | .startup _ | .getVal _ | .publish _ _ | .evaluate _ | .evalThread
  | .evalControl | .ifaceTask _ | .writeExecute _ => 0

/-- The store and the callbacks of a name, below its `disp_lock`. -/
theorem nested_section {conf : Config} (hsys : LoadedSystem conf sys) {name : String} {val : Option Val}
    (h : LockPath sys w (.fireCbs (sys.dispatcher name).valueCbs val) path) (hpath : Nested (rank sys) 1 path) :
    Nested (rank sys) (rank sys (.dispLock name))
      (guarded (.dispLock name) (guarded (.lastLock name) [] ++ path)) := by
  refine .guarded (Nat.le_refl _) (.append (nested_single ?_) ?_)
  · rw [rank_dispLock]
    split <;> exact Nat.le_of_ble_eq_true rfl
  · by_cases hname : sys.counters.any (·.source = name) = true
    · rwa [rank_dispLock, if_pos hname]
    · rw [rank_dispLock, if_neg hname]
      exact h.fireCbs_nested (hsys.noCounter hname)

theorem LockPath.nested {conf : Config} (hsys : LoadedSystem conf sys) {f : Fn} (h : LockPath sys w f path) :
    Nested (rank sys) (base sys f) path := by
  induction h with
  | cut | dropped | fired | mqttSend | published => exact .nil
  | stored h ih => exact nested_section hsys h ih
  | skip _ _ ih => exact ih
  | call _ _ _ ihcb ih => exact .append ihcb ih
  | sendValue | writeRtu | writeTcp | triggerUpdate | counterIdle =>
    exact nested_single (Nat.le_of_ble_eq_true rfl)
  | sourceUpdate _ ih => exact ih
  | counterDisp hc _ ih =>
    refine .guarded (Nat.le_refl 1) ?_
    rw [base, hsys.rank_counter hc] at ih
    exact ih
  | saved | notExpired | startup | getVal | evalWait | evalControl | ifaceTask | written =>
    exact nested_single (Nat.zero_le _)
  | saveFailed | writeFailed => exact .append (nested_single (Nat.zero_le _)) (nested_single (Nat.zero_le _))
  | reset h ih => exact (nested_section hsys h ih).mono (Nat.zero_le _)
  | publishLocal _ _ ih => exact ih
  | publishValue _ _ _ ihdisp ih => exact .append (ihdisp.mono (Nat.zero_le _)) ih
  | evaluate _ _ ih => exact .append (Nested.flatMap fun _ _ => nested_single (Nat.zero_le _)) ih
  | evalDue _ ih => exact .append (nested_single (Nat.zero_le _)) ih

end Paths

theorem codePath_ordered {conf : Config} {sys : System} (h : LoadedSystem conf sys) (w : Wiring)
    (path : List (LockAct Lock)) (hpath : CodePath sys w path) : Ordered (rank sys) (fun _ => false) path := by
  obtain ⟨f, hf⟩ := hpath
  exact ((hf.nested h).mono (Nat.zero_le _)).path

/-- **No deadlock.** In an accepted configuration, whatever it links, no chain of "acquired while
held" leads back to its lock; so in no interleaving does a set of threads wait for itself. -/
theorem lock_order (conf : Config) (sys : System) (hload : load conf = some sys) (w : Wiring) :
    Acyclic (AcquiredWhile (CodePath sys w)) ∧
      ∀ (ι : Type) [DecidableEq ι] (acts : List (ThreadAct ι Lock)) (s : Threads ι Lock),
        Run Threads.step Threads.init acts s →
        Meets Threads.step (Threads.Runs (CodePath sys w)) Threads.init acts → ∀ D : Set ι, ¬ s.Deadlocked D := by
  have hordered := codePath_ordered (load_spec hload) w
  refine ⟨.of_rank fun _ _ h => h.rank_lt hordered, fun ι _ acts s hrun hacts D => ?_⟩
  exact Threads.run_not_deadlocked hordered (rank_le sys) hrun hacts D

/-- An input, a counter of it, and an eval that reads the counter. -/
def meteredConfig : Config where
  can := [{ inst := "can0", groups := [{ dir := .input, values := [{ title := "x" }] }] }]
  counters := [{ title := "c", source := some "x" }]
  evals := [{ title := "e", values := [{ title := "y", expr := some (.var "c") }] }]

def meteredSystem : System := (load meteredConfig).get (by rfl)

def meteredWiring : Wiring where
  frame := fun _ => 0
  master := fun _ => 0

/-- A dispatch of the input goes through the counter to the flag of the eval. -/
def meteredPath : List (LockAct Lock) :=
  guarded (.dispLock "x") (guarded (.lastLock "x") [] ++
    guarded (.counterLock 0) (guarded (.dispLock "c") (guarded (.lastLock "c") [] ++ guarded .lock [])))

theorem meteredPath_code : CodePath meteredSystem meteredWiring meteredPath := by
  have hx : (meteredSystem.dispatcher "x").valueCbs = [some (.counter 0)] := by rfl
  have hc : (meteredSystem.dispatcher "c").valueCbs = [some (.eval 0)] := by rfl
  obtain ⟨c, hcounter, hname⟩ : ∃ c, meteredSystem.counters[0]? = some c ∧ c.name = "c" := ⟨_, rfl, rfl⟩
  have hdisp : LockPath meteredSystem meteredWiring (.dispVal c.name (some (.counter 0)))
      (guarded (.dispLock "c") (guarded (.lastLock "c") [] ++ guarded .lock [])) := by
    rw [hname]
    refine .stored ?_
    rw [hc]
    exact .call (by decide) (.triggerUpdate 0) (.fired _)
  refine ⟨.dispVal "x" (some (.can 0)), .stored ?_⟩
  rw [hx]
  exact .call (by decide) (.sourceUpdate (.counterDisp hcounter hdisp)) (.fired _)

/-- Two threads dispatch the input, the second one waits. -/
def meteredActs : List (ThreadAct Bool Lock) :=
  [.start true meteredPath, .start false meteredPath, .next true]

def meteredEnd : Threads Bool Lock := (meteredActs.foldlM Threads.step Threads.init).get (by rfl)

theorem lock_order_example :
    AcquiredWhile (CodePath meteredSystem meteredWiring) (.dispLock "x") (.dispLock "c") ∧
      ¬ AcquiredWhile (CodePath meteredSystem meteredWiring) (.dispLock "c") (.dispLock "x") ∧
      meteredEnd.Waits false (.dispLock "x") ∧ ¬ meteredEnd.Deadlocked Set.univ := by
  obtain ⟨hacyclic, hruns⟩ :=
    lock_order meteredConfig meteredSystem (Option.some_get _).symm meteredWiring
  have hxc : AcquiredWhile (CodePath meteredSystem meteredWiring) (.dispLock "x") (.dispLock "c") :=
    ⟨meteredPath.take 4, meteredPath.drop 5, meteredPath_code, by decide⟩
  have hmeets : Meets Threads.step (Threads.Runs (CodePath meteredSystem meteredWiring)) Threads.init meteredActs :=
    ⟨meteredPath_code, fun _ _ => ⟨meteredPath_code, fun _ _ => ⟨trivial, fun _ _ => trivial⟩⟩⟩
  exact ⟨hxc, fun hcx => hacyclic _ (.tail (.single hxc) hcx), ⟨⟨_, rfl⟩, rfl⟩,
    hruns Bool meteredActs meteredEnd (Option.some_get _).symm hmeets Set.univ⟩

end Uvrgw.Conf
