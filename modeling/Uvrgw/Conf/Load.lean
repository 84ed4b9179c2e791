import Mathlib.Data.List.Enum
import Uvrgw.Conf.Registry
import Uvrgw.Counters.Code
import Uvrgw.Evals.Cycles
import Uvrgw.Sunspec.Code

/-!
# Loading a configuration (`uvrgw_conf_load`)

Of the CAN, Modbus, MQTT and JSON sections this keeps what concerns names. Their other settings have
checks that reject more configurations.
-/

namespace Uvrgw.Conf

open Uvrgw.Dispatch Uvrgw.Counters Uvrgw.Evals Uvrgw.Sunspec

/-! ## Sections -/

/-- `UVRGW_CONF_VAL_DIR_*`. -/
inductive Dir where
  | input
  | output
  deriving DecidableEq, Repr

/-- A `value` section, in what all modules share. -/
structure ValueConf where
  title : String
  initValue : Option Double := none
  staleTimeout : Option Int := none
  deriving DecidableEq, Repr

/-- A `frame` section of CAN or a `block` section of Modbus. -/
structure GroupConf where
  dir : Dir
  values : List ValueConf
  deriving DecidableEq, Repr

/-- A `can` section, or a `slave` section of a Modbus master. -/
structure BusConf where
  /-- The interface or the address that messages name. -/
  inst : String
  initValue : Double := .fin 0
  staleTimeout : Int := 0
  groups : List GroupConf
  deriving DecidableEq, Repr

structure MqttConf where
  host : String
  initValue : Double := .fin 0
  staleTimeout : Int := 0
  values : List (Dir × ValueConf)
  /-- The value names of each logger. -/
  loggers : List (List String) := []
  deriving DecidableEq, Repr

structure JsonConf where
  url : String
  initValue : Double := .fin 0
  staleTimeout : Int := 0
  values : List ValueConf
  deriving DecidableEq, Repr

structure Config where
  can : List BusConf := []
  /-- The slaves of all masters. -/
  modbusRtu : List BusConf := []
  modbusTcp : List BusConf := []
  mqtt : List MqttConf := []
  json : List JsonConf := []
  /-- The meters of each server. -/
  sunspec : List (List Meter) := []
  counters : List CounterConf := []
  evals : List EvalConf := []

/-- The addresses of the value objects. -/
inductive Val where
  | can (i : Nat)
  | modbusRtu (i : Nat)
  | modbusTcp (i : Nat)
  | mqtt (conn i : Nat)
  | json (i : Nat)
  | counter (i : Nat)
  | eval (i : Nat)
  deriving DecidableEq, Repr

/-! ## Inputs and outputs -/

/-- A value of an input or output module with all that its registration uses. -/
structure Link where
  title : String
  dir : Dir
  inst : String
  initValue : Double
  staleTimeout : Int
  deriving DecidableEq, Repr

/-- The value setting, else the section setting. -/
def ValueConf.link (v : ValueConf) (dir : Dir) (inst : String) (initValue : Double) (staleTimeout : Int) :
    Link where
  title := v.title
  dir := dir
  inst := inst
  initValue := v.initValue.getD initValue
  staleTimeout := v.staleTimeout.getD staleTimeout

def busLinks (buses : List BusConf) : List Link :=
  buses.flatMap fun b => b.groups.flatMap fun g =>
    g.values.map (·.link g.dir b.inst b.initValue b.staleTimeout)

def mqttLinks (c : MqttConf) : List Link :=
  c.values.map fun v => v.2.link v.1 c.host c.initValue c.staleTimeout

def jsonLinks (conns : List JsonConf) : List Link :=
  conns.flatMap fun c => c.values.map (·.link .input c.url c.initValue c.staleTimeout)

/-- The calls at the end of each `value_configure`. -/
def Link.registrations (module : String) (l : Link) (val : Val) : List (Registration Val) :=
  .get l.title (l.dir = .output) ::
    if l.dir = .input then [.produce l.title module l.inst val true l.initValue l.staleTimeout] else []

def linkRegistrations (module : String) (mk : Nat → Val) (links : List Link) : List (Registration Val) :=
  links.zipIdx.flatMap fun x => x.1.registrations module (mk x.2)

/-- `can_register_disp_cbs` and its siblings. -/
def linkCbs (mk : Nat → Val) (links : List Link) : List (String × Val) :=
  links.zipIdx.filterMap fun x => if x.1.dir = .output then some (x.1.title, mk x.2) else none

/-! ## The other modules -/

/-- `conn_configure` of MQTT, with its loggers. -/
def mqttRegistrations (conns : List MqttConf) : List (Registration Val) :=
  conns.zipIdx.flatMap fun x =>
    linkRegistrations "mqtt" (.mqtt x.2) (mqttLinks x.1) ++ x.1.loggers.flatten.map (.get · false)

def mqttCbs (conns : List MqttConf) : List (String × Val) :=
  conns.zipIdx.flatMap fun x => linkCbs (.mqtt x.2) (mqttLinks x.1)

/-- `src_configure`. -/
def srcRegistrations (meter name : String) (power : Bool) : List (Registration Val) :=
  .get name false :: if power then [.needTimeout name "sunspec meter" meter] else []

def meterRegistrations (m : Meter) : List (Registration Val) :=
  Src.all.flatMap fun s => ((m.src s).map fun name => srcRegistrations m.name name s.isPower).getD []

def counterRegistrations (c : Counter) (val : Val) : List (Registration Val) :=
  [.get c.source true, .get c.name false, .produce c.name "counter" c.name val false (.fin 0) 0] ++
    if c.integratePower then [.needTimeout c.source "counter" c.name] else []

def counterCbs (counters : List Counter) : List (String × Val) :=
  counters.zipIdx.map fun x => (x.1.source, .counter x.2)

/-- The registrations of the first pass of `eval_configure`. -/
def evalRegistrations (e : Eval) (val : Val) : List (Registration Val) :=
  e.values.flatMap fun v =>
    if v.isLocal then []
    else [.get v.name false, .produce v.name "eval" e.name val false v.initValue 0]

/-- The registrations of `setup_triggers`. -/
def triggerRegistrations (evals : List Eval) : List (Registration Val) :=
  evals.flatMap fun e => e.triggers.map (.get · true)

def evalCbs (evals : List Eval) : List (String × Val) :=
  evals.zipIdx.flatMap fun x => x.1.triggers.map (·, .eval x.2)

/-! ## All of it -/

/-- `server_configure`, as far as its meters go. -/
def serverConfigure (meters : List Meter) : Bool :=
  meters.all meterConfigure && decide (meters.map (·.unitId)).Nodup

/-- What the modules register before pass 2 of `eval_configure`. -/
def Config.registrations (conf : Config) (counters : List Counter) (evals : List Eval) :
    List (Registration Val) :=
  linkRegistrations "can" .can (busLinks conf.can) ++
  linkRegistrations "modbus_rtu" .modbusRtu (busLinks conf.modbusRtu) ++
  linkRegistrations "modbus_tcp" .modbusTcp (busLinks conf.modbusTcp) ++
  mqttRegistrations conf.mqtt ++
  linkRegistrations "json" .json (jsonLinks conf.json) ++
  conf.sunspec.flatten.flatMap meterRegistrations ++
  counters.zipIdx.flatMap (fun x => counterRegistrations x.1 (.counter x.2)) ++
  evals.zipIdx.flatMap fun x => evalRegistrations x.1 (.eval x.2)

def Config.callbacks (conf : Config) (counters : List Counter) (evals : List Eval) : List (String × Val) :=
  linkCbs .can (busLinks conf.can) ++
  linkCbs .modbusRtu (busLinks conf.modbusRtu) ++
  linkCbs .modbusTcp (busLinks conf.modbusTcp) ++
  mqttCbs conf.mqtt ++
  counterCbs counters ++
  evalCbs evals

/-- What `uvrgw_conf_load` leaves behind. -/
structure System where
  disp : List (Dispatcher Val)
  counters : List Counter
  evals : List Eval
  meters : List Meter

/-- `uvrgw_conf_load`, after the parser. -/
def load (conf : Config) : Option System := do
  guard (conf.sunspec.all serverConfigure)
  let counters ← counterConfigure conf.counters
  let evals₁ ← conf.evals.mapM evalConfigureOne
  let disp₁ ← registerAll [] (conf.registrations counters evals₁)
  let names := disp₁.map (·.name)
  let evals ← (evals₁.zip conf.evals).mapM fun x => evalConfigureTwo names x.1 x.2.triggers
  let disp₂ ← registerAll disp₁ (triggerRegistrations evals)
  guard (checkCycles evals).isOk
  guard (checkDispatchers disp₂)
  let disp ← registerCbs (initDispatcher disp₂) (conf.callbacks counters evals)
  return { disp := disp, counters := counters, evals := evals, meters := conf.sunspec.flatten }

/-! ## Who produces a name and who gets it -/

def Produces (conf : Config) (counters : List Counter) (evals : List Eval) (name : String) : Val → Prop
  | .can i => ∃ l, (busLinks conf.can)[i]? = some l ∧ l.dir = .input
  | .modbusRtu i => ∃ l, (busLinks conf.modbusRtu)[i]? = some l ∧ l.dir = .input
  | .modbusTcp i => ∃ l, (busLinks conf.modbusTcp)[i]? = some l ∧ l.dir = .input
  | .mqtt n i => ∃ c l, conf.mqtt[n]? = some c ∧ (mqttLinks c)[i]? = some l ∧ l.dir = .input
  | .json _ => True
  | .counter i => ∃ c, counters[i]? = some c ∧ c.name = name
  | .eval i => ∃ e, evals[i]? = some e ∧ ∃ v ∈ e.values, v.name = name

def Listens (conf : Config) (counters : List Counter) (evals : List Eval) (name : String) : Val → Prop
  | .can i => ∃ l, (busLinks conf.can)[i]? = some l ∧ l.dir = .output ∧ l.title = name
  | .modbusRtu i => ∃ l, (busLinks conf.modbusRtu)[i]? = some l ∧ l.dir = .output ∧ l.title = name
  | .modbusTcp i => ∃ l, (busLinks conf.modbusTcp)[i]? = some l ∧ l.dir = .output ∧ l.title = name
  | .mqtt n i => ∃ c l, conf.mqtt[n]? = some c ∧ (mqttLinks c)[i]? = some l ∧ l.dir = .output ∧ l.title = name
  | .json _ => False
  | .counter i => ∃ c, counters[i]? = some c ∧ c.source = name
  | .eval i => ∃ e, evals[i]? = some e ∧ name ∈ e.triggers

section Members

variable {name m inst : String} {val : Val} {b : Bool} {d : Double} {t : Int}

theorem produce_mem_links {module : String} {mk : Nat → Val} {links : List Link}
    (h : .produce name m inst val b d t ∈ linkRegistrations module mk links) :
    ∃ i l, val = mk i ∧ links[i]? = some l ∧ l.dir = .input := by
  obtain ⟨⟨l, i⟩, hx, hmem⟩ := List.mem_flatMap.mp h
  rw [List.mk_mem_zipIdx_iff_getElem?] at hx
  simp only [Link.registrations, List.mem_cons, reduceCtorEq, false_or] at hmem
  split at hmem
  · rename_i hdir
    simp only [List.mem_singleton, Registration.produce.injEq] at hmem
    exact ⟨i, l, hmem.2.2.2.1, hx, hdir⟩
  · cases hmem

theorem mem_linkCbs {mk : Nat → Val} {links : List Link} :
    (name, val) ∈ linkCbs mk links ↔
      ∃ i l, val = mk i ∧ links[i]? = some l ∧ l.dir = .output ∧ l.title = name := by
  simp only [linkCbs, List.mem_filterMap, Option.ite_none_right_eq_some, Option.some.injEq,
    Prod.mk.injEq]
  constructor
  · rintro ⟨⟨l, i⟩, hx, hdir, rfl, rfl⟩
    exact ⟨i, l, rfl, List.mk_mem_zipIdx_iff_getElem?.mp hx, hdir, rfl⟩
  · rintro ⟨i, l, rfl, hx, hdir, rfl⟩
    exact ⟨(l, i), List.mk_mem_zipIdx_iff_getElem?.mpr hx, hdir, rfl, rfl⟩

theorem produce_not_mem_meter (meter : Meter) :
    .produce name m inst val b d t ∉ meterRegistrations meter := by
  intro h
  obtain ⟨s, -, hmem⟩ := List.mem_flatMap.mp h
  cases hs : meter.src s with
  | none => simp [hs] at hmem
  | some n =>
    simp only [hs, Option.map_some, Option.getD_some, srcRegistrations, List.mem_cons, reduceCtorEq,
      false_or] at hmem
    split at hmem <;> simp at hmem

theorem produce_mem_counter {c : Counter} {v : Val}
    (h : .produce name m inst val b d t ∈ counterRegistrations c v) : val = v ∧ c.name = name := by
  simp only [counterRegistrations, List.mem_append, List.mem_cons, reduceCtorEq,
    Registration.produce.injEq, List.not_mem_nil, or_false, false_or] at h
  rcases h with ⟨rfl, -, -, rfl, -⟩ | h
  · exact ⟨rfl, rfl⟩
  · split at h <;> simp at h

theorem produce_mem_eval {e : Eval} {v : Val} (h : .produce name m inst val b d t ∈ evalRegistrations e v) :
    val = v ∧ ∃ x ∈ e.values, x.name = name := by
  obtain ⟨x, hx, hmem⟩ := List.mem_flatMap.mp h
  split at hmem
  · cases hmem
  · simp only [List.mem_cons, reduceCtorEq, Registration.produce.injEq, List.not_mem_nil, or_false,
      false_or] at hmem
    exact ⟨hmem.2.2.2.1, x, hx, hmem.1.symm⟩

theorem produces_of_mem {conf : Config} {counters : List Counter} {evals : List Eval}
    (h : .produce name m inst val b d t ∈ conf.registrations counters evals) :
    Produces conf counters evals name val := by
  simp only [Config.registrations, List.mem_append, or_assoc] at h
  rcases h with h | h | h | h | h | h | h | h
  · obtain ⟨i, l, rfl, hl⟩ := produce_mem_links h
    exact ⟨l, hl⟩
  · obtain ⟨i, l, rfl, hl⟩ := produce_mem_links h
    exact ⟨l, hl⟩
  · obtain ⟨i, l, rfl, hl⟩ := produce_mem_links h
    exact ⟨l, hl⟩
  · obtain ⟨⟨c, n⟩, hc, hmem⟩ := List.mem_flatMap.mp h
    rcases List.mem_append.mp hmem with hmem | hmem
    · obtain ⟨i, l, rfl, hl⟩ := produce_mem_links hmem
      exact ⟨c, l, List.mk_mem_zipIdx_iff_getElem?.mp hc, hl⟩
    · simp at hmem
  · obtain ⟨i, l, rfl, -⟩ := produce_mem_links h
    trivial
  · obtain ⟨meter, -, hmem⟩ := List.mem_flatMap.mp h
    exact absurd hmem (produce_not_mem_meter meter)
  · obtain ⟨⟨c, i⟩, hc, hmem⟩ := List.mem_flatMap.mp h
    obtain ⟨rfl, hn⟩ := produce_mem_counter hmem
    exact ⟨c, List.mk_mem_zipIdx_iff_getElem?.mp hc, hn⟩
  · obtain ⟨⟨e, i⟩, he, hmem⟩ := List.mem_flatMap.mp h
    obtain ⟨rfl, hn⟩ := produce_mem_eval hmem
    exact ⟨e, List.mk_mem_zipIdx_iff_getElem?.mp he, hn⟩

theorem mem_callbacks {conf : Config} {counters : List Counter} {evals : List Eval} :
    (name, val) ∈ conf.callbacks counters evals ↔ Listens conf counters evals name val := by
  simp only [Config.callbacks, List.mem_append, mem_linkCbs, mqttCbs, counterCbs, evalCbs,
    List.mem_flatMap, List.mem_map, Prod.exists, Prod.mk.injEq, List.mk_mem_zipIdx_iff_getElem?]
  cases val <;> simp [Listens, and_assoc]

theorem needTimeout_mem_counter {conf : Config} {counters : List Counter} {evals : List Eval} {c : Counter}
    (hc : c ∈ counters) (hp : c.integratePower = true) :
    .needTimeout c.source "counter" c.name ∈ conf.registrations counters evals := by
  simp only [Config.registrations, List.mem_append]
  refine .inl (.inr (List.mem_flatMap.mpr ?_))
  obtain ⟨i, hi⟩ := List.mem_iff_getElem?.mp hc
  exact ⟨(c, i), List.mk_mem_zipIdx_iff_getElem?.mpr hi, by simp [counterRegistrations, hp]⟩

theorem needTimeout_mem_meter {conf : Config} {counters : List Counter} {evals : List Eval} {meter : Meter}
    (hm : meter ∈ conf.sunspec.flatten) {s : Src} (hs : meter.src s = some name) (hp : s.isPower = true) :
    .needTimeout name "sunspec meter" meter.name ∈ conf.registrations counters evals := by
  simp only [Config.registrations, List.mem_append]
  refine .inl (.inl (.inr (List.mem_flatMap.mpr ⟨meter, hm, List.mem_flatMap.mpr ⟨s, s.mem_all, ?_⟩⟩)))
  simp [hs, srcRegistrations, hp]

end Members

/-! ## What an accepted configuration guarantees -/

theorem registerAll_append (disp : List (Dispatcher Val)) (rs₁ rs₂ : List (Registration Val)) :
    registerAll disp (rs₁ ++ rs₂) = (registerAll disp rs₁).bind (registerAll · rs₂) := by
  simp [registerAll, List.foldlM_append]

/-- A callback is never one of the producer of its name. -/
theorem listens_ne_produces {conf : Config} {counters : List Counter} {evals₁ evals : List Eval} {name : String}
    {v val : Val} (hcounters : ∀ c ∈ counters, c.name ≠ c.source)
    (hevals : ∀ (i : Nat) (e₁ e : Eval), evals₁[i]? = some e₁ → evals[i]? = some e →
      ∀ n ∈ e.triggers, n ∉ e₁.values.map (·.name))
    (hl : Listens conf counters evals name v) (hp : Produces conf counters evals₁ name val) : v ≠ val := by
  rintro rfl
  cases v with
  | can i | modbusRtu i | modbusTcp i =>
    obtain ⟨l, hi, hout, -⟩ := hl
    obtain ⟨l', hi', hin⟩ := hp
    rw [Option.some.inj (hi.symm.trans hi'), hin] at hout
    cases hout
  | mqtt n i =>
    obtain ⟨c, l, hc, hi, hout, -⟩ := hl
    obtain ⟨c', l', hc', hi', hin⟩ := hp
    obtain rfl := Option.some.inj (hc.symm.trans hc')
    rw [Option.some.inj (hi.symm.trans hi'), hin] at hout
    cases hout
  | json i => exact hl
  | counter i =>
    obtain ⟨c, hc, hsource⟩ := hl
    obtain ⟨c', hc', hname⟩ := hp
    obtain rfl := Option.some.inj (hc.symm.trans hc')
    exact hcounters c (List.mem_of_getElem? hc) (hname.trans hsource.symm)
  | eval i =>
    obtain ⟨e, he, htrig⟩ := hl
    obtain ⟨e₁, he₁, x, hx, hname⟩ := hp
    exact hevals i e₁ e he₁ he name htrig (List.mem_map.mpr ⟨x, hx, hname⟩)

/-- A dispatcher of an accepted configuration. -/
structure Loaded (conf : Config) (sys : System) (dp : Dispatcher Val) : Prop where
  /-- As startup finds it. -/
  fresh : dp.deadline = 0 ∧ dp.timedOut = false ∧ dp.received = false ∧ dp.valid = false ∧
    dp.lastValue = dp.initValue
  finite : dp.initValue.isfinite = true
  timeout : 0 ≤ dp.staleTimeout
  cbs : ∀ v, some v ∈ dp.valueCbs ↔ Listens conf sys.counters sys.evals dp.name v
  others : ∀ v, some v ∈ dp.valueCbs → some v ≠ dp.producerVal
  counter : ∀ c ∈ sys.counters, c.source = dp.name → c.integratePower = true → dp.producerInput = true →
    0 < dp.staleTimeout
  meter : ∀ m ∈ sys.meters, ∀ s : Src, m.src s = some dp.name → s.isPower = true → dp.producerInput = true →
    0 < dp.staleTimeout

theorem counterConfigure_spec {cfgs : List CounterConf} {counters : List Counter}
    (h : counterConfigure cfgs = some counters) :
    ∀ c ∈ counters, (c.name ≠ c.source ∧ c.hasPower = false) ∧ ∀ d ∈ counters, c.source ≠ d.name := by
  intro c hc
  obtain ⟨cfg, -, hcfg⟩ := mem_counterConfigure h hc
  simp only [counterConfigure, Option.pure_def, Option.bind_eq_bind, Option.bind_eq_some_iff,
    Option.guard_eq_some', Option.some.injEq] at h
  obtain ⟨cs, hcs, -, hchain, rfl⟩ := h
  have hc' := counterConfigureOne_spec hcfg
  refine ⟨⟨hc'.names, hc'.power⟩, fun d hd heq => ?_⟩
  have hall := List.all_eq_true.mp hchain c hc
  simp only [findCounter, Option.isNone_iff_eq_none, List.find?_eq_none, decide_eq_true_eq] at hall
  exact hall d hd heq.symm

theorem register_names {disp disp' : List (Dispatcher Val)} {rs : List (Registration Val)}
    (h : registerAll disp rs = some disp') : disp.map (·.name) ⊆ disp'.map (·.name) := by
  have hstep (dp dp' : List (Dispatcher Val)) (r : Registration Val) (hr : register dp r = some dp') :
      dp.map (·.name) ⊆ dp'.map (·.name) := by
    cases r with
    | get name allocCb =>
      cases hr
      rw [getDispatcher_names]
      split
      · exact fun _ => id
      · exact List.subset_append_left ..
    | produce name module inst val input init timeout =>
      rw [(onDispatcher_spec (fun _ _ => setProducer_name) hr).2.1]
      exact fun _ => id
    | needTimeout name module inst =>
      rw [(onDispatcher_spec (fun dp _ hd => Option.some.inj hd ▸ needTimeout_name dp module inst) hr).2.1]
      exact fun _ => id
  exact registerAll_keeps (P := fun _ dp => disp.map (·.name) ⊆ dp.map (·.name))
    (fun _ dp r dp' hdp hr => List.Subset.trans hdp (hstep dp dp' r hr)) [] (List.Subset.refl _) h

structure LoadedSystem (conf : Config) (sys : System) : Prop where
  nodup : (sys.disp.map (·.name)).Nodup
  entry : ∀ dp ∈ sys.disp, Loaded conf sys dp
  /-- Callbacks are registered for names that exist. -/
  listed : ∀ name v, Listens conf sys.counters sys.evals name v → name ∈ sys.disp.map (·.name)
  counters : ∀ c ∈ sys.counters, (c.name ≠ c.source ∧ c.hasPower = false) ∧ ∀ d ∈ sys.counters, c.source ≠ d.name
  evals : ∀ (i : Nat) (e : Eval), sys.evals[i]? = some e → ∃ names e₁, Configured names e₁ e ∧
    names ⊆ sys.disp.map (·.name)

theorem evals_configured {cfgs : List EvalConf} {names : List String} {evals₁ evals : List Eval}
    (h₁ : cfgs.mapM evalConfigureOne = some evals₁)
    (h₂ : (evals₁.zip cfgs).mapM (fun x => evalConfigureTwo names x.1 x.2.triggers) = some evals)
    {i : Nat} {e : Eval} (hi : evals[i]? = some e) : ∃ e₁, evals₁[i]? = some e₁ ∧ Configured names e₁ e := by
  obtain ⟨⟨e₁, cfg⟩, hx, hconf⟩ := Lib.getElem?_mapM h₂ hi
  obtain ⟨he₁, -⟩ := List.getElem?_zip_eq_some.mp hx
  obtain ⟨cfg', -, hone⟩ := Lib.getElem?_mapM h₁ he₁
  exact ⟨e₁, he₁, configured hone hconf⟩

theorem load_steps {conf : Config} {sys : System} (h : load conf = some sys) :
    ∃ evals₁ disp₁ disp₂, counterConfigure conf.counters = some sys.counters ∧
      conf.evals.mapM evalConfigureOne = some evals₁ ∧
      registerAll [] (conf.registrations sys.counters evals₁) = some disp₁ ∧
      (evals₁.zip conf.evals).mapM (fun x => evalConfigureTwo (disp₁.map (·.name)) x.1 x.2.triggers) =
        some sys.evals ∧
      registerAll disp₁ (triggerRegistrations sys.evals) = some disp₂ ∧
      (checkCycles sys.evals).isOk = true ∧ checkDispatchers disp₂ = true ∧
      registerCbs (initDispatcher disp₂) (conf.callbacks sys.counters sys.evals) = some sys.disp ∧
      sys.meters = conf.sunspec.flatten := by
  simp only [load, Option.pure_def, Option.bind_eq_bind, Option.bind_eq_some_iff, Option.guard_eq_some',
    Option.some.injEq] at h
  obtain ⟨-, -, counters, hcounters, evals₁, hevals₁, disp₁, hdisp₁, evals, hevals, disp₂, hdisp₂, -, hcycles, -,
    hcheck, disp, hdisp, rfl⟩ := h
  exact ⟨evals₁, disp₁, disp₂, hcounters, hevals₁, hdisp₁, hevals, hdisp₂, hcycles, hcheck, hdisp, rfl⟩

theorem load_spec {conf : Config} {sys : System} (h : load conf = some sys) : LoadedSystem conf sys := by
  obtain ⟨evals₁, disp₁, disp₂, hcounters, hevals₁, hdisp₁, hevals, hdisp₂, -, hcheck, hdisp, hmeters⟩ := load_steps h
  have hrs : registerAll [] (conf.registrations sys.counters evals₁ ++ triggerRegistrations sys.evals) =
      some disp₂ := by
    rw [registerAll_append, hdisp₁]
    exact hdisp₂
  obtain ⟨hsame, hnodup, -, hlisted, hentry⟩ := accepted hrs hcheck hdisp
  have hcs := counterConfigure_spec hcounters
  refine
    { nodup := hnodup
      entry := fun dp hdp => ?_
      listed := fun name v hl => hlisted (name, v) (mem_callbacks.mpr hl)
      counters := hcs
      evals := fun i e hi => ?_ }
  · have ha := hentry dp hdp
    have hcbs : ∀ v, some v ∈ dp.valueCbs ↔ Listens conf sys.counters sys.evals dp.name v := fun v =>
      (ha.mem_valueCbs v).trans mem_callbacks
    refine ⟨ha.fresh, ha.finite, ha.timeout, hcbs, fun v hv heq => ?_, fun c hc hs hp hin => ?_,
      fun m hm s hs hp hin => ?_⟩
    · obtain ⟨module, inst, val, hval, hprod⟩ := ha.produced
      have hprod := produces_of_mem ((List.mem_append.mp hprod).resolve_right (by simp [triggerRegistrations]))
      refine listens_ne_produces (fun c hc => (hcs c hc).1.1) (fun i e₁ e hi₁ hi n hn => ?_)
        ((hcbs v).mp hv) hprod (Option.some.inj (heq.trans hval))
      obtain ⟨e₁', hi₁', hconf⟩ := evals_configured hevals₁ hevals hi
      obtain rfl := Option.some.inj (hi₁.symm.trans hi₁')
      have hn := findValue_isNone.mp (hconf.foreign n hn).1
      rwa [hconf.names] at hn
    · exact ha.needed _ _ (List.mem_append_left _ (hs ▸ needTimeout_mem_counter hc hp)) hin
    · exact ha.needed _ _ (List.mem_append_left _ (needTimeout_mem_meter (hmeters ▸ hm) hs hp)) hin
  · obtain ⟨e₁, -, hconf⟩ := evals_configured hevals₁ hevals hi
    exact ⟨_, e₁, hconf, hsame ▸ register_names hdisp₂⟩

/-! ## Who publishes and who is triggered -/

theorem valueConfigure_disp {cfg : EvalValConf} {v : EvalVal} (h : valueConfigure cfg = some v) :
    v.disp = if v.isLocal then none else some v.name := by
  simp only [valueConfigure, Option.pure_def, Option.bind_eq_bind, Option.bind_eq_some_iff] at h
  obtain ⟨-, -, -, -, expr, -, -, -, h⟩ := h
  cases h
  rfl

theorem produce_mem_publishes {conf : Config} {counters : List Counter} {names : List String}
    {evals₁ evals : List Eval} (h₁ : conf.evals.mapM evalConfigureOne = some evals₁)
    (h₂ : (evals₁.zip conf.evals).mapM (fun x => evalConfigureTwo names x.1 x.2.triggers) = some evals)
    {a : Nat} {name : String} (h : Publishes evals a name) :
    ∃ inst init, .produce name "eval" inst (.eval a) false init 0 ∈ conf.registrations counters evals₁ := by
  obtain ⟨e, he, v, hv, hd⟩ := h
  obtain ⟨e₁, he₁, hconf⟩ := evals_configured h₁ h₂ he
  have hmem : (v.name, v.disp, v.isLocal, v.initValue) ∈
      e₁.values.map fun v => (v.name, v.disp, v.isLocal, v.initValue) :=
    hconf.values ▸ List.mem_map.mpr ⟨v, hv, rfl⟩
  obtain ⟨w, hw, heq⟩ := List.mem_map.mp hmem
  simp only [Prod.mk.injEq] at heq
  obtain ⟨cfg, -, hone⟩ := Lib.getElem?_mapM h₁ he₁
  simp only [evalConfigureOne, Option.pure_def, Option.bind_eq_bind, Option.bind_eq_some_iff] at hone
  obtain ⟨-, -, -, -, vs, hvs, -, -, hone⟩ := hone
  cases hone
  obtain ⟨vcfg, -, hvcfg⟩ := Lib.mem_of_mapM hvs hw
  have hwd := valueConfigure_disp hvcfg
  rw [heq.2.1, hd] at hwd
  split at hwd
  · cases hwd
  rename_i hlocal
  obtain rfl := Option.some.inj hwd
  refine ⟨cfg.title, w.initValue, ?_⟩
  simp only [Config.registrations, List.mem_append]
  refine .inr (List.mem_flatMap.mpr ⟨(_, a), List.mk_mem_zipIdx_iff_getElem?.mpr he₁, ?_⟩)
  exact List.mem_flatMap.mpr ⟨w, hw, by rw [if_neg hlocal]; simp⟩

/-- What `uvrgw_conf_set_producer` accepted has one eval for each published name. -/
theorem registered_oneProducer {conf : Config} {counters : List Counter} {names : List String}
    {evals₁ evals : List Eval} {disp : List (Dispatcher Val)}
    (h₁ : conf.evals.mapM evalConfigureOne = some evals₁)
    (h₂ : (evals₁.zip conf.evals).mapM (fun x => evalConfigureTwo names x.1 x.2.triggers) = some evals)
    (hdisp : registerAll [] (conf.registrations counters evals₁) = some disp) : OneProducer evals := by
  intro name a b ha hb
  have hreg := RegistryOf.nil.registerAll hdisp
  rw [List.nil_append] at hreg
  obtain ⟨ia, ta, hma⟩ := produce_mem_publishes h₁ h₂ ha
  obtain ⟨ib, tb, hmb⟩ := produce_mem_publishes h₁ h₂ hb
  obtain ⟨dp, hdp, rfl⟩ := List.mem_map.mp (hreg.names _ hma)
  have hpa := ((hreg.entry dp hdp).producer _ _ _ _ _ _ hma).1
  have hpb := ((hreg.entry dp hdp).producer _ _ _ _ _ _ hmb).1
  exact Val.eval.inj (Option.some.inj (hpa.symm.trans hpb))

theorem load_acyclic {conf : Config} {sys : System} (h : load conf = some sys) :
    OneProducer sys.evals ∧ Lib.Acyclic (Triggers sys.evals) := by
  obtain ⟨evals₁, disp₁, disp₂, -, hevals₁, hdisp₁, hevals, -, hcycles, -⟩ := load_steps h
  have hone := registered_oneProducer hevals₁ hevals hdisp₁
  exact ⟨hone, (checkCycles_isOk hone).mp hcycles⟩

end Uvrgw.Conf
