import Uvrgw.Conf.Acceptance
import Uvrgw.Conf.Load

/-!
# The callback slots of a configuration (`uvrgw_conf.c`)

`uvrgw_conf_get_dispatcher` reserves slots while the modules are configured, `uvrgw_conf_register_disp_cb` fills
them afterwards.
-/

namespace Uvrgw.Conf

open Uvrgw.Lib Uvrgw.Dispatch Uvrgw.Counters Uvrgw.Evals Uvrgw.Sunspec

/-! ## Reserved slots -/

section Registry

variable {V : Type}

def Registration.reserves (name : String) : Registration V → Bool
  | .get n allocCb => n = name && allocCb
  | _ => false

/-- The calls of `uvrgw_conf_get_dispatcher` for a name with `alloc_cb`. -/
def reserved (name : String) (rs : List (Registration V)) : Nat := rs.countP (·.reserves name)

@[simp] theorem reserved_nil (name : String) : reserved name ([] : List (Registration V)) = 0 := rfl

theorem reserved_cons (name : String) (r : Registration V) (rs : List (Registration V)) :
    reserved name (r :: rs) = reserved name rs + if r.reserves name then 1 else 0 := by
  unfold reserved
  rw [List.countP_cons]

@[simp] theorem reserved_append (name : String) (rs₁ rs₂ : List (Registration V)) :
    reserved name (rs₁ ++ rs₂) = reserved name rs₁ + reserved name rs₂ := List.countP_append

theorem reserved_eq_zero {name : String} {rs : List (Registration V)} :
    reserved name rs = 0 ↔ .get name true ∉ rs := by
  unfold reserved
  rw [List.countP_eq_zero]
  constructor
  · exact fun h hm => h _ hm (by simp [Registration.reserves])
  · intro h r hr hres
    cases r with
    | get n b =>
      simp only [Registration.reserves, Bool.and_eq_true, decide_eq_true_eq] at hres
      obtain ⟨rfl, rfl⟩ := hres
      exact h hr
    | produce | needTimeout => cases hres

theorem getDispatcher_count {disp : List (Dispatcher V)} {name : String} {allocCb : Bool} {dp : Dispatcher V}
    (h : dp ∈ getDispatcher disp name allocCb) :
    ∃ dq, (dq ∈ disp ∨ dq = { name := name } ∧ name ∉ disp.map (·.name)) ∧ dp.name = dq.name ∧
      dp.valueCount = dq.valueCount + if (Registration.get (V := V) name allocCb).reserves dp.name then 1 else 0 := by
  obtain ⟨dq, hdq, rfl⟩ := List.mem_map.mp h
  refine ⟨dq, ?_, ?_, ?_⟩
  · split at hdq
    · exact .inl hdq
    · rename_i hany
      rcases List.mem_append.mp hdq with hdq | hdq
      · exact .inl hdq
      · refine .inr ⟨List.mem_singleton.mp hdq, fun hmem => hany ?_⟩
        obtain ⟨dr, hdr, hn⟩ := List.mem_map.mp hmem
        exact List.any_eq_true.mpr ⟨dr, hdr, by simpa using hn⟩
  · split <;> rfl
  · by_cases hn : dq.name = name
    · cases allocCb <;> simp [Registration.reserves, hn]
    · have hn' : name ≠ dq.name := fun heq => hn heq.symm
      simp [Registration.reserves, hn, hn']

theorem setProducer_count {dp dp' : Dispatcher V} {module inst : String} {val : V} {input : Bool} {init : Double}
    {timeout : Int} (h : setProducer dp module inst val input init timeout = some dp') :
    dp'.valueCount = dp.valueCount := by
  unfold setProducer at h
  split_ifs at h
  cases h
  rfl

theorem needTimeout_count (dp : Dispatcher V) (module inst : String) :
    (needTimeout dp module inst).valueCount = dp.valueCount := by
  unfold needTimeout
  split <;> rfl

/-- The list after the registrations `rs`, with the slots that they reserve. -/
structure Reserved (rs : List (Registration V)) (disp : List (Dispatcher V)) : Prop where
  registry : RegistryOf rs disp
  count : ∀ dp ∈ disp, dp.valueCount = reserved dp.name rs

theorem Reserved.on {rs : List (Registration V)} {disp disp' : List (Dispatcher V)} (h : Reserved rs disp)
    {r : Registration V} {name : String} {f : Dispatcher V → Option (Dispatcher V)}
    (hf : ∀ dp dp', f dp = some dp' → dp'.name = dp.name ∧ dp'.valueCount = dp.valueCount)
    (hr : ∀ name, r.reserves name = false) (hon : onDispatcher name f disp = some disp') :
    ∀ dp ∈ disp', dp.valueCount = reserved dp.name (rs ++ [r]) := by
  intro dp hdp
  obtain ⟨-, -, hmem⟩ := onDispatcher_spec (fun dp dp' hd => (hf dp dp' hd).1) hon
  obtain ⟨dq, hdq, hn, hyes, hno⟩ := hmem dp hdp
  have hcount : dp.valueCount = dq.valueCount := by
    by_cases hq : dq.name = name
    · exact (hf dq dp (hyes hq)).2
    · rw [hno hq]
  rw [hcount, h.count dq hdq, hn, reserved_append, reserved_cons, hr]
  simp

theorem Reserved.register {rs : List (Registration V)} {disp disp' : List (Dispatcher V)} (h : Reserved rs disp)
    {r : Registration V} (hr : register disp r = some disp') : Reserved (rs ++ [r]) disp' where
  registry := h.registry.register r hr
  count := by
    cases r with
    | get name allocCb =>
      cases hr
      intro dp hdp
      obtain ⟨dq, hdq, hn, hcount⟩ := getDispatcher_count hdp
      have hold : dq.valueCount = reserved dq.name rs := by
        rcases hdq with hdq | ⟨rfl, hnew⟩
        · exact h.count dq hdq
        · exact (reserved_eq_zero.mpr fun hm => hnew (h.registry.names _ hm)).symm
      rw [hcount, hold, hn, reserved_append, reserved_cons, reserved_nil, Nat.zero_add]
    | produce name module inst val input init timeout =>
      exact h.on (fun _ _ hd => ⟨setProducer_name hd, setProducer_count hd⟩) (fun _ => rfl) hr
    | needTimeout name module inst =>
      refine h.on (fun dp dp' hd => ?_) (fun _ => rfl) hr
      cases hd
      exact ⟨needTimeout_name dp module inst, needTimeout_count dp module inst⟩

theorem Reserved.registerAll {done rs : List (Registration V)} {disp disp' : List (Dispatcher V)}
    (h : Reserved done disp) (hr : registerAll disp rs = some disp') : Reserved (done ++ rs) disp' :=
  registerAll_keeps (fun _ _ _ _ h => h.register) done h hr

/-! ## Filled slots -/

theorem cbsOf_append (name : String) (cbs₁ cbs₂ : List (String × V)) :
    cbsOf name (cbs₁ ++ cbs₂) = cbsOf name cbs₁ ++ cbsOf name cbs₂ := List.filterMap_append

theorem Slots.register_isSome {vs : List V} {dp : Dispatcher V} (h : Slots vs dp) (hlt : vs.length < dp.valueCount)
    (v : V) : (registerDispCb dp v).isSome = true := by
  unfold registerDispCb
  rw [if_neg (by rw [h.pos]; omega)]
  rfl

/-- With a slot for each callback, no registration fails. -/
theorem registerCbs_isSome {disp : List (Dispatcher V)} {done cbs : List (String × V)}
    (hs : ∀ dp ∈ disp, Slots (cbsOf dp.name done) dp)
    (hroom : ∀ dp ∈ disp, (cbsOf dp.name (done ++ cbs)).length ≤ dp.valueCount)
    (hnames : ∀ cb ∈ cbs, cb.1 ∈ disp.map (·.name)) : (registerCbs disp cbs).isSome = true := by
  induction cbs generalizing disp done with
  | nil => rfl
  | cons cb cbs ih =>
    have hfirst : (onDispatcher cb.1 (registerDispCb · cb.2) disp).isSome = true := by
      rw [onDispatcher_isSome]
      refine ⟨by simpa using hnames cb List.mem_cons_self, fun dp hdp hn => ?_⟩
      apply (hs dp hdp).register_isSome
      have := hroom dp hdp
      rw [cbsOf_append, List.length_append] at this
      simp only [cbsOf, List.filterMap_cons, hn, if_true, List.length_cons] at this ⊢
      omega
    obtain ⟨disp₁, h₁⟩ := Option.isSome_iff_exists.mp hfirst
    have hone : registerCbs disp [cb] = some disp₁ := by
      simp [registerCbs, h₁]
    obtain ⟨hn₁, -, hs₁⟩ := registerCbs_spec hs hone
    have hrest : (registerCbs disp₁ cbs).isSome = true := by
      refine ih (fun dp hdp => (hs₁ dp hdp).1) (fun dp hdp => ?_) fun c hc => ?_
      · obtain ⟨-, dq, hdq, c, p, rfl⟩ := hs₁ dp hdp
        simpa using hroom dq hdq
      · rw [hn₁]
        exact hnames c (List.mem_cons_of_mem _ hc)
    simpa [registerCbs, h₁] using hrest

/-- A callback in a slot of its own is called once, unless it is the one of the source. -/
theorem fireCbs_once [DecidableEq V] {dp : Dispatcher V} {vs : List V} (h : dp.valueCbs = vs.map some)
    (hnodup : vs.Nodup) {v : V} (hv : v ∈ vs) {src : Option V} (hne : src ≠ some v) (f : Double) (valid : Bool) :
    (dp.fireCbs src f valid).filter (·.val = v) = [⟨v, f, valid⟩] := by
  have hothers : ∀ l : List V, v ∉ l →
      ((l.map some).filterMap (Dispatcher.slotCall src f valid)).filter (·.val = v) = [] := by
    intro l hl
    rw [List.filter_eq_nil_iff]
    intro c hc heq
    obtain ⟨cb, hcb, hcall⟩ := List.mem_filterMap.mp hc
    rw [(Dispatcher.slotCall_some hcall).1, List.mem_map_of_injective (Option.some_injective V)] at hcb
    rw [decide_eq_true_eq] at heq
    exact hl (heq ▸ hcb)
  obtain ⟨before, after, rfl⟩ := List.append_of_mem hv
  obtain ⟨-, hnodup', hdisjoint⟩ := List.nodup_append.mp hnodup
  have hbefore : v ∉ before := fun hm => hdisjoint v hm v List.mem_cons_self rfl
  unfold Dispatcher.fireCbs
  rw [h, List.map_append, List.map_cons, List.filterMap_append, List.filter_append, hothers before hbefore,
    List.filterMap_cons_some (Dispatcher.slotCall_call hne.symm f valid), List.filter_cons_of_pos (by simp),
    hothers after (List.nodup_cons.mp hnodup').1]
  rfl

end Registry

/-! ## The calls of the modules -/

section Counts

variable {V : Type} {name : String}

theorem reserved_flatMap_eq {α : Type} {l : List α} {f : α → List (Registration V)} {g : α → List (String × V)}
    (h : ∀ x ∈ l, reserved name (f x) = (cbsOf name (g x)).length) :
    reserved name (l.flatMap f) = (cbsOf name (l.flatMap g)).length := by
  induction l with
  | nil => rfl
  | cons x l ih =>
    obtain ⟨hx, hl⟩ := List.forall_mem_cons.mp h
    rw [List.flatMap_cons, List.flatMap_cons, reserved_append, cbsOf_append, List.length_append, hx, ih hl]

theorem reserved_flatMap_zero {α : Type} {l : List α} {f : α → List (Registration V)}
    (h : ∀ x ∈ l, reserved name (f x) = 0) : reserved name (l.flatMap f) = 0 := by
  induction l with
  | nil => rfl
  | cons x l ih =>
    obtain ⟨hx, hl⟩ := List.forall_mem_cons.mp h
    rw [List.flatMap_cons, reserved_append, hx, ih hl]

theorem reserved_links (module : String) (mk : Nat → Val) (links : List Link) :
    reserved name (linkRegistrations module mk links) = (cbsOf name (linkCbs mk links)).length := by
  unfold linkRegistrations linkCbs
  rw [List.filterMap_eq_flatMap_toList]
  refine reserved_flatMap_eq fun x _ => ?_
  obtain ⟨⟨title, dir, inst, init, timeout⟩, i⟩ := x
  cases dir with
  | input => simp [Link.registrations, reserved_cons, Registration.reserves, cbsOf]
  | output =>
    by_cases hn : title = name <;> simp [Link.registrations, reserved_cons, Registration.reserves, cbsOf, hn]

theorem linkCbs_inputs {mk : Nat → Val} {links : List Link} (h : ∀ l ∈ links, l.dir = .input) :
    linkCbs mk links = [] := by
  unfold linkCbs
  rw [List.filterMap_eq_nil_iff]
  rintro ⟨l, i⟩ hx
  rw [if_neg]
  rw [h l (List.mem_of_getElem? (List.mk_mem_zipIdx_iff_getElem?.mp hx))]
  simp

theorem reserved_none {rs : List (Registration V)} (h : ∀ r ∈ rs, r.reserves name = false) :
    reserved name rs = 0 := by
  unfold reserved
  rw [List.countP_eq_zero]
  intro r hr
  simp [h r hr]

theorem json_cbs (conns : List JsonConf) : linkCbs .json (jsonLinks conns) = [] := by
  apply linkCbs_inputs
  intro l hl
  obtain ⟨c, -, hl⟩ := List.mem_flatMap.mp hl
  obtain ⟨v, -, rfl⟩ := List.mem_map.mp hl
  rfl

theorem reserved_mqtt (conns : List MqttConf) :
    reserved name (mqttRegistrations conns) = (cbsOf name (mqttCbs conns)).length := by
  unfold mqttRegistrations mqttCbs
  refine reserved_flatMap_eq fun x _ => ?_
  have hloggers : reserved name (x.1.loggers.flatten.map (Registration.get (V := Val) · false)) = 0 := by
    apply reserved_none
    intro r hr
    obtain ⟨n, -, rfl⟩ := List.mem_map.mp hr
    simp [Registration.reserves]
  rw [reserved_append, hloggers, reserved_links, Nat.add_zero]

theorem reserved_meter (m : Meter) : reserved name (meterRegistrations m) = 0 := by
  apply reserved_none
  intro r hr
  obtain ⟨s, -, hr⟩ := List.mem_flatMap.mp hr
  cases hs : m.src s with
  | none => simp [hs] at hr
  | some n =>
    simp only [hs, Option.map_some, Option.getD_some, srcRegistrations, List.mem_cons] at hr
    rcases hr with rfl | hr
    · simp [Registration.reserves]
    · split at hr
      · obtain rfl := List.mem_singleton.mp hr
        rfl
      · cases hr

theorem reserved_counters (counters : List Counter) :
    reserved name (counters.zipIdx.flatMap fun x => counterRegistrations x.1 (.counter x.2)) =
      (cbsOf name (counterCbs counters)).length := by
  unfold counterCbs
  rw [List.map_eq_flatMap]
  refine reserved_flatMap_eq fun x _ => ?_
  have hneed : reserved name (if x.1.integratePower then [.needTimeout x.1.source "counter" x.1.name] else
      ([] : List (Registration Val))) = 0 := by
    split <;> rfl
  unfold counterRegistrations
  rw [reserved_append, hneed]
  by_cases hn : x.1.source = name <;> simp [reserved_cons, Registration.reserves, cbsOf, hn]

theorem reserved_eval (e : Eval) (val : Val) : reserved name (evalRegistrations e val) = 0 := by
  apply reserved_none
  intro r hr
  obtain ⟨v, -, hr⟩ := List.mem_flatMap.mp hr
  split at hr
  · cases hr
  · rcases List.mem_pair.mp hr with rfl | rfl
    · simp [Registration.reserves]
    · rfl

theorem reserved_evals (evals : List Eval) :
    reserved name (evals.zipIdx.flatMap fun x => evalRegistrations x.1 (.eval x.2)) = 0 :=
  reserved_flatMap_zero fun x _ => reserved_eval x.1 (.eval x.2)

theorem reserved_triggers (evals : List Eval) :
    reserved name (triggerRegistrations evals) = (cbsOf name (evalCbs evals)).length := by
  have hidx : triggerRegistrations evals = evals.zipIdx.flatMap fun x => x.1.triggers.map (.get · true) := by
    unfold triggerRegistrations
    conv_lhs => rw [← List.zipIdx_map_fst 0 evals]
    rw [List.flatMap_map]
  rw [hidx]
  unfold evalCbs
  refine reserved_flatMap_eq fun x _ => ?_
  rw [List.map_eq_flatMap, List.map_eq_flatMap]
  refine reserved_flatMap_eq fun n _ => ?_
  by_cases hn : n = name <;> simp [reserved_cons, Registration.reserves, cbsOf, hn]

end Counts

/-! ## Different callbacks -/

section Different

variable {name : String}

/-- The order of the modules. -/
def Val.module : Val → Nat
  | can _ => 0
  | modbusRtu _ => 1
  | modbusTcp _ => 2
  | mqtt _ _ => 3
  | json _ => 4
  | counter _ => 5
  | eval _ => 6

/-- Different values of the modules before `n`. -/
structure Below (n : Nat) (vs : List Val) : Prop where
  nodup : vs.Nodup
  module : ∀ v ∈ vs, v.module < n

theorem Below.append {n m : Nat} {vs ws : List Val} (h : Below n vs) (hnm : n ≤ m) (hws : ws.Nodup)
    (hm : ∀ w ∈ ws, w.module = m) : Below (m + 1) (vs ++ ws) where
  nodup := by
    refine List.nodup_append.mpr ⟨h.nodup, hws, fun v hv w hw heq => ?_⟩
    have hlt := h.module v hv
    rw [heq, hm w hw] at hlt
    omega
  module := by
    intro v hv
    rcases List.mem_append.mp hv with hv | hv
    · have := h.module v hv
      omega
    · have := hm v hv
      omega

theorem cbsOf_flatMap {α : Type} (l : List α) (f : α → List (String × Val)) :
    cbsOf name (l.flatMap f) = l.flatMap fun x => cbsOf name (f x) := by
  unfold cbsOf
  rw [List.filterMap_flatMap]

theorem nodup_zipIdx {α : Type} {l : List α} {f : α × Nat → List Val} (hf : ∀ x ∈ l.zipIdx, (f x).Nodup)
    (hdisjoint : ∀ x y, x.2 ≠ y.2 → ∀ v ∈ f x, v ∉ f y) : (l.zipIdx.flatMap f).Nodup := by
  rw [List.nodup_flatMap]
  refine ⟨hf, ?_⟩
  have hidx : (l.zipIdx.map Prod.snd).Nodup := by
    rw [List.zipIdx_map_snd]
    exact List.nodup_range'
  exact (List.pairwise_map.mp hidx).imp fun hne v hx hy => hdisjoint _ _ hne v hx hy

theorem nodup_cbsOf_option (cb : Option (String × Val)) : (cbsOf name cb.toList).Nodup := by
  cases cb with
  | none => exact List.nodup_nil
  | some cb => by_cases hn : cb.1 = name <;> simp [cbsOf, hn]

theorem nodup_links {mk : Nat → Val} (hmk : Function.Injective mk) (links : List Link) :
    (cbsOf name (linkCbs mk links)).Nodup := by
  unfold linkCbs
  rw [List.filterMap_eq_flatMap_toList, cbsOf_flatMap]
  have hmem : ∀ x : Link × Nat, ∀ v ∈ cbsOf name
      (if x.1.dir = Conf.Dir.output then some (x.1.title, mk x.2) else none).toList, v = mk x.2 := by
    intro x v hv
    rw [mem_cbsOf, Option.mem_toList, Option.ite_none_right_eq_some] at hv
    exact (Prod.mk.inj (Option.some.inj hv.2)).2.symm
  refine nodup_zipIdx (fun x _ => nodup_cbsOf_option _) fun x y hne v hx hy => hne (hmk ?_)
  rw [← hmem x v hx, hmem y v hy]

theorem module_links (mk : Nat → Val) {links : List Link} {m : Nat} (hmk : ∀ i, (mk i).module = m) :
    ∀ v ∈ cbsOf name (linkCbs mk links), v.module = m := by
  intro v hv
  obtain ⟨i, -, rfl, -⟩ := mem_linkCbs.mp (mem_cbsOf.mp hv)
  exact hmk i

theorem nodup_mqtt (conns : List MqttConf) : (cbsOf name (mqttCbs conns)).Nodup := by
  unfold mqttCbs
  rw [cbsOf_flatMap]
  refine nodup_zipIdx (fun x _ => nodup_links (fun i j h => (Val.mqtt.inj h).2) _) fun x y hne v hx hy => hne ?_
  obtain ⟨i, -, hv, -⟩ := mem_linkCbs.mp (mem_cbsOf.mp hx)
  obtain ⟨j, -, hv', -⟩ := mem_linkCbs.mp (mem_cbsOf.mp hy)
  exact (Val.mqtt.inj (hv.symm.trans hv')).1

theorem module_mqtt {conns : List MqttConf} : ∀ v ∈ cbsOf name (mqttCbs conns), v.module = 3 := by
  intro v hv
  obtain ⟨x, -, hv⟩ := List.mem_flatMap.mp (mem_cbsOf.mp hv)
  obtain ⟨i, -, rfl, -⟩ := mem_linkCbs.mp hv
  rfl

theorem nodup_counters (counters : List Counter) : (cbsOf name (counterCbs counters)).Nodup := by
  unfold counterCbs
  rw [List.map_eq_flatMap, cbsOf_flatMap]
  refine nodup_zipIdx (fun x _ => nodup_cbsOf_option (some _)) fun x y hne v hx hy => hne ?_
  rw [mem_cbsOf, List.mem_singleton, Prod.mk.injEq] at hx hy
  exact Val.counter.inj (hx.2.symm.trans hy.2)

theorem module_counters {counters : List Counter} : ∀ v ∈ cbsOf name (counterCbs counters), v.module = 5 := by
  intro v hv
  obtain ⟨x, -, heq⟩ := List.mem_map.mp (mem_cbsOf.mp hv)
  rw [← (Prod.mk.inj heq).2]
  rfl

theorem cbsOf_triggers (triggers : List String) (val : Val) :
    cbsOf name (triggers.map (·, val)) = List.replicate (triggers.count name) val := by
  induction triggers with
  | nil => rfl
  | cons n triggers ih =>
    rw [List.map_cons, List.count_cons]
    unfold cbsOf at ih ⊢
    rw [List.filterMap_cons]
    by_cases hn : n = name
    · simp [hn, ih, List.replicate_succ]
    · simp [hn, ih]

theorem nodup_evals {evals : List Eval} (htriggers : ∀ e ∈ evals, e.triggers.Nodup) :
    (cbsOf name (evalCbs evals)).Nodup := by
  unfold evalCbs
  rw [cbsOf_flatMap]
  refine nodup_zipIdx (fun x hx => ?_) fun x y hne v hx hy => hne ?_
  · have hmem := List.mem_of_getElem? (List.mk_mem_zipIdx_iff_getElem?.mp hx)
    rw [cbsOf_triggers, List.nodup_replicate]
    exact List.nodup_iff_count_le_one.mp (htriggers x.1 hmem) name
  · rw [cbsOf_triggers] at hx hy
    exact Val.eval.inj ((List.eq_of_mem_replicate hx).symm.trans (List.eq_of_mem_replicate hy))

theorem module_evals {evals : List Eval} : ∀ v ∈ cbsOf name (evalCbs evals), v.module = 6 := by
  intro v hv
  obtain ⟨x, -, hv⟩ := List.mem_flatMap.mp (mem_cbsOf.mp hv)
  obtain ⟨n, -, heq⟩ := List.mem_map.mp hv
  rw [← (Prod.mk.inj heq).2]
  rfl

/-- Each value object is registered once for a name. -/
theorem callbacks_nodup (conf : Config) (counters : List Counter) {evals : List Eval}
    (htriggers : ∀ e ∈ evals, e.triggers.Nodup) : (cbsOf name (conf.callbacks counters evals)).Nodup := by
  have hcan : Below 1 (cbsOf name (linkCbs .can (busLinks conf.can))) :=
    ⟨nodup_links (fun i j h => Val.can.inj h) _, fun v hv => by rw [module_links .can (fun _ => rfl) v hv]; decide⟩
  unfold Config.callbacks
  simp only [cbsOf_append]
  refine ((((hcan.append (Nat.le_refl 1) ?_ ?_).append (Nat.le_refl 2) ?_ ?_).append (Nat.le_refl 3) (nodup_mqtt _)
    module_mqtt).append (Nat.le_succ 4) (nodup_counters _) module_counters).append (Nat.le_refl 6)
    (nodup_evals htriggers) module_evals |>.nodup
  · exact nodup_links (fun i j h => Val.modbusRtu.inj h) _
  · exact module_links .modbusRtu fun _ => rfl
  · exact nodup_links (fun i j h => Val.modbusTcp.inj h) _
  · exact module_links .modbusTcp fun _ => rfl

end Different

/-! ## Accepted configurations -/

/-- `uvrgw_conf_load` up to `check_dispatchers`. -/
def configure (conf : Config) : Option System := do
  guard (conf.sunspec.all serverConfigure)
  let counters ← counterConfigure conf.counters
  let evals₁ ← conf.evals.mapM evalConfigureOne
  let disp₁ ← registerAll [] (conf.registrations counters evals₁)
  let names := disp₁.map (·.name)
  let evals ← (evals₁.zip conf.evals).mapM fun x => evalConfigureTwo names x.1 x.2.triggers
  let disp₂ ← registerAll disp₁ (triggerRegistrations evals)
  guard (checkCycles evals).isOk
  guard (checkDispatchers disp₂)
  return { disp := disp₂, counters := counters, evals := evals, meters := conf.sunspec.flatten }

/-- The rest of it registers the callbacks. -/
theorem load_eq (conf : Config) : load conf = (configure conf).bind fun sys =>
    (registerCbs (initDispatcher sys.disp) (conf.callbacks sys.counters sys.evals)).map ({ sys with disp := · }) := by
  simp only [load, configure, Option.bind_eq_bind, Option.pure_def, Option.bind_assoc, Option.bind_some,
    Option.map_eq_bind, Function.comp_def]

/-- The calls of all modules, in order. -/
def Config.calls (conf : Config) (sys : System) : List (Registration Val) :=
  conf.registrations sys.counters sys.evals ++ triggerRegistrations sys.evals

theorem evalRegistrations_congr {e e' : Eval} (hname : e.name = e'.name)
    (hvalues : e.values.map (fun v => (v.name, v.disp, v.isLocal, v.initValue)) =
      e'.values.map fun v => (v.name, v.disp, v.isLocal, v.initValue)) (val : Val) :
    evalRegistrations e val = evalRegistrations e' val := by
  have hmap : ∀ e : Eval, evalRegistrations e val =
      (e.values.map fun v => (v.name, v.disp, v.isLocal, v.initValue)).flatMap fun x =>
        if x.2.2.1 then [] else [.get x.1 false, .produce x.1 "eval" e.name val false x.2.2.2 0] := by
    intro e
    unfold evalRegistrations
    rw [List.flatMap_map]
  rw [hmap, hmap, hvalues, hname]

theorem configure_steps {conf : Config} {sys : System} (h : configure conf = some sys) :
    ∃ evals₁ disp₁, conf.evals.mapM evalConfigureOne = some evals₁ ∧
      registerAll [] (conf.registrations sys.counters evals₁) = some disp₁ ∧
      (evals₁.zip conf.evals).mapM (fun x => evalConfigureTwo (disp₁.map (·.name)) x.1 x.2.triggers) =
        some sys.evals ∧
      registerAll disp₁ (triggerRegistrations sys.evals) = some sys.disp := by
  simp only [configure, Option.pure_def, Option.bind_eq_bind, Option.bind_eq_some_iff, Option.guard_eq_some',
    Option.some.injEq] at h
  obtain ⟨-, -, counters, -, evals₁, hevals₁, disp₁, hdisp₁, evals, hevals, disp₂, hdisp₂, -, -, -, -, rfl⟩ := h
  exact ⟨evals₁, disp₁, hevals₁, hdisp₁, hevals, hdisp₂⟩

/-- The first pass and the second pass agree on what an eval publishes. -/
theorem registrations_evals {conf : Config} {counters : List Counter} {names : List String} {evals₁ evals : List Eval}
    (h₁ : conf.evals.mapM evalConfigureOne = some evals₁)
    (h₂ : (evals₁.zip conf.evals).mapM (fun x => evalConfigureTwo names x.1 x.2.triggers) = some evals) :
    conf.registrations counters evals₁ = conf.registrations counters evals := by
  have hlen₁ := (Lib.mapM_eq_some.mp h₁).length_eq
  have hlen₂ := (Lib.mapM_eq_some.mp h₂).length_eq
  rw [List.length_zip] at hlen₂
  have hevals : evals₁.zipIdx.map (fun x => evalRegistrations x.1 (.eval x.2)) =
      evals.zipIdx.map fun x => evalRegistrations x.1 (.eval x.2) := by
    apply List.ext_getElem
    · simp only [List.length_map, List.length_zipIdx]
      omega
    · intro i hi hi'
      rw [List.length_map, List.length_zipIdx] at hi hi'
      simp only [List.getElem_map, List.getElem_zipIdx, Nat.zero_add]
      obtain ⟨e₁, he₁, hconf⟩ := evals_configured h₁ h₂ (List.getElem?_eq_getElem hi')
      rw [(List.getElem?_eq_some_iff.mp he₁).2]
      exact (evalRegistrations_congr hconf.name hconf.values _).symm
  have hflat : evals₁.zipIdx.flatMap (fun x => evalRegistrations x.1 (.eval x.2)) =
      evals.zipIdx.flatMap fun x => evalRegistrations x.1 (.eval x.2) := by
    rw [List.flatMap_def, List.flatMap_def, hevals]
  unfold Config.registrations
  rw [hflat]

theorem configure_reserved {conf : Config} {sys : System} (h : configure conf = some sys) :
    Reserved (conf.calls sys) sys.disp ∧ ∀ e ∈ sys.evals, e.triggers.Nodup := by
  obtain ⟨evals₁, disp₁, hevals₁, hdisp₁, hevals, hdisp₂⟩ := configure_steps h
  have hnil : Reserved ([] : List (Registration Val)) [] := ⟨.nil, by simp⟩
  have hfirst := hnil.registerAll hdisp₁
  refine ⟨?_, fun e he => ?_⟩
  · unfold Config.calls
    rw [← registrations_evals hevals₁ hevals]
    exact hfirst.registerAll hdisp₂
  · obtain ⟨⟨e₁, cfg⟩, hmem, htwo⟩ := Lib.mem_of_mapM hevals he
    obtain ⟨cfg', -, hone⟩ := Lib.mem_of_mapM hevals₁ (List.of_mem_zip hmem).1
    exact evalConfigureTwo_nodup hfirst.registry.nodup (configured_ins hone).2.1 htwo

/-- As many slots are reserved for a name as callbacks are registered for it. -/
theorem reserved_calls (conf : Config) (sys : System) (name : String) :
    reserved name (conf.calls sys) = (cbsOf name (conf.callbacks sys.counters sys.evals)).length := by
  unfold Config.calls Config.registrations Config.callbacks
  have hsunspec : reserved name (conf.sunspec.flatten.flatMap meterRegistrations) = 0 :=
    reserved_flatMap_zero fun m _ => reserved_meter m
  have hjson : reserved name (linkRegistrations "json" .json (jsonLinks conf.json)) = 0 := by
    rw [reserved_links, json_cbs]
    rfl
  simp only [reserved_append, cbsOf_append, List.length_append, hjson, reserved_links, reserved_mqtt, hsunspec,
    reserved_counters, reserved_evals, reserved_triggers, Nat.add_zero]

/-- A dispatcher after the registration of the callbacks. -/
structure Filled (conf : Config) (sys : System) (dp : Dispatcher Val) : Prop where
  reserved : dp.valueCount = reserved dp.name (conf.calls sys)
  registered : dp.valueCount = (cbsOf dp.name (conf.callbacks sys.counters sys.evals)).length
  full : dp.valueCbs.length = dp.valueCount ∧ none ∉ dp.valueCbs
  /-- At any later time, a dispatch of another source calls it once. -/
  once : ∀ v, Listens conf sys.counters sys.evals dp.name v → ∀ dq : Dispatcher Val, dq.config = dp.config →
    ∀ now src f valid, f.isfinite = true → src ≠ some v →
      (dq.dispVal now src f valid).2.filter (·.val = v) = [⟨v, f, valid⟩]

theorem dispVal_calls {V : Type} [DecidableEq V] {dp dq : Dispatcher V} (h : dq.config = dp.config) (now : Int)
    (src : Option V) {f : Double} (hf : f.isfinite = true) (valid : Bool) :
    (dq.dispVal now src f valid).2 = dp.fireCbs src f valid := by
  obtain ⟨-, -, -, -, hcbs⟩ := Dispatcher.config_fields h
  unfold Dispatcher.dispVal
  rw [if_pos hf]
  unfold Dispatcher.fireCbs
  rw [← hcbs]
  cases valid <;> rfl

/-- **Every reserved slot is filled.** The callbacks of a checked configuration can all be registered, as many as
slots are reserved for each name, and each is called once by a dispatch of its name. -/
theorem slots_filled (conf : Config) (sys : System) (h : configure conf = some sys) :
    (∀ name, reserved name (conf.calls sys) = (cbsOf name (conf.callbacks sys.counters sys.evals)).length) ∧
      ∃ disp, registerCbs (initDispatcher sys.disp) (conf.callbacks sys.counters sys.evals) = some disp ∧
        load conf = some { sys with disp := disp } ∧ disp.map (·.name) = sys.disp.map (·.name) ∧
        ∀ dp ∈ disp, Filled conf sys dp := by
  obtain ⟨hres, htriggers⟩ := configure_reserved h
  have hcount := reserved_calls conf sys
  refine ⟨hcount, ?_⟩
  have hinit : ∀ dp ∈ initDispatcher sys.disp,
      dp.valueCount = (cbsOf dp.name (conf.callbacks sys.counters sys.evals)).length := by
    intro dp hdp
    obtain ⟨dq, hdq, rfl⟩ := List.mem_map.mp hdp
    exact (hres.count dq hdq).trans (hcount dq.name)
  have hnames : ∀ cb ∈ conf.callbacks sys.counters sys.evals, cb.1 ∈ (initDispatcher sys.disp).map (·.name) := by
    intro cb hcb
    have hpos : (cbsOf cb.1 (conf.callbacks sys.counters sys.evals)).length ≠ 0 :=
      List.length_pos_of_mem (mem_cbsOf.mpr hcb) |>.ne'
    rw [← hcount, ne_eq, reserved_eq_zero, not_not] at hpos
    rw [initDispatcher_names]
    exact hres.registry.names _ hpos
  have hsome : (registerCbs (initDispatcher sys.disp) (conf.callbacks sys.counters sys.evals)).isSome = true :=
    registerCbs_isSome hres.registry.slots (fun dp hdp => (hinit dp hdp).ge) hnames
  obtain ⟨disp, hdisp⟩ := Option.isSome_iff_exists.mp hsome
  obtain ⟨hsame, -, hspec⟩ := registerCbs_spec hres.registry.slots hdisp
  refine ⟨disp, hdisp, ?_, hsame.trans (initDispatcher_names _), fun dp hdp => ?_⟩
  · rw [load_eq, h, Option.bind_some, hdisp, Option.map_some]
  · obtain ⟨hslots, dq, hdq, c, p, rfl⟩ := hspec dp hdp
    have hregistered := hinit dq hdq
    have hcbs := hslots.cbs
    rw [List.nil_append] at hcbs
    dsimp only at hcbs
    rw [hregistered, Nat.sub_self, List.replicate_zero, List.append_nil] at hcbs
    refine ⟨hregistered.trans (hcount _).symm, hregistered, ⟨?_, ?_⟩,
      fun v hl dq' hconfig now src f valid hf hne => ?_⟩
    · dsimp only
      rw [hcbs, List.length_map, hregistered]
    · dsimp only
      rw [hcbs]
      simp
    · rw [dispVal_calls hconfig now src hf valid]
      exact fireCbs_once hcbs (callbacks_nodup conf sys.counters htriggers)
        (mem_cbsOf.mpr (mem_callbacks.mpr hl)) hne f valid

/-- An input that an output, a counter and an eval listen to. -/
def slotsConfig : Config where
  can := [{ inst := "can0", groups := [{ dir := .input, values := [{ title := "p", staleTimeout := some 10 }] }] }]
  mqtt := [{ host := "h", values := [(.output, { title := "p" })] }]
  counters := [{ title := "c", source := some "p", integratePower := true }]
  evals := [{ title := "e", values := [{ title := "y", expr := some (.var "p") }] }]

def slotsSystem : System := (configure slotsConfig).get (by rfl)

theorem slots_filled_example : ∃ disp,
    registerCbs (initDispatcher slotsSystem.disp) (slotsConfig.callbacks slotsSystem.counters slotsSystem.evals) =
      some disp ∧ ∀ dp ∈ disp, Filled slotsConfig slotsSystem dp := by
  obtain ⟨-, disp, hdisp, -, -, hfilled⟩ := slots_filled slotsConfig slotsSystem (Option.some_get _).symm
  exact ⟨disp, hdisp, hfilled⟩

end Uvrgw.Conf
