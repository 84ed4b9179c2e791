import Mathlib.Data.List.Nodup
import Uvrgw.Dispatch.Code
import Uvrgw.Lib.Lists

/-!
# The list of dispatchers during configuration (`uvrgw_conf.c`)

The modules register what they produce and read; the checks and the callbacks follow. `none` is a
failed configuration. Allocation does not fail.
-/

namespace Uvrgw.Conf

open Uvrgw.Lib Uvrgw.Dispatch

variable {V : Type}

/-! ## One dispatcher -/

def ownerStr (module inst : String) : String := module ++ " '" ++ inst ++ "'"

def setProducer (dp : Dispatcher V) (module inst : String) (val : V) (input : Bool) (initValue : Double)
    (staleTimeout : Int) : Option (Dispatcher V) :=
  if dp.producer.isSome then none
  else if !initValue.isfinite then none
  else if staleTimeout < 0 then none
  else
    some { dp with
      producer := some (ownerStr module inst)
      producerVal := some val
      producerInput := input
      initValue := initValue
      staleTimeout := staleTimeout
      lastValue := initValue }

def needTimeout (dp : Dispatcher V) (module inst : String) : Dispatcher V :=
  if dp.timeoutReader.isSome then dp else { dp with timeoutReader := some (ownerStr module inst) }

def registerDispCb (dp : Dispatcher V) (val : V) : Option (Dispatcher V) :=
  if dp.valueCount ≤ dp.valueCbsPos then none
  else
    some { dp with
      valueCbsPos := dp.valueCbsPos + 1
      valueCbs := dp.valueCbs.set dp.valueCbsPos (some val) }

/-! ## The list -/

/-- `uvrgw_conf_get_dispatcher`, without the pointer that it returns. -/
def getDispatcher (disp : List (Dispatcher V)) (name : String) (allocCb : Bool) : List (Dispatcher V) :=
  let disp := if disp.any (·.name = name) then disp else disp ++ [{ name := name }]
  disp.map fun dp => if dp.name = name ∧ allocCb then { dp with valueCount := dp.valueCount + 1 } else dp

/-- A change of the dispatcher that `uvrgw_conf_get_dispatcher` returned for `name`. -/
def onDispatcher (name : String) (f : Dispatcher V → Option (Dispatcher V))
    (disp : List (Dispatcher V)) : Option (List (Dispatcher V)) :=
  if disp.any (·.name = name) then disp.mapM fun dp => if dp.name = name then f dp else some dp else none

/-- One call of a module during configuration. -/
inductive Registration (V : Type) where
  | get (name : String) (allocCb : Bool)
  | produce (name module inst : String) (val : V) (input : Bool) (initValue : Double) (staleTimeout : Int)
  | needTimeout (name module inst : String)
  deriving DecidableEq, Repr

def Registration.name : Registration V → String
  | get name _ | produce name .. | needTimeout name .. => name

def register (disp : List (Dispatcher V)) : Registration V → Option (List (Dispatcher V))
  | .get name allocCb => some (getDispatcher disp name allocCb)
  | .produce name module inst val input initValue staleTimeout =>
    onDispatcher name (setProducer · module inst val input initValue staleTimeout) disp
  | .needTimeout name module inst => onDispatcher name (fun dp => some (needTimeout dp module inst)) disp

def registerAll (disp : List (Dispatcher V)) (rs : List (Registration V)) : Option (List (Dispatcher V)) :=
  rs.foldlM register disp

def checkDispatchers (disp : List (Dispatcher V)) : Bool :=
  disp.all fun dp =>
    dp.producer.isSome && !(dp.timeoutReader.isSome && dp.producerInput && dp.staleTimeout == 0)

def initDispatcher (disp : List (Dispatcher V)) : List (Dispatcher V) :=
  disp.map fun dp =>
    { dp with
      valueCbsPos := 0
      valueCbs := if 0 < dp.valueCount then List.replicate dp.valueCount none else dp.valueCbs }

/-- The `*_register_disp_cbs` functions: the names and value objects, in order. -/
def registerCbs (disp : List (Dispatcher V)) (cbs : List (String × V)) : Option (List (Dispatcher V)) :=
  cbs.foldlM (fun disp cb => onDispatcher cb.1 (registerDispCb · cb.2) disp) disp

/-! ## What a list of registrations leaves in a dispatcher -/

/-- The fields of `dp` against the registrations `rs` of its name. -/
structure Registered (rs : List (Registration V)) (dp : Dispatcher V) : Prop where
  fresh : dp.valueCbs = [] ∧ dp.valueCbsPos = 0 ∧ dp.deadline = 0 ∧ dp.timedOut = false ∧
    dp.received = false ∧ dp.valid = false ∧ dp.lastValue = dp.initValue
  unproduced : dp.producer = none → dp.producerVal = none ∧
    ∀ module inst val input init timeout, .produce dp.name module inst val input init timeout ∉ rs
  produced : ∀ o, dp.producer = some o → ∃ module inst val, dp.producerVal = some val ∧
    .produce dp.name module inst val dp.producerInput dp.initValue dp.staleTimeout ∈ rs ∧
    dp.initValue.isfinite = true ∧ 0 ≤ dp.staleTimeout
  producer : ∀ module inst val input init timeout, .produce dp.name module inst val input init timeout ∈ rs →
    dp.producerVal = some val ∧ dp.producerInput = input ∧ dp.initValue = init ∧ dp.staleTimeout = timeout
  needed : ∀ module inst, .needTimeout dp.name module inst ∈ rs → dp.timeoutReader.isSome = true

theorem Registered.new {rs : List (Registration V)} {name : String} (h : ∀ r ∈ rs, r.name ≠ name) :
    Registered rs { name := name } where
  fresh := by simp
  unproduced := fun _ => ⟨rfl, fun _ _ _ _ _ _ hr => h _ hr rfl⟩
  produced := by simp
  producer := fun _ _ _ _ _ _ hr => absurd rfl (h _ hr)
  needed := fun _ _ hr => absurd rfl (h _ hr)

/-- A registration that does not concern the dispatcher, or only its callback count. -/
theorem Registered.skip {rs : List (Registration V)} {dp : Dispatcher V} (h : Registered rs dp)
    {r : Registration V} (hr : r.name ≠ dp.name ∨ ∃ n b, r = .get n b) : Registered (rs ++ [r]) dp where
  fresh := h.fresh
  unproduced := fun hp => ⟨(h.unproduced hp).1, fun m i v b d t hm => by
    rcases List.mem_append.mp hm with hm | hm
    · exact (h.unproduced hp).2 m i v b d t hm
    · obtain rfl := List.mem_singleton.mp hm
      simp [Registration.name] at hr⟩
  produced := fun o ho => by
    obtain ⟨m, i, v, hv, hm, hd⟩ := h.produced o ho
    exact ⟨m, i, v, hv, List.mem_append_left _ hm, hd⟩
  producer := fun m i v b d t hm => by
    rcases List.mem_append.mp hm with hm | hm
    · exact h.producer m i v b d t hm
    · obtain rfl := List.mem_singleton.mp hm
      simp [Registration.name] at hr
  needed := fun m i hm => by
    rcases List.mem_append.mp hm with hm | hm
    · exact h.needed m i hm
    · obtain rfl := List.mem_singleton.mp hm
      simp [Registration.name] at hr

theorem Registered.count {rs : List (Registration V)} {dp : Dispatcher V} (h : Registered rs dp) (n : Nat) :
    Registered rs { dp with valueCount := n } where
  fresh := h.fresh
  unproduced := h.unproduced
  produced := h.produced
  producer := h.producer
  needed := h.needed

theorem Registered.setProducer {rs : List (Registration V)} {dp dp' : Dispatcher V} (h : Registered rs dp)
    {module inst : String} {val : V} {input : Bool} {init : Double} {timeout : Int}
    (hset : setProducer dp module inst val input init timeout = some dp') :
    dp'.name = dp.name ∧ Registered (rs ++ [.produce dp.name module inst val input init timeout]) dp' := by
  unfold Conf.setProducer at hset
  split at hset
  · cases hset
  rename_i hnone
  have hnone : dp.producer = none := by simpa using hnone
  split at hset
  · cases hset
  rename_i hfin
  split at hset
  · cases hset
  rename_i htime
  cases hset
  refine ⟨rfl, ⟨?_, by simp, ?_, ?_, ?_⟩⟩
  · obtain ⟨h1, h2, h3, h4, h5, h6, -⟩ := h.fresh
    exact ⟨h1, h2, h3, h4, h5, h6, rfl⟩
  · exact fun _ _ => ⟨module, inst, val, rfl, by simp, by simpa using hfin, by simpa using htime⟩
  · intro m i v b d t hm
    rcases List.mem_append.mp hm with hm | hm
    · exact absurd hm ((h.unproduced hnone).2 m i v b d t)
    · simp only [List.mem_singleton, Registration.produce.injEq] at hm
      obtain ⟨-, -, -, rfl, rfl, rfl, rfl⟩ := hm
      exact ⟨rfl, rfl, rfl, rfl⟩
  · intro m i hm
    exact h.needed m i (by simpa using hm)

theorem Registered.reader {rs : List (Registration V)} {dp : Dispatcher V} (h : Registered rs dp)
    (module inst o : String) :
    Registered (rs ++ [.needTimeout dp.name module inst]) { dp with timeoutReader := some o } where
  fresh := h.fresh
  unproduced := fun hp => ⟨(h.unproduced hp).1, fun m i v b d t hm =>
    (h.unproduced hp).2 m i v b d t (by simpa using hm)⟩
  produced := fun p hp => by
    obtain ⟨m, i, v, hv, hm, hd⟩ := h.produced p hp
    exact ⟨m, i, v, hv, List.mem_append_left _ hm, hd⟩
  producer := fun m i v b d t hm => h.producer m i v b d t (by simpa using hm)
  needed := fun _ _ _ => rfl

theorem needTimeout_eq (dp : Dispatcher V) (module inst : String) :
    ∃ o, needTimeout dp module inst = { dp with timeoutReader := some o } := by
  unfold needTimeout
  split
  · rename_i h
    obtain ⟨o, ho⟩ := Option.isSome_iff_exists.mp h
    exact ⟨o, by rw [← ho]⟩
  · exact ⟨_, rfl⟩

/-! ## What it leaves in the list -/

theorem onDispatcher_spec {name : String} {f : Dispatcher V → Option (Dispatcher V)}
    {disp disp' : List (Dispatcher V)} (hf : ∀ dp dp', f dp = some dp' → dp'.name = dp.name)
    (h : onDispatcher name f disp = some disp') :
    (∃ dp ∈ disp, dp.name = name) ∧ disp'.map (·.name) = disp.map (·.name) ∧
      ∀ dp' ∈ disp', ∃ dp ∈ disp, dp'.name = dp.name ∧
        (dp.name = name → f dp = some dp') ∧ (dp.name ≠ name → dp' = dp) := by
  unfold onDispatcher at h
  split at h
  · rename_i hany
    refine ⟨by simpa using hany, ?_, fun dp' hdp' => ?_⟩
    · have hall := mapM_eq_some.mp h
      clear h hany
      induction hall with
      | nil => rfl
      | @cons dp dp' disp disp' hd _ ih =>
        rw [List.map_cons, List.map_cons, ih]
        congr 1
        split at hd
        · exact hf _ _ hd
        · rw [Option.some.inj hd]
    · obtain ⟨dp, hdp, heq⟩ := mem_of_mapM h hdp'
      split at heq
      · exact ⟨dp, hdp, hf _ _ heq, fun _ => heq, fun hne => absurd ‹_› hne⟩
      · rename_i hne
        cases heq
        exact ⟨dp', hdp, rfl, fun hn => absurd hn hne, fun _ => rfl⟩
  · cases h

/-- A list of dispatchers against the registrations so far. -/
structure RegistryOf (rs : List (Registration V)) (disp : List (Dispatcher V)) : Prop where
  nodup : (disp.map (·.name)).Nodup
  names : ∀ r ∈ rs, r.name ∈ disp.map (·.name)
  entry : ∀ dp ∈ disp, Registered rs dp

theorem RegistryOf.nil : RegistryOf ([] : List (Registration V)) [] where
  nodup := List.nodup_nil
  names := by simp
  entry := by simp

theorem name_unique {disp : List (Dispatcher V)} (h : (disp.map (·.name)).Nodup) {dp dq : Dispatcher V}
    (hdp : dp ∈ disp) (hdq : dq ∈ disp) (hn : dp.name = dq.name) : dp = dq :=
  List.inj_on_of_nodup_map h hdp hdq hn

theorem getDispatcher_names (disp : List (Dispatcher V)) (name : String) (allocCb : Bool) :
    (getDispatcher disp name allocCb).map (·.name) =
      if name ∈ disp.map (·.name) then disp.map (·.name) else disp.map (·.name) ++ [name] := by
  have hsame : ∀ l : List (Dispatcher V),
      (l.map fun dp => if dp.name = name ∧ allocCb then { dp with valueCount := dp.valueCount + 1 } else dp).map
        (·.name) = l.map (·.name) := by
    intro l
    rw [List.map_map]
    refine List.map_congr_left fun dp _ => ?_
    simp only [Function.comp_apply]
    split <;> rfl
  unfold getDispatcher
  simp only [hsame]
  by_cases hm : name ∈ disp.map (·.name)
  · obtain ⟨dp, hdp, hn⟩ := List.mem_map.mp hm
    rw [if_pos hm, if_pos (List.any_eq_true.mpr ⟨dp, hdp, by simpa using hn⟩)]
  · rw [if_neg hm, if_neg, List.map_append]
    · rfl
    · intro hany
      obtain ⟨dp, hdp, hn⟩ := List.any_eq_true.mp hany
      exact hm (List.mem_map.mpr ⟨dp, hdp, by simpa using hn⟩)

theorem RegistryOf.get {rs : List (Registration V)} {disp : List (Dispatcher V)} (h : RegistryOf rs disp)
    (name : String) (allocCb : Bool) :
    RegistryOf (rs ++ [.get name allocCb]) (getDispatcher disp name allocCb) where
  nodup := by
    rw [getDispatcher_names]
    split
    · exact h.nodup
    · rw [List.nodup_append_comm]
      exact List.nodup_cons.mpr ⟨‹_›, h.nodup⟩
  names := by
    intro r hr
    rw [getDispatcher_names]
    rcases List.mem_append.mp hr with hr | hr
    · split
      · exact h.names r hr
      · exact List.mem_append_left _ (h.names r hr)
    · obtain rfl := List.mem_singleton.mp hr
      split
      · assumption
      · exact List.mem_append_right _ (by simp [Registration.name])
  entry := by
    intro dp hdp
    obtain ⟨dq, hdq, rfl⟩ := List.mem_map.mp hdp
    have hq : Registered rs dq := by
      split at hdq
      · exact h.entry dq hdq
      · rename_i hany
        rcases List.mem_append.mp hdq with hdq | hdq
        · exact h.entry dq hdq
        · obtain rfl := List.mem_singleton.mp hdq
          refine Registered.new fun r hr hn => hany ?_
          obtain ⟨dp, hdp, hdn⟩ := List.mem_map.mp (h.names r hr)
          exact List.any_eq_true.mpr ⟨dp, hdp, by simpa [hn] using hdn⟩
    have hq' := hq.skip (r := .get name allocCb) (.inr ⟨_, _, rfl⟩)
    split
    · exact hq'.count _
    · exact hq'

theorem RegistryOf.on {rs : List (Registration V)} {disp disp' : List (Dispatcher V)} (h : RegistryOf rs disp)
    {f : Dispatcher V → Option (Dispatcher V)} (r : Registration V)
    (hf : ∀ dp dp', f dp = some dp' → dp'.name = dp.name)
    (hreg : ∀ dp dp', Registered rs dp → dp.name = r.name → f dp = some dp' → Registered (rs ++ [r]) dp')
    (hon : onDispatcher r.name f disp = some disp') : RegistryOf (rs ++ [r]) disp' := by
  obtain ⟨⟨dp₀, hdp₀, hn₀⟩, hnames, hmem⟩ := onDispatcher_spec hf hon
  refine ⟨hnames ▸ h.nodup, fun r' hr' => ?_, fun dp' hdp' => ?_⟩
  · rw [hnames]
    rcases List.mem_append.mp hr' with hr' | hr'
    · exact h.names r' hr'
    · obtain rfl := List.mem_singleton.mp hr'
      exact List.mem_map.mpr ⟨dp₀, hdp₀, hn₀⟩
  · obtain ⟨dp, hdp, -, hyes, hno⟩ := hmem dp' hdp'
    by_cases hn : dp.name = r.name
    · exact hreg dp dp' (h.entry dp hdp) hn (hyes hn)
    · rw [hno hn]
      exact (h.entry dp hdp).skip (.inl (Ne.symm hn))

theorem setProducer_name {dp dp' : Dispatcher V} {module inst : String} {val : V} {input : Bool} {init : Double}
    {timeout : Int} (h : setProducer dp module inst val input init timeout = some dp') : dp'.name = dp.name := by
  unfold setProducer at h
  split at h
  · cases h
  split at h
  · cases h
  split at h <;> cases h
  rfl

theorem needTimeout_name (dp : Dispatcher V) (module inst : String) :
    (needTimeout dp module inst).name = dp.name := by
  unfold needTimeout
  split <;> rfl

theorem RegistryOf.register {rs : List (Registration V)} {disp disp' : List (Dispatcher V)}
    (h : RegistryOf rs disp) (r : Registration V) (hr : register disp r = some disp') :
    RegistryOf (rs ++ [r]) disp' := by
  cases r with
  | get name allocCb =>
    cases hr
    exact h.get name allocCb
  | produce name module inst val input init timeout =>
    refine h.on (.produce name module inst val input init timeout) (fun _ _ => setProducer_name)
      (fun dp dp' hdp hn hd => ?_) hr
    obtain rfl : dp.name = name := hn
    exact (hdp.setProducer hd).2
  | needTimeout name module inst =>
    refine h.on (.needTimeout name module inst) (fun dp dp' hd => ?_) (fun dp dp' hdp hn hd => ?_) hr
    · exact Option.some.inj hd ▸ needTimeout_name dp module inst
    · obtain rfl : dp.name = name := hn
      obtain ⟨o, ho⟩ := needTimeout_eq dp module inst
      rw [ho] at hd
      cases hd
      exact hdp.reader module inst o

/-- What each registration keeps of what is registered so far, all of them keep. -/
theorem registerAll_keeps {P : List (Registration V) → List (Dispatcher V) → Prop}
    (hstep : ∀ done disp r disp', P done disp → register disp r = some disp' → P (done ++ [r]) disp')
    (done : List (Registration V)) {rs : List (Registration V)} {disp disp' : List (Dispatcher V)} (h : P done disp)
    (hr : registerAll disp rs = some disp') : P (done ++ rs) disp' := by
  induction rs generalizing done disp with
  | nil =>
    cases hr
    rwa [List.append_nil]
  | cons r rs ih =>
    simp only [registerAll, List.foldlM_cons, Option.bind_eq_bind, Option.bind_eq_some_iff] at hr
    obtain ⟨disp₁, hr₁, hr₂⟩ := hr
    rw [List.append_cons]
    exact ih _ (hstep _ _ _ _ h hr₁) hr₂

theorem RegistryOf.registerAll {done rs : List (Registration V)} {disp disp' : List (Dispatcher V)}
    (h : RegistryOf done disp) (hr : registerAll disp rs = some disp') : RegistryOf (done ++ rs) disp' :=
  registerAll_keeps (fun _ _ r _ h => h.register r) done h hr

/-! ## Callbacks -/

def cbsOf (name : String) (cbs : List (String × V)) : List V :=
  cbs.filterMap fun cb => if cb.1 = name then some cb.2 else none

@[simp] theorem mem_cbsOf {name : String} {cbs : List (String × V)} {v : V} :
    v ∈ cbsOf name cbs ↔ (name, v) ∈ cbs := by
  simp only [cbsOf, List.mem_filterMap, Option.ite_none_right_eq_some, Option.some.injEq]
  constructor
  · rintro ⟨⟨n, w⟩, hm, rfl, rfl⟩
    exact hm
  · exact fun hm => ⟨_, hm, rfl, rfl⟩

/-- The slots after the registrations of `vs`. -/
structure Slots (vs : List V) (dp : Dispatcher V) : Prop where
  cbs : dp.valueCbs = vs.map some ++ List.replicate (dp.valueCount - vs.length) none
  pos : dp.valueCbsPos = vs.length
  le : vs.length ≤ dp.valueCount

theorem Slots.register {vs : List V} {dp dp' : Dispatcher V} {v : V} (h : Slots vs dp)
    (hr : registerDispCb dp v = some dp') :
    Slots (vs ++ [v]) dp' ∧ ∃ c p, dp' = { dp with valueCbs := c, valueCbsPos := p } := by
  unfold registerDispCb at hr
  split at hr
  · cases hr
  rename_i hlt
  have hlt : vs.length < dp.valueCount := by rw [h.pos] at hlt; omega
  cases hr
  refine ⟨⟨?_, by simp [h.pos], by simp only [List.length_append, List.length_singleton]; omega⟩, _, _, rfl⟩
  obtain ⟨k, hk⟩ : ∃ k, dp.valueCount - vs.length = k + 1 := ⟨dp.valueCount - vs.length - 1, by omega⟩
  have hk' : dp.valueCount - (vs.length + 1) = k := by omega
  simp only [h.cbs, h.pos, hk, List.replicate_succ]
  rw [List.set_append_right _ _ (by simp)]
  simp [hk']

theorem registerCbs_spec {disp disp' : List (Dispatcher V)} {done cbs : List (String × V)}
    (hs : ∀ dp ∈ disp, Slots (cbsOf dp.name done) dp) (h : registerCbs disp cbs = some disp') :
    disp'.map (·.name) = disp.map (·.name) ∧ (∀ cb ∈ cbs, cb.1 ∈ disp.map (·.name)) ∧
      ∀ dp' ∈ disp', Slots (cbsOf dp'.name (done ++ cbs)) dp' ∧
        ∃ dp ∈ disp, ∃ c p, dp' = { dp with valueCbs := c, valueCbsPos := p } := by
  induction cbs generalizing disp done with
  | nil =>
    cases h
    exact ⟨rfl, by simp, fun dp hdp => ⟨by simpa using hs dp hdp, dp, hdp, _, _, rfl⟩⟩
  | cons cb cbs ih =>
    simp only [registerCbs, List.foldlM_cons, Option.bind_eq_bind, Option.bind_eq_some_iff] at h
    obtain ⟨disp₁, h₁, h₂⟩ := h
    have hname : ∀ dp dp', registerDispCb dp cb.2 = some dp' → dp'.name = dp.name := by
      intro dp dp' hd
      unfold registerDispCb at hd
      split at hd <;> cases hd
      rfl
    obtain ⟨⟨dp₀, hdp₀, hn₀⟩, hnames, hmem⟩ := onDispatcher_spec hname h₁
    have hs₁ : ∀ dp ∈ disp₁, Slots (cbsOf dp.name (done ++ [cb])) dp ∧
        ∃ dp₀ ∈ disp, ∃ c p, dp = { dp₀ with valueCbs := c, valueCbsPos := p } := by
      intro dp hdp
      obtain ⟨dq, hdq, hn, hyes, hno⟩ := hmem dp hdp
      by_cases hc : dq.name = cb.1
      · obtain ⟨hslots, heq⟩ := (hs dq hdq).register (hyes hc)
        refine ⟨?_, dq, hdq, heq⟩
        rw [hn]
        simpa [cbsOf, hc] using hslots
      · rw [hno hc]
        refine ⟨?_, dq, hdq, _, _, rfl⟩
        simpa [cbsOf, Ne.symm hc] using hs dq hdq
    obtain ⟨hn₂, hin₂, hs₂⟩ := ih (fun dp hdp => (hs₁ dp hdp).1) h₂
    refine ⟨hn₂.trans hnames, fun c hc => ?_, fun dp' hdp' => ?_⟩
    · rcases List.mem_cons.mp hc with rfl | hc
      · exact List.mem_map.mpr ⟨dp₀, hdp₀, hn₀⟩
      · exact hnames ▸ hin₂ c hc
    · obtain ⟨hslots, dp, hdp, c, p, rfl⟩ := hs₂ dp' hdp'
      obtain ⟨-, dq, hdq, c', p', rfl⟩ := hs₁ dp hdp
      exact ⟨by simpa using hslots, dq, hdq, c, p, rfl⟩

theorem initDispatcher_names (disp : List (Dispatcher V)) :
    (initDispatcher disp).map (·.name) = disp.map (·.name) := by
  simp [initDispatcher, Function.comp_def]

theorem RegistryOf.slots {rs : List (Registration V)} {disp : List (Dispatcher V)} (h : RegistryOf rs disp) :
    ∀ dp ∈ initDispatcher disp, Slots (cbsOf dp.name []) dp := by
  intro dp hdp
  obtain ⟨dq, hdq, rfl⟩ := List.mem_map.mp hdp
  refine ⟨?_, rfl, by simp [cbsOf]⟩
  simp only [cbsOf, List.filterMap_nil, List.map_nil, List.nil_append, List.length_nil, Nat.sub_zero]
  split
  · rfl
  · rename_i hzero
    rw [(h.entry dq hdq).fresh.1, Nat.eq_zero_of_not_pos hzero]
    rfl

/-! ## Accepted configurations -/

/-- A dispatcher after registrations `rs`, the checks and the callbacks `cbs`. -/
structure Accepted (rs : List (Registration V)) (cbs : List (String × V)) (dp : Dispatcher V) : Prop where
  fresh : dp.deadline = 0 ∧ dp.timedOut = false ∧ dp.received = false ∧ dp.valid = false ∧
    dp.lastValue = dp.initValue
  produced : ∃ module inst val, dp.producerVal = some val ∧
    .produce dp.name module inst val dp.producerInput dp.initValue dp.staleTimeout ∈ rs
  producer : ∀ module inst val input init timeout, .produce dp.name module inst val input init timeout ∈ rs →
    dp.producerVal = some val ∧ dp.producerInput = input ∧ dp.initValue = init ∧ dp.staleTimeout = timeout
  finite : dp.initValue.isfinite = true
  timeout : 0 ≤ dp.staleTimeout
  needed : ∀ module inst, .needTimeout dp.name module inst ∈ rs → dp.producerInput = true →
    0 < dp.staleTimeout
  slots : Slots (cbsOf dp.name cbs) dp

theorem Accepted.mem_valueCbs {rs : List (Registration V)} {cbs : List (String × V)} {dp : Dispatcher V}
    (h : Accepted rs cbs dp) (v : V) : some v ∈ dp.valueCbs ↔ (dp.name, v) ∈ cbs := by
  simp [h.slots.cbs]

theorem accepted {rs : List (Registration V)} {cbs : List (String × V)} {disp disp' : List (Dispatcher V)}
    (hr : registerAll [] rs = some disp) (hcheck : checkDispatchers disp = true)
    (hc : registerCbs (initDispatcher disp) cbs = some disp') :
    disp'.map (·.name) = disp.map (·.name) ∧ (disp'.map (·.name)).Nodup ∧
      (∀ r ∈ rs, r.name ∈ disp'.map (·.name)) ∧
      (∀ cb ∈ cbs, cb.1 ∈ disp'.map (·.name)) ∧ ∀ dp ∈ disp', Accepted rs cbs dp := by
  have hreg := RegistryOf.nil.registerAll hr
  rw [List.nil_append] at hreg
  obtain ⟨hn, hin, hall⟩ := registerCbs_spec hreg.slots hc
  rw [initDispatcher_names] at hn hin
  rw [hn]
  refine ⟨rfl, hreg.nodup, hreg.names, hin, fun dp hdp => ?_⟩
  obtain ⟨hsl, dq, hdq, c, p, rfl⟩ := hall dp hdp
  obtain ⟨d₀, hd₀, rfl⟩ := List.mem_map.mp hdq
  obtain ⟨-, -, hfresh⟩ := (hreg.entry d₀ hd₀).fresh
  have hck := List.all_eq_true.mp hcheck d₀ hd₀
  rw [Bool.and_eq_true, Bool.not_eq_true'] at hck
  obtain ⟨hprod, hneed⟩ := hck
  obtain ⟨o, ho⟩ := Option.isSome_iff_exists.mp hprod
  obtain ⟨m, i, v, hv, hm, hfin, htime⟩ := (hreg.entry d₀ hd₀).produced o ho
  refine ⟨hfresh, ⟨m, i, v, hv, hm⟩, (hreg.entry d₀ hd₀).producer, hfin, htime, fun m' i' hm' hinp => ?_,
    by simpa using hsl⟩
  have hsome := (hreg.entry d₀ hd₀).needed m' i' hm'
  have hinp : d₀.producerInput = true := hinp
  simp only [hsome, hinp, Bool.true_and, beq_eq_false_iff_ne] at hneed
  simp only
  omega

end Uvrgw.Conf
