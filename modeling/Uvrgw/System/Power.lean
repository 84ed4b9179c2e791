import Uvrgw.Conf.Load
import Uvrgw.Dispatch.Watchdog

/-!
# Readers of a power

One input of an accepted configuration with its watchdog, the counters that integrate it and the
meters that serve it. A section of the name is its store and one step for each callback.
-/

namespace Uvrgw.Power

open Uvrgw.Lib Uvrgw.Dispatch Uvrgw.Counters Uvrgw.Sunspec Uvrgw.Conf

structure State where
  wd : Watchdog.State Val
  /-- The calls that the holder of `disp_lock` has still to make; `none` when the lock is free. -/
  firing : Option (List (Call Val)) := none
  counters : List Counter

inductive Act where
  | tick (now : Int)
  | startupRead
  | startupArm
  | disp (f : Double) (valid : Bool)
  | checkRead
  | check
  /-- The next callback of `fire_cbs`; a counter acts with a reading of its own. -/
  | call (now : Int)
  | unlock
  /-- `counter_thread` at a counter, with the reading of its tick. -/
  | counterTick (i : Nat) (now : Int)
  /-- `counter_publish` at a counter. -/
  | counterPublish (i : Nat)
  deriving DecidableEq, Repr

/-- `source_update`, when the callback is one of a counter. -/
def callback (counters : List Counter) (c : Call Val) (now : Int) : List Counter :=
  match c.val with
  | .counter i => counters.modify i fun k => (sourceUpdate k c.f.num c.valid now).1
  | _ => counters

/-- A critical section of `disp_lock` starts. -/
def enter (s : State) (a : Watchdog.Act Val) (calls : List (Call Val)) : Option State :=
  if s.firing = none then
    (Watchdog.step s.wd a).map fun wd => { s with wd := wd, firing := some calls }
  else none

/-- A step that only the watchdog of the name sees. -/
def outside (s : State) (a : Watchdog.Act Val) : Option State :=
  (Watchdog.step s.wd a).map fun wd => { s with wd := wd }

def step (s : State) : Act → Option State
  | .tick now => outside s (.tick now)
  | .startupRead => outside s .startupRead
  | .checkRead => outside s .checkRead
  | .startupArm => enter s .startupArm []
  | .disp f valid =>
    enter s (.disp s.wd.dp.producerVal f valid) (s.wd.dp.dispVal s.wd.clock s.wd.dp.producerVal f valid).2
  | .check => enter s .check (s.wd.check.map fun now => (s.wd.dp.watchdogVisit now).2).toList.flatten
  | .call now =>
    match s.firing with
    | some (c :: calls) => some { s with counters := callback s.counters c now, firing := some calls }
    | _ => none
  | .unlock => if s.firing = some [] then some { s with firing := none } else none
  | .counterTick i now => some { s with counters := s.counters.modify i fun k => (Counters.tick k now).1 }
  | .counterPublish _ => some s

/-- `counter_startup` may have loaded a total or disabled a counter. -/
structure Started (c k : Counter) : Prop where
  source : k.source = c.source
  integrates : k.integratePower = c.integratePower
  power : k.hasPower = false

structure Init (sys : System) (dp : Dispatcher Val) (s : State) : Prop where
  wd : Watchdog.Init s.wd
  dp : s.wd.dp = dp
  firing : s.firing = none
  counters : List.Forall₂ Started sys.counters s.counters

/-! ## Counters -/

theorem tick_fields (c : Counter) (now : Int) :
    (Counters.tick c now).1.integratePower = c.integratePower ∧
      (Counters.tick c now).1.disabled = c.disabled ∧ (Counters.tick c now).1.hasPower = c.hasPower := by
  unfold Counters.tick
  split
  · split
    · obtain ⟨hpow, hint, -, hdis, -⟩ := integrate_keeps c now
      exact ⟨hint, hdis, hpow⟩
    · exact ⟨rfl, rfl, rfl⟩
  · exact ⟨rfl, rfl, rfl⟩

theorem tick_of_noPower {c : Counter} (now : Int) (h : c.hasPower = false) :
    (Counters.tick c now).1 = c := by
  unfold Counters.tick
  split
  · split
    · exact integrate_idle now h
    · rfl
  · rfl

theorem sourceUpdate_invalid {c : Counter} (f : ℚ) (now : Int) (hi : c.integratePower = true) :
    (sourceUpdate c f false now).1 = if c.disabled then c else powerStop c now := by
  unfold sourceUpdate
  split
  · rfl
  · simp

theorem sourceUpdate_fields (c : Counter) (f : ℚ) (valid : Bool) (now : Int) (hi : c.integratePower = true) :
    (sourceUpdate c f valid now).1.integratePower = true ∧
      (sourceUpdate c f valid now).1.disabled = c.disabled := by
  unfold sourceUpdate
  split
  · exact ⟨hi, rfl⟩
  · cases valid
    · obtain ⟨-, hint, -, hdis, -⟩ := integrate_keeps c now
      simpa [powerStop, hint, hdis] using hi
    · simp only [Bool.not_true, Bool.false_eq_true, if_false, powerUpdate]
      split
      · obtain ⟨-, hint, -, hdis, -⟩ := integrate_keeps c now
        simpa [hint, hdis] using hi
      · obtain ⟨-, hint, -, hdis, -⟩ :=
          integrate_keeps { c with accum := 0, lastRead := 0, initialized := true, dirty := true } now
        simpa [hint, hdis] using hi

/-! ## Invariant -/

def Integrates (sys : System) (dp : Dispatcher Val) (i : Nat) : Prop :=
  ∃ c, sys.counters[i]? = some c ∧ c.source = dp.name ∧ c.integratePower = true

def Pending (s : State) (i : Nat) : Prop := ∃ calls, s.firing = some calls ∧ ∃ c ∈ calls, c.val = .counter i

structure Inv (sys : System) (dp : Dispatcher Val) (s : State) : Prop where
  wd : Watchdog.Inv s.wd
  config : s.wd.dp.config = dp.config
  /-- All calls of a section carry the pair that it stored. -/
  calls : ∀ calls, s.firing = some calls → ∀ c ∈ calls, c.valid = s.wd.dp.valid
  counters : ∀ i, Integrates sys dp i → ∀ k, s.counters[i]? = some k →
    k.integratePower = true ∧ (k.disabled = true → k.hasPower = false) ∧
      (k.hasPower = true → s.wd.dp.valid = false → Pending s i)

/-- The name is invalid and none of its counters holds a power. -/
structure Dead (sys : System) (dp : Dispatcher Val) (s : State) : Prop where
  valid : s.wd.dp.valid = false
  counters : ∀ i, Integrates sys dp i → ∀ k, s.counters[i]? = some k → k.hasPower = false

theorem Inv.dead {sys : System} {dp : Dispatcher Val} {s : State} (h : Inv sys dp s)
    (hfree : s.firing = none) (hv : s.wd.dp.valid = false) : Dead sys dp s where
  valid := hv
  counters := fun i hi k hk => by
    by_contra hp
    obtain ⟨calls, hcalls, -⟩ := (h.counters i hi k hk).2.2 (by simpa using hp) hv
    simp [hfree] at hcalls

section Sections

variable {dp : Dispatcher Val}

theorem dispVal_valid {now : Int} {val : Option Val} {f : Double} {valid : Bool} :
    ∀ c ∈ (dp.dispVal now val f valid).2, c.valid = (dp.dispVal now val f valid).1.valid := by
  unfold Dispatcher.dispVal
  split
  · intro c hc
    rw [Dispatcher.fireCbs_valid _ c hc]
    cases valid <;> rfl
  · simp

theorem watchdogVisit_valid {now : Int} :
    ∀ c ∈ (dp.watchdogVisit now).2, c.valid = (dp.watchdogVisit now).1.valid := by
  unfold Dispatcher.watchdogVisit Dispatcher.watchdogCheck
  split
  · split
    · exact fun c hc => Dispatcher.fireCbs_valid _ c hc
    · simp
  · simp

/-- A check that invalidates the name calls every callback. -/
theorem watchdogVisit_mem {now : Int} {v : Val} (hv : some v ∈ dp.valueCbs)
    (hne : some v ≠ dp.producerVal) (hbefore : dp.valid = true) (hafter : (dp.watchdogVisit now).1.valid = false) :
    ∃ c ∈ (dp.watchdogVisit now).2, c.val = v := by
  refine (dp.watchdogVisit_calls now).resolve_left (fun heq => ?_) v hv hne
  have hvalid := congrArg Prod.snd heq
  simp [Dispatcher.getVal, hafter, hbefore] at hvalid

end Sections

/-! ## Steps -/

section Steps

variable {sys : System} {dp : Dispatcher Val} {s t : State}

theorem Inv.init (h : Init sys dp s) (hT : 0 < dp.staleTimeout) (hin : dp.producerInput = true) :
    Inv sys dp s where
  wd := Watchdog.Inv.init h.wd (h.dp ▸ hT) (h.dp ▸ hin)
  config := by rw [h.dp]
  calls := by simp [h.firing]
  counters := by
    rintro i ⟨c, hc, -, hi⟩ k hk
    have hst := List.forall₂_iff_get.mp h.counters
    obtain ⟨hlt, rfl⟩ := List.getElem?_eq_some_iff.mp hc
    obtain ⟨hlt', rfl⟩ := List.getElem?_eq_some_iff.mp hk
    obtain ⟨-, hint, hpow⟩ := hst.2 i hlt hlt'
    simp only [List.get_eq_getElem] at hint hpow
    rw [hint, hpow]
    exact ⟨hi, fun _ => rfl, by simp⟩

theorem Inv.outside {a : Watchdog.Act Val} (h : Inv sys dp s)
    (hdp : ∀ wd, Watchdog.step s.wd a = some wd → wd.dp = s.wd.dp) (hst : outside s a = some t) :
    Inv sys dp t := by
  obtain ⟨wd, hwd, rfl⟩ := Option.map_eq_some_iff.mp hst
  have heq := hdp wd hwd
  exact
    { wd := h.wd.step a hwd
      config := heq ▸ h.config
      calls := heq ▸ h.calls
      counters := heq ▸ h.counters }

/-- A section that invalidates the name has all counters on its list. -/
theorem Inv.enter {a : Watchdog.Act Val} {calls : List (Call Val)} (h : Inv sys dp s)
    (hcalls : ∀ wd, Watchdog.step s.wd a = some wd → (∀ c ∈ calls, c.valid = wd.dp.valid) ∧
      (s.wd.dp.valid = true → wd.dp.valid = false → ∀ i, Integrates sys dp i →
        ∃ c ∈ calls, c.val = .counter i))
    (hst : enter s a calls = some t) : Inv sys dp t := by
  unfold Power.enter at hst
  split at hst
  · rename_i hfree
    obtain ⟨wd, hwd, rfl⟩ := Option.map_eq_some_iff.mp hst
    obtain ⟨hvalid, hall⟩ := hcalls wd hwd
    refine
      { wd := h.wd.step a hwd
        config := (Watchdog.step_config a hwd).trans h.config
        calls := ?_
        counters := fun i hi k hk => ?_ }
    · rintro _ ⟨⟩
      exact hvalid
    · obtain ⟨hint, hdis, hheld⟩ := h.counters i hi k hk
      refine ⟨hint, hdis, fun hp hv => ⟨calls, rfl, ?_⟩⟩
      cases hb : s.wd.dp.valid with
      | true => exact hall hb hv i hi
      | false =>
        obtain ⟨_, hsome, -⟩ := hheld hp hb
        simp [hfree] at hsome
  · cases hst

theorem Inv.call {c : Call Val} {calls : List (Call Val)} (h : Inv sys dp s) (now : Int)
    (hf : s.firing = some (c :: calls)) :
    Inv sys dp { s with counters := callback s.counters c now, firing := some calls } where
  wd := h.wd
  config := h.config
  calls := by
    rintro _ ⟨⟩ c' hc'
    exact h.calls _ hf c' (List.mem_cons_of_mem _ hc')
  counters := fun i hi k' hk' => by
    by_cases hval : c.val = .counter i
    · -- the call of this counter: a reset takes its power
      simp only [callback, hval] at hk'
      obtain ⟨k, hk, rfl⟩ := getElem?_modify_eq_some.mp hk'
      rw [if_pos rfl]
      obtain ⟨hint, hdis, -⟩ := h.counters i hi k hk
      obtain ⟨hint', hdis'⟩ := sourceUpdate_fields k c.f.num c.valid now hint
      refine ⟨hint', fun hd => ?_, fun hp hv => ?_⟩
      · rw [hdis'] at hd
        simp [sourceUpdate, hd, hdis hd]
      · rw [h.calls _ hf c (List.mem_cons_self ..), hv, sourceUpdate_invalid _ _ hint] at hp
        split at hp
        · rename_i hd
          simp [hdis hd] at hp
        · simp [powerStop] at hp
    · have hsame : (callback s.counters c now)[i]? = s.counters[i]? := by
        unfold callback
        split
        · rename_i j hj
          have hne : j ≠ i := by
            rintro rfl
            exact hval hj
          simp [hne]
        · rfl
      obtain ⟨hint, hdis, hheld⟩ := h.counters i hi k' (hsame ▸ hk')
      refine ⟨hint, hdis, fun hp hv => ?_⟩
      obtain ⟨_, hsome, c', hc', hval'⟩ := hheld hp hv
      obtain rfl := Option.some.inj (hf.symm.trans hsome)
      refine ⟨calls, rfl, c', (List.mem_cons.mp hc').resolve_left ?_, hval'⟩
      rintro rfl
      exact hval hval'

theorem Inv.counterTick (h : Inv sys dp s) (j : Nat) (now : Int) :
    Inv sys dp { s with counters := s.counters.modify j fun k => (Counters.tick k now).1 } :=
  { h with
    counters := fun i hi k' hk' => by
      obtain ⟨k, hk, rfl⟩ := getElem?_modify_eq_some.mp hk'
      obtain ⟨hint, hdis, hpow⟩ := tick_fields k now
      have hbefore := h.counters i hi k hk
      split
      · rw [hint, hdis, hpow]
        exact hbefore
      · exact hbefore }

theorem Inv.step {conf : Config} (hl : Loaded conf sys dp) (a : Act) (h : Inv sys dp s)
    (hst : step s a = some t) : Inv sys dp t := by
  cases a with
  | tick now | startupRead | checkRead =>
    refine h.outside (fun wd hwd => ?_) hst
    obtain ⟨-, rfl⟩ := by simpa [Watchdog.step] using hwd
    rfl
  | startupArm =>
    refine h.enter (fun wd hwd => ⟨by simp, fun hb hv => ?_⟩) hst
    simp only [Watchdog.step] at hwd
    split at hwd <;> cases hwd
    unfold Dispatcher.startupArm at hv
    split at hv <;> simp [hb] at hv
  | disp f valid =>
    refine h.enter (fun wd hwd => ?_) hst
    obtain ⟨hin, rfl⟩ := by simpa [Watchdog.step] using hwd
    obtain rfl := hin h.wd.input
    refine ⟨dispVal_valid, fun hb hv => ?_⟩
    cases hf : f.isfinite with
    | true => simp [Watchdog.dispVal_valid _ _ _ _ hf h.wd.timeout] at hv
    | false => simp [Watchdog.dispVal_skip _ _ _ _ _ hf, hb] at hv
  | check =>
    refine h.enter (fun wd hwd => ?_) hst
    simp only [Watchdog.step] at hwd
    split at hwd <;> cases hwd
    rename_i now hc
    simp only [hc, Option.map_some, Option.toList_some, List.flatten_singleton]
    refine ⟨watchdogVisit_valid, fun hb hv i hi => ?_⟩
    obtain ⟨c, hc, hs, -⟩ := hi
    have hmem := (hl.cbs (.counter i)).mpr ⟨c, hc, hs⟩
    obtain ⟨-, -, -, hprod, hcbs⟩ := Dispatcher.config_fields h.config
    exact watchdogVisit_mem (hcbs ▸ hmem) (hprod ▸ hl.others _ hmem) hb hv
  | call now =>
    simp only [Power.step] at hst
    split at hst <;> cases hst
    exact h.call now ‹_›
  | unlock =>
    obtain ⟨hf, rfl⟩ := by simpa [Power.step] using hst
    refine { h with calls := by simp, counters := fun i hi k hk => ?_ }
    obtain ⟨hint, hdis, hheld⟩ := h.counters i hi k hk
    refine ⟨hint, hdis, fun hp hv => ?_⟩
    obtain ⟨_, hsome, c, hc, -⟩ := hheld hp hv
    obtain rfl := Option.some.inj (hf.symm.trans hsome)
    cases hc
  | counterTick i now =>
    cases hst
    exact h.counterTick i now
  | counterPublish i =>
    cases hst
    exact h

/-! ## A dead name -/

def total (s : State) (i : Nat) : Option ℚ := s.counters[i]?.map (·.accum)

def ValidDisp (a : Act) : Prop := ∃ f, f.isfinite = true ∧ a = .disp f true

theorem Dead.of_valid (h : Dead sys dp s) (hc : t.counters = s.counters) (hv : t.wd.dp.valid = false) :
    Dead sys dp t ∧ ∀ i, total t i = total s i :=
  ⟨⟨hv, hc ▸ h.counters⟩, fun i => by rw [total, total, hc]⟩

theorem Dead.outside {a : Watchdog.Act Val} (h : Dead sys dp s)
    (hv : ∀ wd, Watchdog.step s.wd a = some wd → wd.dp.valid = false) (hst : outside s a = some t) :
    Dead sys dp t ∧ ∀ i, total t i = total s i := by
  obtain ⟨wd, hwd, rfl⟩ := Option.map_eq_some_iff.mp hst
  exact h.of_valid rfl (hv wd hwd)

theorem Dead.enter {a : Watchdog.Act Val} {calls : List (Call Val)} (h : Dead sys dp s)
    (hv : ∀ wd, Watchdog.step s.wd a = some wd → wd.dp.valid = false) (hst : enter s a calls = some t) :
    Dead sys dp t ∧ ∀ i, total t i = total s i := by
  unfold Power.enter at hst
  split at hst
  · obtain ⟨wd, hwd, rfl⟩ := Option.map_eq_some_iff.mp hst
    exact h.of_valid rfl (hv wd hwd)
  · cases hst

theorem sourceUpdate_dead {k : Counter} (f : ℚ) (now : Int) (hi : k.integratePower = true)
    (hp : k.hasPower = false) :
    (sourceUpdate k f false now).1.hasPower = false ∧ (sourceUpdate k f false now).1.accum = k.accum := by
  rw [sourceUpdate_invalid f now hi]
  split
  · exact ⟨hp, rfl⟩
  · simp [powerStop, integrate_idle now hp]

theorem Dead.modify (h : Dead sys dp s) (j : Nat) (g : Counter → Counter)
    (hg : ∀ i, Integrates sys dp i → i = j → ∀ k, s.counters[i]? = some k → k.hasPower = false →
      (g k).hasPower = false ∧ (g k).accum = k.accum) (firing : Option (List (Call Val))) :
    Dead sys dp { s with counters := s.counters.modify j g, firing := firing } ∧
      ∀ i, Integrates sys dp i → (s.counters.modify j g)[i]?.map (·.accum) = total s i := by
  constructor
  · refine ⟨h.valid, fun i hi k' hk' => ?_⟩
    obtain ⟨k, hk, rfl⟩ := getElem?_modify_eq_some.mp hk'
    split
    · rename_i hji
      exact (hg i hi hji.symm k hk (h.counters i hi k hk)).1
    · exact h.counters i hi k hk
  · intro i hi
    rw [List.getElem?_modify, total]
    cases hk : s.counters[i]? with
    | none => rfl
    | some k =>
      simp only [Option.map_eq_map, Option.map_some, Option.some.injEq]
      split
      · rename_i hji
        exact (hg i hi hji.symm k hk (h.counters i hi k hk)).2
      · rfl

theorem Dead.step (a : Act) (hinv : Inv sys dp s) (h : Dead sys dp s) (ha : ¬ ValidDisp a)
    (hst : step s a = some t) : Dead sys dp t ∧ ∀ i, Integrates sys dp i → total t i = total s i := by
  cases a with
  | tick now | startupRead | checkRead =>
    refine (h.outside (fun wd hwd => ?_) hst).imp_right fun ht i _ => ht i
    obtain ⟨-, rfl⟩ := by simpa [Watchdog.step] using hwd
    exact h.valid
  | startupArm =>
    refine (h.enter (fun wd hwd => ?_) hst).imp_right fun ht i _ => ht i
    simp only [Watchdog.step] at hwd
    split at hwd <;> cases hwd
    unfold Dispatcher.startupArm
    split <;> exact h.valid
  | disp f valid =>
    refine (h.enter (fun wd hwd => ?_) hst).imp_right fun ht i _ => ht i
    obtain ⟨hin, rfl⟩ := by simpa [Watchdog.step] using hwd
    obtain rfl := hin hinv.wd.input
    have hf : f.isfinite = false := by
      by_contra hf
      exact ha ⟨f, by simpa using hf, rfl⟩
    simpa [Watchdog.dispVal_skip _ _ _ _ _ hf] using h.valid
  | check =>
    refine (h.enter (fun wd hwd => ?_) hst).imp_right fun ht i _ => ht i
    simp only [Watchdog.step] at hwd
    split at hwd <;> cases hwd
    rename_i now hc
    unfold Dispatcher.watchdogVisit Dispatcher.watchdogCheck
    split
    · split
      · rfl
      · exact h.valid
    · exact h.valid
  | call now =>
    simp only [Power.step] at hst
    split at hst <;> cases hst
    rename_i c calls hf
    have hv : c.valid = false := (hinv.calls _ hf c (List.mem_cons_self ..)).trans h.valid
    unfold callback
    split
    · rename_i j hj
      refine h.modify j _ (fun i hi _ k hk hp => ?_) (some calls)
      rw [hv]
      exact sourceUpdate_dead _ now (hinv.counters i hi k hk).1 hp
    · exact ⟨⟨h.valid, h.counters⟩, fun i _ => rfl⟩
  | unlock =>
    obtain ⟨-, rfl⟩ := by simpa [Power.step] using hst
    exact ⟨⟨h.valid, h.counters⟩, fun i _ => rfl⟩
  | counterTick j now =>
    cases hst
    refine h.modify j _ (fun i hi _ k hk hp => ?_) s.firing
    rw [tick_of_noPower now hp]
    exact ⟨hp, rfl⟩
  | counterPublish j =>
    cases hst
    exact ⟨h, fun i _ => rfl⟩

theorem Dead.run {conf : Config} (hl : Loaded conf sys dp) {l : List Act} (hinv : Inv sys dp s)
    (h : Dead sys dp s) (hl' : ∀ a ∈ l, ¬ ValidDisp a) (hrun : Run Power.step s l t) :
    Dead sys dp t ∧ ∀ i, Integrates sys dp i → total t i = total s i := by
  induction l generalizing s with
  | nil =>
    obtain rfl := (run_nil s t).mp hrun
    exact ⟨h, fun _ _ => rfl⟩
  | cons a l ih =>
    obtain ⟨u, hu, hrun⟩ := (run_cons s a l t).mp hrun
    obtain ⟨hdead, htot⟩ := h.step a hinv (hl' a (List.mem_cons_self ..)) hu
    obtain ⟨hend, htot'⟩ :=
      ih (hinv.step hl a hu) hdead (fun b hb => hl' b (List.mem_cons_of_mem _ hb)) hrun
    exact ⟨hend, fun i hi => (htot' i hi).trans (htot i hi)⟩

end Steps

/-- A check with a reading past the timeout leaves the name dead. -/
theorem dead_after_check {conf : Config} {sys : System} {dp : Dispatcher Val} {s₀ s : State} {l : List Act}
    {now : Int} (hl : Loaded conf sys dp) (hin : dp.producerInput = true) (hT : 0 < dp.staleTimeout)
    (hinit : Init sys dp s₀) (hrun : Run step s₀ l s) (hchecked : .checked now ∈ s.wd.log)
    (hlate : ∀ t₀, Watchdog.lastData s.wd.log = some t₀ → t₀ + dp.staleTimeout ≤ now)
    (hfree : s.firing = none) : Inv sys dp s ∧ Dead sys dp s := by
  have hinv : Inv sys dp s :=
    hrun.invariant (fun _ a _ hu huv => hu.step hl a huv) (Inv.init hinit hT hin)
  refine ⟨hinv, hinv.dead hfree ?_⟩
  by_contra hv
  obtain ⟨t₀, hdata, hlt⟩ := hinv.wd.checks now hchecked (by simpa using hv)
  obtain ⟨hto, -⟩ := Dispatcher.config_fields hinv.config
  have := hlate t₀ hdata
  omega

/-- **A dead power source is not used.** After a watchdog check whose reading is past the timeout of
the last valid dispatch, and until the next valid dispatch, the counters that integrate the name keep
their totals and the meters that take a power from it refuse every request. -/
theorem dead_power_unused (conf : Config) (sys : System) (hload : load conf = some sys)
    (dp : Dispatcher Val) (hdp : dp ∈ sys.disp) (hin : dp.producerInput = true) (s₀ s t : State)
    (l₁ l₂ : List Act) (now : Int) (hinit : Init sys dp s₀) (hrun₁ : Run step s₀ l₁ s)
    (hchecked : .checked now ∈ s.wd.log)
    (hlate : ∀ t₀, Watchdog.lastData s.wd.log = some t₀ → t₀ + dp.staleTimeout ≤ now)
    (hfree : s.firing = none) (hrun₂ : Run step s l₂ t) (hquiet : ∀ a ∈ l₂, ¬ ValidDisp a) :
    (∀ i c, sys.counters[i]? = some c → c.source = dp.name → c.integratePower = true →
      total t i = total s i) ∧
    (∀ m ∈ sys.meters, ∀ src : Src, src.isPower = true → m.src src = some dp.name →
      ∀ (math : Math) (m' : Meter) (read : Src → ℚ × Bool), m'.src = m.src →
        read src = (t.wd.dp.getVal.1.num, t.wd.dp.getVal.2) → (updateImage math m' read).2 = -1) := by
  have hl := (load_spec hload).entry dp hdp
  constructor
  · intro i c hc hs hp
    have hT := hl.counter c (List.mem_of_getElem? hc) hs hp hin
    obtain ⟨hinv, hdead⟩ := dead_after_check hl hin hT hinit hrun₁ hchecked hlate hfree
    exact (hdead.run hl hinv hquiet hrun₂).2 i ⟨c, hc, hs, hp⟩
  · intro m hm src hp hs math m' read hm' hread
    have hT := hl.meter m hm src hs hp hin
    obtain ⟨hinv, hdead⟩ := dead_after_check hl hin hT hinit hrun₁ hchecked hlate hfree
    have hv := (hdead.run hl hinv hquiet hrun₂).1.valid
    refine (updateImage_invalid math m' read src (by rw [hm', hs]; rfl) ?_).1
    rw [hread]
    exact hv

/-- An input that a counter integrates and a meter serves. -/
def meterConfig : Config where
  can := [{ inst := "can0", groups := [{ dir := .input, values := [{ title := "p", staleTimeout := some 10 }] }] }]
  sunspec := [[{ name := "m", unitId := 1, src := fun s => if s = .power then some "p" else none }]]
  counters := [{ title := "e", source := some "p", integratePower := true }]

def meterSystem : System := (load meterConfig).get (by rfl)

def deadInit : State where
  wd := { dp := meterSystem.disp.head (by decide), clock := 1 }
  counters := meterSystem.counters

/-- Data at 5, and a check at 20 with its reset. -/
def deadActs : List Act :=
  [.startupRead, .startupArm, .unlock, .tick 5, .disp (.fin 3600000) true, .call 6, .unlock, .tick 20,
    .checkRead, .check, .call 21, .unlock]

def deadMid : State := (deadActs.foldlM step deadInit).get (by rfl)

def deadEnd : State := ([.counterTick 0 30, .tick 40, .counterTick 0 50].foldlM step deadMid).get (by rfl)

theorem dead_power_unused_example :
    total deadEnd 0 = some 15 ∧
      ∀ math : Math, (updateImage math (meterSystem.meters.head (by decide)) fun _ => (0, false)).2 = -1 := by
  have h := dead_power_unused meterConfig meterSystem (Option.some_get _).symm
    (meterSystem.disp.head (by decide)) (List.head_mem _) rfl deadInit deadMid deadEnd deadActs
    [.counterTick 0 30, .tick 40, .counterTick 0 50] 20
    ⟨⟨by decide, rfl, rfl, rfl, rfl, rfl⟩, rfl, rfl, .cons ⟨rfl, rfl, rfl⟩ .nil⟩
    (Option.some_get _).symm (by decide) (by decide) rfl (Option.some_get _).symm (by simp [ValidDisp])
  have htotal := h.1 0 _ rfl rfl rfl
  exact ⟨htotal.trans (by decide +kernel), fun math => h.2 _ (List.head_mem _) .power rfl rfl math _ _ rfl rfl⟩

end Uvrgw.Power
