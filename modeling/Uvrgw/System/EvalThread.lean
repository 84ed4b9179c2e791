import Uvrgw.Evals.Steps
import Uvrgw.System.Delivery

/-!
# The eval thread (`eval.c`)

All names, all evals and the thread of `eval.c`. A section of a name is its store and one step for
each callback; the pair is stored and read as one, as `Section.lean` shows. `next_due` only decides how long the
thread waits and is left out.
-/

namespace Uvrgw.EvalThread

open Uvrgw.Lib Uvrgw.Dispatch Uvrgw.Evals Uvrgw.Conf

/-- Where `eval_thread` is. -/
inductive Pc where
  /-- Before `eval_startup`. -/
  | off
  /-- The thread is created and has not got `lock` yet. -/
  | start
  /-- In the wait for `cond`. -/
  | wait
  /-- At an eval of a pass, with `now` and `evaluated`; the thread holds `lock`. -/
  | scan (i : Nat) (now : Int) (evaluated : Bool)
  /-- `evaluate` of eval `i` is about to read input `k`. -/
  | refresh (i k : Nat) (now : Int)
  /-- `evaluate` of eval `i` is about to publish value `j`. -/
  | publish (i j : Nat)
  /-- It is in the section of this value. -/
  | publishing (i j : Nat)
  deriving DecidableEq, Repr

def Pc.holdsLock : Pc → Bool
  | scan .. => true
  | _ => false

def Pc.published : Pc → Pc
  | publishing i j => publish i (j + 1)
  | pc => pc

structure State where
  names : String → Dispatcher Val
  /-- The holder of `disp_lock`: whether it is the eval thread, and the calls it has still to make. -/
  firing : String → Option (Bool × List (Call Val)) := fun _ => none
  evals : List Eval
  pc : Pc := .off
  /-- The numbers and flags of the last evaluation of each eval. -/
  used : Nat → Option (List (Double × Bool)) := fun _ => none

inductive Act where
  /-- `uvrgw_conf_disp_val` in a thread of a source. -/
  | disp (name : String) (now : Int) (f : Double) (valid : Bool)
  /-- `watchdog_thread` at a name. -/
  | check (name : String) (now : Int)
  /-- `uvrgw_conf_startup` at a name. -/
  | arm (name : String) (now : Int)
  /-- The next callback of `fire_cbs`. -/
  | call (name : String)
  | unlock (name : String)
  /-- `eval_startup`. -/
  | startup (now : Int)
  /-- The next step of `eval_thread`, with the reading that it takes. -/
  | thread (now : Int)
  deriving DecidableEq, Repr

/-- A section of `name` starts and stores. -/
def enter (s : State) (name : String) (own : Bool) (r : Dispatcher Val × List (Call Val)) (pc : Pc) :
    Option State :=
  if s.firing name = none then
    some { s with
      names := Function.update s.names name r.1
      firing := Function.update s.firing name (some (own, r.2))
      pc := pc }
  else none

/-- `eval_thread` and `evaluate`. -/
def threadStep (s : State) (now : Int) : Option State :=
  match s.pc with
  | .off | .publishing .. => none
  | .start | .wait => some { s with pc := .scan 0 now false }
  | .scan i reading evaluated =>
    match s.evals[i]? with
    | none => some { s with pc := if evaluated then .scan 0 now false else .wait }
    | some e =>
      if 0 < e.period then
        if e.next ≤ reading then
          some { s with
            evals := s.evals.modify i fun e =>
              { e with next := e.next + ((reading - e.next) / e.period + 1) * e.period }
            pc := .refresh i 0 now }
        else some { s with pc := .scan (i + 1) reading evaluated }
      else if e.pending then
        some { s with
          evals := s.evals.modify i fun e => { e with pending := false }
          pc := .refresh i 0 now }
      else some { s with pc := .scan (i + 1) reading evaluated }
  | .refresh i k reading =>
    match s.evals[i]? with
    | none => none
    | some e =>
      match e.ins[k]? with
      | some input =>
        some { s with
          evals := s.evals.modify i fun e => e.refreshOne k input (s.names input.disp).getVal
          pc := .refresh i (k + 1) reading }
      | none =>
        some { s with
          evals := s.evals.modify i fun e => e.compute reading
          used := Function.update s.used i (some e.snapshot)
          pc := .publish i 0 }
  | .publish i j =>
    match s.evals[i]? with
    | none => none
    | some e =>
      match e.values[j]? with
      | none => some { s with pc := .scan (i + 1) now true }
      | some v =>
        match v.disp with
        | none => some { s with pc := .publish i (j + 1) }
        | some name =>
          enter s name true
            ((s.names name).dispVal now (some (.eval i)) (e.slots.getD v.slot .nan) v.valid) (.publishing i j)

def step (s : State) : Act → Option State
  | .disp name now f valid =>
    enter s name false ((s.names name).dispVal now (s.names name).producerVal f valid) s.pc
  | .check name now => enter s name false ((s.names name).watchdogVisit now) s.pc
  | .arm name now => enter s name false ((s.names name).startupArm now, []) s.pc
  | .call name =>
    match s.firing name with
    | some (own, c :: calls) =>
      let firing := Function.update s.firing name (some (own, calls))
      match c.val with
      | .eval i =>
        -- `trigger_update` needs the lock of the module
        if s.pc.holdsLock then none
        else some { s with evals := s.evals.modify i fun e => { e with pending := true }, firing := firing }
      | _ => some { s with firing := firing }
    | _ => none
  | .unlock name =>
    match s.firing name with
    | some (own, []) =>
      some { s with
        firing := Function.update s.firing name none
        pc := if own then s.pc.published else s.pc }
    | _ => none
  | .startup now =>
    if s.pc = .off then
      some { s with evals := s.evals.map fun e => { e with pending := true, next := now }, pc := .start }
    else none
  | .thread now => threadStep s now

def start (sys : System) : State where
  names := sys.dispatcher
  evals := sys.evals

/-! ## Invariant -/

/-- Input `k` of eval `i` is read before the eval is computed the next time. -/
def Pc.unread : Pc → Nat → Nat → Prop
  | off, _, _ => True
  | refresh i k' _, j, k => i = j ∧ k' ≤ k
  | _, _, _ => False

/-- Eval `i` has still to be computed, for the first time or in the running evaluation. -/
def Pc.evaluating : Pc → Nat → Prop
  | off, _ => True
  | refresh i _ _, j => i = j
  | _, _ => False

def Called (firing : String → Option (Bool × List (Call Val))) (i : Nat) (name : String) : Prop :=
  ∃ own calls, firing name = some (own, calls) ∧ ∃ c ∈ calls, c.val = .eval i

/-- No update of input `k` is lost: eval `i` has the stored pair, or something is on its way. -/
def Fresh (s : State) (i : Nat) (e : Eval) (k : Nat) (input : EvalIn) : Prop :=
  e.snapshot[k]? = some (s.names input.disp).getVal ∨ e.pending = true ∨
    Called s.firing i input.disp ∨ s.pc.unread i k

structure Inv (sys : System) (s : State) : Prop where
  names : ∀ name, (s.names name).config = (sys.dispatcher name).config
  evals : ∀ (i : Nat) e, s.evals[i]? = some e → ∃ e₀, sys.evals[i]? = some e₀ ∧ e.config = e₀.config
  fresh : ∀ (i : Nat) e, s.evals[i]? = some e → e.period ≤ 0 → ∀ (k : Nat) input, e.ins[k]? = some input →
    input.disp ∈ e.triggers → Fresh s i e k input
  used : ∀ (i : Nat) e, s.evals[i]? = some e → e.period ≤ 0 →
    s.used i = some e.snapshot ∨ e.pending = true ∨ s.pc.evaluating i

theorem config_fields {e e' : Eval} (h : e.config = e'.config) :
    e.triggers = e'.triggers ∧ e.explicitTriggers = e'.explicitTriggers ∧ e.period = e'.period ∧
      e.ins.map (fun i => (i.disp, i.slot)) = e'.ins.map (fun i => (i.disp, i.slot)) ∧
      e.values.map (fun v => (v.disp, v.slot)) = e'.values.map fun v => (v.disp, v.slot) := by
  simp only [Eval.config, Prod.mk.injEq] at h
  exact ⟨h.1, h.2.1, h.2.2.1, h.2.2.2.1, h.2.2.2.2.1⟩

section Steps

variable {conf : Config} {sys : System} {s t : State}

theorem Inv.init (sys : System) : Inv sys (start sys) where
  names := fun _ => rfl
  evals := fun _ e he => ⟨e, he, rfl⟩
  fresh := fun _ _ _ _ _ _ _ _ => .inr (.inr (.inr trivial))
  used := fun _ _ _ _ => .inr (.inr trivial)

theorem Inv.fit (h : Inv sys s) (hsys : LoadedSystem conf sys) {i : Nat} {e : Eval}
    (he : s.evals[i]? = some e) : e.Fit := by
  obtain ⟨e₀, he₀, hc⟩ := h.evals i e he
  obtain ⟨_, _, hconf, -⟩ := hsys.evals i e₀ he₀
  exact hconf.fit.of_config hc

theorem Inv.trigger (h : Inv sys s) (hsys : LoadedSystem conf sys) {i : Nat} {e : Eval} {name : String}
    (he : s.evals[i]? = some e) (hname : name ∈ e.triggers) :
    some (.eval i) ∈ (s.names name).valueCbs ∧ some (.eval i) ≠ (s.names name).producerVal := by
  obtain ⟨e₀, he₀, hc⟩ := h.evals i e he
  have hl : Listens conf sys.counters sys.evals name (.eval i) :=
    ⟨e₀, he₀, (config_fields hc).1 ▸ hname⟩
  obtain ⟨dp, hdp, rfl⟩ := List.mem_map.mp (hsys.listed name _ hl)
  have hentry := hsys.entry dp hdp
  obtain ⟨-, -, -, hprod, hcbs⟩ := Dispatcher.config_fields (h.names dp.name)
  rw [hcbs, hprod, hsys.dispatcher hdp]
  have hmem := (hentry.cbs (.eval i)).mpr hl
  exact ⟨hmem, hentry.others _ hmem⟩

/-- An eval is not triggered by what it publishes. -/
theorem Inv.not_own (h : Inv sys s) (hsys : LoadedSystem conf sys) {i : Nat} {e : Eval} {v : EvalVal}
    {name : String} (he : s.evals[i]? = some e) (hv : v ∈ e.values) (hd : v.disp = some name) :
    name ∉ e.triggers := by
  intro hname
  obtain ⟨e₀, he₀, hc⟩ := h.evals i e he
  obtain ⟨_, _, hconf, -⟩ := hsys.evals i e₀ he₀
  obtain ⟨htrig, -, -, -, hvals⟩ := config_fields hc
  have hmem : (v.disp, v.slot) ∈ e₀.values.map fun v => (v.disp, v.slot) :=
    hvals ▸ List.mem_map.mpr ⟨v, hv, rfl⟩
  obtain ⟨w, hw, heq⟩ := List.mem_map.mp hmem
  have hwd : w.disp = some name := (Prod.mk.inj heq).1.trans hd
  have hnone := findValue_isNone.mp (hconf.foreign name (htrig ▸ hname)).1
  exact hnone (List.mem_map.mpr ⟨w, hw, (hconf.published w hw name hwd).symm⟩)

/-- A section that stores a pair has all evals that the name triggers on its list. -/
theorem Inv.enter (h : Inv sys s) (hsys : LoadedSystem conf sys) {name : String} {own : Bool}
    {val : Option Val} {r : Dispatcher Val × List (Call Val)} {pc : Pc}
    (hconf : r.1.config = (s.names name).config)
    (hcalls : r.1.getVal = (s.names name).getVal ∨
      ∀ v, some v ∈ (s.names name).valueCbs → some v ≠ val → ∃ c ∈ r.2, c.val = v)
    (hval : ∀ (i : Nat) e, s.evals[i]? = some e → name ∈ e.triggers → some (.eval i) ≠ val)
    (hpc : ∀ i k, s.pc.unread i k → pc.unread i k) (hpc' : ∀ i, s.pc.evaluating i → pc.evaluating i)
    (hst : enter s name own r pc = some t) : Inv sys t := by
  unfold EvalThread.enter at hst
  split at hst <;> cases hst
  rename_i hfree
  refine ⟨fun n => ?_, h.evals, fun i e he hp k input hk htrig => ?_, fun i e he hp => ?_⟩
  · by_cases hn : n = name
    · subst hn
      simp only [Function.update_self]
      exact hconf.trans (h.names n)
    · simp only [Function.update_of_ne hn]
      exact h.names n
  · have hbefore := h.fresh i e he hp k input hk htrig
    unfold Fresh Called at hbefore ⊢
    by_cases hn : input.disp = name
    · simp only [hn, Function.update_self, hfree] at hbefore ⊢
      rcases hcalls with hsame | hall
      · rw [hsame]
        rcases hbefore with hb | hb | ⟨_, _, hb, -⟩ | hb
        · exact .inl hb
        · exact .inr (.inl hb)
        · cases hb
        · exact .inr (.inr (.inr (hpc i k hb)))
      · rw [hn] at htrig
        exact .inr (.inr (.inl ⟨own, r.2, rfl,
          hall _ (h.trigger hsys he htrig).1 (hval i e he htrig)⟩))
    · simp only [Function.update_of_ne hn]
      exact hbefore.imp_right (.imp_right (.imp_right (hpc i k)))
  · exact (h.used i e he hp).imp_right (.imp_right (hpc' i))

theorem Inv.modify (h : Inv sys s) {i : Nat} {g : Eval → Eval} {pc : Pc}
    {used : Nat → Option (List (Double × Bool))}
    (hconf : ∀ e, s.evals[i]? = some e → (g e).config = e.config)
    (hpc : ∀ j k, j ≠ i → s.pc.unread j k → pc.unread j k)
    (hpc' : ∀ j, j ≠ i → s.pc.evaluating j → pc.evaluating j) (hused : ∀ j, j ≠ i → used j = s.used j)
    (hfresh : ∀ e, s.evals[i]? = some e → e.period ≤ 0 → ∀ (k : Nat) input input', e.ins[k]? = some input →
      (g e).ins[k]? = some input' → input'.disp = input.disp → input.disp ∈ e.triggers →
      (g e).snapshot[k]? = some (s.names input.disp).getVal ∨ (g e).pending = true ∨
        Called s.firing i input.disp ∨ pc.unread i k)
    (hself : ∀ e, s.evals[i]? = some e → e.period ≤ 0 →
      used i = some (g e).snapshot ∨ (g e).pending = true ∨ pc.evaluating i) :
    Inv sys { s with evals := s.evals.modify i g, pc := pc, used := used } := by
  refine ⟨h.names, fun j e' he' => ?_, fun j e' he' hp k input' hk htrig => ?_, fun j e' he' hp => ?_⟩
  · obtain ⟨e, he, rfl⟩ := getElem?_modify_eq_some.mp he'
    obtain ⟨e₀, he₀, hc⟩ := h.evals j e he
    split
    · rename_i hij
      subst hij
      exact ⟨e₀, he₀, (hconf e he).trans hc⟩
    · exact ⟨e₀, he₀, hc⟩
  · obtain ⟨e, he, rfl⟩ := getElem?_modify_eq_some.mp he'
    by_cases hij : i = j
    · subst hij
      simp only [if_true] at hp hk htrig ⊢
      obtain ⟨htr, -, hper, hins, -⟩ := config_fields (hconf e he)
      have hkk := congrArg (·[k]?) hins
      simp only [List.getElem?_map, hk, Option.map_some] at hkk
      obtain ⟨input, hin, heq⟩ := Option.map_eq_some_iff.mp hkk.symm
      obtain ⟨hd, -⟩ := Prod.mk.inj heq
      have hf := hfresh e he (hper ▸ hp) k input input' hin hk hd.symm (by rw [hd, ← htr]; exact htrig)
      rw [hd] at hf
      exact hf
    · simp only [if_neg hij] at hp hk htrig ⊢
      exact (h.fresh j e he hp k input' hk htrig).imp_right
        (.imp_right (.imp_right (hpc j k (Ne.symm hij))))
  · obtain ⟨e, he, rfl⟩ := getElem?_modify_eq_some.mp he'
    by_cases hij : i = j
    · subst hij
      simp only [if_true] at hp ⊢
      exact hself e he ((config_fields (hconf e he)).2.2.1 ▸ hp)
    · simp only [if_neg hij, hused j (Ne.symm hij)] at hp ⊢
      exact (h.used j e he hp).imp_right (.imp_right (hpc' j (Ne.symm hij)))

theorem Inv.move (h : Inv sys s) {pc : Pc} (hpc : ∀ i k, s.pc.unread i k → pc.unread i k)
    (hpc' : ∀ i, s.pc.evaluating i → pc.evaluating i) : Inv sys { s with pc := pc } where
  names := h.names
  evals := h.evals
  fresh := fun i e he hp k input hk htrig =>
    (h.fresh i e he hp k input hk htrig).imp_right (.imp_right (.imp_right (hpc i k)))
  used := fun i e he hp => (h.used i e he hp).imp_right (.imp_right (hpc' i))

theorem Called.pop {firing : String → Option (Bool × List (Call Val))} {name n : String} {own : Bool}
    {c : Call Val} {calls : List (Call Val)} {i : Nat} (hf : firing name = some (own, c :: calls))
    (hne : c.val ≠ .eval i) (h : Called firing i n) :
    Called (Function.update firing name (some (own, calls))) i n := by
  obtain ⟨own', calls', hn, c', hc', hv⟩ := h
  by_cases hnn : n = name
  · subst hnn
    obtain ⟨rfl, rfl⟩ := Prod.mk.inj (Option.some.inj (hf.symm.trans hn))
    refine ⟨own, calls, Function.update_self .., c', (List.mem_cons.mp hc').resolve_left ?_, hv⟩
    rintro rfl
    exact hne hv
  · exact ⟨own', calls', (Function.update_of_ne hnn ..).trans hn, c', hc', hv⟩

theorem Called.unlock {firing : String → Option (Bool × List (Call Val))} {name n : String} {own : Bool}
    {i : Nat} (hf : firing name = some (own, [])) (h : Called firing i n) :
    Called (Function.update firing name none) i n := by
  obtain ⟨own', calls', hn, c', hc', hv⟩ := h
  by_cases hnn : n = name
  · subst hnn
    obtain ⟨rfl, rfl⟩ := Prod.mk.inj (Option.some.inj (hf.symm.trans hn))
    cases hc'
  · exact ⟨own', calls', (Function.update_of_ne hnn ..).trans hn, c', hc', hv⟩

theorem Pc.published_unread {pc : Pc} {i k : Nat} (h : pc.unread i k) : pc.published.unread i k := by
  cases pc <;> exact h

theorem Pc.published_evaluating {pc : Pc} {i : Nat} (h : pc.evaluating i) : pc.published.evaluating i := by
  cases pc <;> exact h

theorem Inv.trigger_update (h : Inv sys s) {name : String} {own : Bool} {c : Call Val}
    {calls : List (Call Val)} {i : Nat} (hf : s.firing name = some (own, c :: calls)) (hv : c.val = .eval i) :
    Inv sys { s with
      evals := s.evals.modify i fun e => { e with pending := true }
      firing := Function.update s.firing name (some (own, calls)) } := by
  refine ⟨h.names, fun j e' he' => ?_, fun j e' he' hp k input hk htrig => ?_, fun j e' he' hp => ?_⟩
  · obtain ⟨e, he, rfl⟩ := getElem?_modify_eq_some.mp he'
    obtain ⟨e₀, he₀, hc⟩ := h.evals j e he
    refine ⟨e₀, he₀, ?_⟩
    split <;> exact hc
  · obtain ⟨e, he, rfl⟩ := getElem?_modify_eq_some.mp he'
    by_cases hij : i = j
    · exact .inr (.inl (by simp [hij]))
    · simp only [if_neg hij] at hp hk htrig ⊢
      have hne : c.val ≠ .eval j := by
        rw [hv]
        exact fun heq => hij (Val.eval.inj heq)
      exact (h.fresh j e he hp k input hk htrig).imp_right (.imp_right (.imp_left (.pop hf hne)))
  · obtain ⟨e, he, rfl⟩ := getElem?_modify_eq_some.mp he'
    by_cases hij : i = j
    · exact .inr (.inl (by simp [hij]))
    · simp only [if_neg hij] at hp ⊢
      exact h.used j e he hp

theorem Inv.firing (h : Inv sys s) (firing : String → Option (Bool × List (Call Val))) (pc : Pc)
    (hf : ∀ i n, Called s.firing i n → Called firing i n) (hpc : ∀ i k, s.pc.unread i k → pc.unread i k)
    (hpc' : ∀ i, s.pc.evaluating i → pc.evaluating i) : Inv sys { s with firing := firing, pc := pc } where
  names := h.names
  evals := h.evals
  fresh := fun i e he hp k input hk htrig =>
    (h.fresh i e he hp k input hk htrig).imp_right (.imp_right (.imp (hf _ _) (hpc i k)))
  used := fun i e he hp => (h.used i e he hp).imp_right (.imp_right (hpc' i))

theorem Inv.startup (h : Inv sys s) (now : Int) :
    Inv sys { s with evals := s.evals.map fun e => { e with pending := true, next := now }, pc := .start } := by
  refine ⟨h.names, fun j e' he' => ?_, fun j e' he' _ k input _ _ => ?_, fun j e' he' _ => ?_⟩
  · rw [List.getElem?_map] at he'
    obtain ⟨e, he, rfl⟩ := Option.map_eq_some_iff.mp he'
    exact h.evals j e he
  · rw [List.getElem?_map] at he'
    obtain ⟨e, -, rfl⟩ := Option.map_eq_some_iff.mp he'
    exact .inr (.inl rfl)
  · rw [List.getElem?_map] at he'
    obtain ⟨e, -, rfl⟩ := Option.map_eq_some_iff.mp he'
    exact .inr (.inl rfl)

/-- The thread takes an eval: it clears `pending` before it reads anything. -/
theorem Inv.take (h : Inv sys s) {i : Nat} {reading now : Int} {evaluated : Bool}
    (hpc : s.pc = .scan i reading evaluated) :
    Inv sys { s with evals := s.evals.modify i fun e => { e with pending := false }, pc := .refresh i 0 now } :=
  h.modify (fun _ _ => rfl) (fun _ _ _ hu => by simp [hpc, Pc.unread] at hu)
    (fun _ _ he => by simp [hpc, Pc.evaluating] at he) (fun _ _ => rfl)
    (fun _ _ _ _ _ _ _ _ _ _ => .inr (.inr (.inr ⟨rfl, Nat.zero_le _⟩))) (fun _ _ _ => .inr (.inr rfl))

theorem refresh_elsewhere {i j k : Nat} {reading : Int} (hpc : s.pc = .refresh i k reading) (hj : j ≠ i) :
    (∀ k', ¬ s.pc.unread j k') ∧ ¬ s.pc.evaluating j := by
  rw [hpc]
  exact ⟨fun _ hu => hj hu.1.symm, fun hu => hj hu.symm⟩

/-- The thread reads an input: from now on a newer pair needs a newer call. -/
theorem Inv.refreshOne (h : Inv sys s) (hsys : LoadedSystem conf sys) {i k : Nat} {reading : Int} {e : Eval}
    {input : EvalIn} (hpc : s.pc = .refresh i k reading) (he : s.evals[i]? = some e)
    (hk : e.ins[k]? = some input) :
    Inv sys { s with
      evals := s.evals.modify i fun e => e.refreshOne k input (s.names input.disp).getVal
      pc := .refresh i (k + 1) reading } := by
  refine h.modify (fun e' he' => ?_) (fun j k' hj hu => absurd hu ((refresh_elsewhere hpc hj).1 k'))
    (fun j hj hu => absurd hu (refresh_elsewhere hpc hj).2) (fun _ _ => rfl)
    (fun e' he' hp k' inp inp' hin hin' hd htrig => ?_) (fun _ _ _ => .inr (.inr rfl))
  · obtain rfl := Option.some.inj (he.symm.trans he')
    exact refreshOne_config e _ hk
  · obtain rfl := Option.some.inj (he.symm.trans he')
    rw [snapshot_refreshOne (h.fit hsys he) _ hk]
    by_cases hkk : k' = k
    · subst hkk
      obtain rfl := Option.some.inj (hk.symm.trans hin)
      exact .inl (by rw [if_pos rfl])
    · rw [if_neg hkk]
      refine (h.fresh i e he hp k' inp hin htrig).imp_right (.imp_right (.imp_right fun hu => ?_))
      simp only [hpc, Pc.unread, true_and] at hu ⊢
      omega

theorem Inv.compute (h : Inv sys s) (hsys : LoadedSystem conf sys) {i k : Nat} {reading : Int} {e : Eval}
    (hpc : s.pc = .refresh i k reading) (he : s.evals[i]? = some e) (hk : e.ins[k]? = none) :
    Inv sys { s with
      evals := s.evals.modify i fun e => e.compute reading
      used := Function.update s.used i (some e.snapshot)
      pc := .publish i 0 } := by
  refine h.modify (fun e' _ => compute_config e' reading)
    (fun j k' hj hu => absurd hu ((refresh_elsewhere hpc hj).1 k'))
    (fun j hj hu => absurd hu (refresh_elsewhere hpc hj).2) (fun j hj => Function.update_of_ne hj ..)
    (fun e' he' hp k' inp inp' hin hin' hd htrig => ?_) (fun e' he' hp => ?_)
  · obtain rfl := Option.some.inj (he.symm.trans he')
    rw [snapshot_compute (h.fit hsys he)]
    refine (h.fresh i e he hp k' inp hin htrig).imp_right (.imp_right (.imp_right fun hu => ?_))
    simp only [hpc, Pc.unread] at hu
    have hlt := (List.getElem?_eq_some_iff.mp hin).1
    have hle := List.getElem?_eq_none_iff.mp hk
    omega
  · obtain rfl := Option.some.inj (he.symm.trans he')
    rw [snapshot_compute (h.fit hsys he)]
    exact .inl (Function.update_self ..)

theorem Inv.thread (h : Inv sys s) (hsys : LoadedSystem conf sys) {now : Int}
    (hst : threadStep s now = some t) : Inv sys t := by
  unfold threadStep at hst
  split at hst
  case h_1 | h_2 => cases hst
  case h_3 hpc | h_4 hpc =>
    cases hst
    exact h.move (by simp [hpc, Pc.unread]) (by simp [hpc, Pc.evaluating])
  case h_5 i reading evaluated hpc =>
    have hpc₁ : ∀ pc : Pc, ∀ i k, s.pc.unread i k → pc.unread i k := by simp [hpc, Pc.unread]
    have hpc₂ : ∀ pc : Pc, ∀ i, s.pc.evaluating i → pc.evaluating i := by simp [hpc, Pc.evaluating]
    split at hst
    · cases hst
      exact h.move (hpc₁ _) (hpc₂ _)
    rename_i e he
    split at hst
    · rename_i hp
      have hper : ∀ e', s.evals[i]? = some e' → ¬ e'.period ≤ 0 := by
        intro e' he'
        obtain rfl := Option.some.inj (he.symm.trans he')
        omega
      split at hst <;> cases hst
      · exact h.modify (fun _ _ => rfl) (fun _ _ _ => hpc₁ _ _ _) (fun _ _ => hpc₂ _ _) (fun _ _ => rfl)
          (fun e' he' hp' => absurd hp' (hper e' he')) (fun e' he' hp' => absurd hp' (hper e' he'))
      · exact h.move (hpc₁ _) (hpc₂ _)
    · split at hst <;> cases hst
      · exact h.take hpc
      · exact h.move (hpc₁ _) (hpc₂ _)
  case h_6 i k reading hpc =>
    split at hst
    · cases hst
    rename_i e he
    split at hst <;> cases hst
    · exact h.refreshOne hsys hpc he ‹_›
    · exact h.compute hsys hpc he ‹_›
  case h_7 i j hpc =>
    have hpc₁ : ∀ pc : Pc, ∀ i k, s.pc.unread i k → pc.unread i k := by simp [hpc, Pc.unread]
    have hpc₂ : ∀ pc : Pc, ∀ i, s.pc.evaluating i → pc.evaluating i := by simp [hpc, Pc.evaluating]
    split at hst
    · cases hst
    rename_i e he
    split at hst
    · cases hst
      exact h.move (hpc₁ _) (hpc₂ _)
    rename_i v hv
    split at hst
    · cases hst
      exact h.move (hpc₁ _) (hpc₂ _)
    rename_i name hd
    refine h.enter hsys (Dispatcher.config_dispVal ..) (Dispatcher.dispVal_calls ..)
      (fun i' e' he' htrig heq => ?_) (hpc₁ _) (hpc₂ _) hst
    -- the eval that publishes the name is not one that it triggers
    obtain rfl := Val.eval.inj (Option.some.inj heq)
    obtain rfl := Option.some.inj (he.symm.trans he')
    exact h.not_own hsys he (List.mem_of_getElem? hv) hd htrig

theorem Inv.step (h : Inv sys s) (hsys : LoadedSystem conf sys) (a : Act) (hst : step s a = some t) :
    Inv sys t := by
  cases a with
  | disp name now f valid =>
    exact h.enter hsys (Dispatcher.config_dispVal ..) (Dispatcher.dispVal_calls ..)
      (fun i e he htrig => (h.trigger hsys he htrig).2) (fun _ _ => id) (fun _ => id) hst
  | check name now =>
    exact h.enter hsys (Dispatcher.config_watchdogVisit ..) (Dispatcher.watchdogVisit_calls ..)
      (fun i e he htrig => (h.trigger hsys he htrig).2) (fun _ _ => id) (fun _ => id) hst
  | arm name now =>
    refine h.enter hsys (Dispatcher.config_startupArm ..) (.inl ?_)
      (fun i e he htrig => (h.trigger hsys he htrig).2) (fun _ _ => id) (fun _ => id) hst
    unfold Dispatcher.startupArm Dispatcher.getVal
    split <;> rfl
  | call name =>
    simp only [EvalThread.step] at hst
    split at hst
    · rename_i own c calls hf
      split at hst
      · rename_i i hv
        split at hst <;> cases hst
        exact h.trigger_update hf hv
      · rename_i hv
        cases hst
        exact h.firing _ s.pc (fun i n => .pop hf (hv i)) (fun _ _ => id) (fun _ => id)
    · cases hst
  | unlock name =>
    simp only [EvalThread.step] at hst
    split at hst <;> cases hst
    rename_i own hf
    refine h.firing _ _ (fun i n => .unlock hf) (fun i k hu => ?_) (fun i hu => ?_)
    · split
      · exact Pc.published_unread hu
      · exact hu
    · split
      · exact Pc.published_evaluating hu
      · exact hu
  | startup now =>
    obtain ⟨-, rfl⟩ := by simpa [EvalThread.step] using hst
    exact h.startup now
  | thread now => exact h.thread hsys hst

end Steps

/-- **No lost trigger.** When the thread waits, an eval without period is not pending and no section
of its triggers runs, then its last evaluation used the stored pair of each of its inputs that is a
trigger; by default all of them are. -/
theorem no_lost_trigger (conf : Config) (sys : System) (hload : load conf = some sys) (l : List Act)
    (t : State) (hrun : Run step (start sys) l t) (i : Nat) (e : Eval) (he : t.evals[i]? = some e)
    (hp : e.period ≤ 0) (hwait : t.pc = .wait) (hpending : e.pending = false)
    (hfree : ∀ name ∈ e.triggers, t.firing name = none) :
    (∃ used, t.used i = some used ∧
      ∀ (k : Nat) input, e.ins[k]? = some input → input.disp ∈ e.triggers →
        used[k]? = some (t.names input.disp).getVal) ∧
    (e.explicitTriggers = false → ∀ input ∈ e.ins, input.disp ∈ e.triggers) := by
  have hsys := load_spec hload
  have hinv : Inv sys t := hrun.invariant (fun _ a _ hu huv => hu.step hsys a huv) (Inv.init sys)
  constructor
  · refine ⟨e.snapshot, ?_, fun k input hk htrig => ?_⟩
    · have hused := hinv.used i e he hp
      simpa [hpending, hwait, Pc.evaluating] using hused
    · rcases hinv.fresh i e he hp k input hk htrig with h | h | ⟨_, _, h, -⟩ | h
      · exact h
      · simp [hpending] at h
      · simp [hfree input.disp htrig] at h
      · simp [hwait, Pc.unread] at h
  · intro hdef input hin
    obtain ⟨e₀, he₀, hc⟩ := hinv.evals i e he
    obtain ⟨_, _, hconf, -⟩ := hsys.evals i e₀ he₀
    obtain ⟨htrig, hexp, hper, hins, -⟩ := config_fields hc
    rw [htrig, hconf.default (hper ▸ hp) (hexp ▸ hdef)]
    have hmem : (input.disp, input.slot) ∈ e₀.ins.map fun i => (i.disp, i.slot) :=
      hins ▸ List.mem_map.mpr ⟨input, hin, rfl⟩
    obtain ⟨j, hj, heq⟩ := List.mem_map.mp hmem
    exact List.mem_map.mpr ⟨j, hj, (Prod.mk.inj heq).1⟩

/-- `value y { expr = "x" }` of an input `x`. -/
def evalConfig : Config where
  can := [{ inst := "can0", groups := [{ dir := .input, values := [{ title := "x" }] }] }]
  evals := [{ title := "e", values := [{ title := "y", expr := some (.var "x") }] }]

def evalSystem : System := (load evalConfig).get (by rfl)

/-- Data that arrives when `x` is read already: the thread makes a second pass. -/
def evalActs : List Act :=
  [.startup 1, .thread 1, .thread 1, .thread 1, .disp "x" 2 (.fin 7) true, .call "x", .unlock "x",
    .thread 2, .thread 2, .unlock "y", .thread 3, .thread 3, .thread 3, .thread 4, .thread 4, .thread 4,
    .unlock "y", .thread 5, .thread 5, .thread 6, .thread 6]

def evalEnd : State := (evalActs.foldlM step (start evalSystem)).get (by rfl)

theorem no_lost_trigger_example :
    ∃ used, evalEnd.used 0 = some used ∧ used[0]? = some (.fin 7, true) := by
  have h := no_lost_trigger evalConfig evalSystem (Option.some_get _).symm evalActs evalEnd
    (Option.some_get _).symm 0 (evalEnd.evals.head (by decide)) rfl (by decide) rfl rfl (by decide)
  obtain ⟨used, hused, hall⟩ := h.1
  exact ⟨used, hused, hall 0 _ rfl (by decide)⟩

end Uvrgw.EvalThread
