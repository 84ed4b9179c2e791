import Mathlib.Order.Lattice.Nat
import Uvrgw.Lib.Measure
import Uvrgw.System.EvalThread

/-!
# Trigger cascades end (`eval.c`)

What is left to do has a weight: each flag, each call and each value still to be published pays for
all evaluations that follow from it. The triggers have no cycle, so there is such a weight.
-/

namespace Uvrgw.EvalThread

open Uvrgw.Lib Uvrgw.Dispatch Uvrgw.Evals Uvrgw.Conf

/-! ## Runs without events from outside -/

/-- The thread is about to find an eval due by its period. -/
def State.fires (s : State) : Bool :=
  match s.pc with
  | .scan i reading _ => s.evals[i]?.any fun e => decide (0 < e.period) && decide (e.next ≤ reading)
  | _ => false

/-- The thread is about to take a triggered eval. -/
def State.takes (s : State) : Bool :=
  match s.pc with
  | .scan i _ _ => s.evals[i]?.any fun e => decide (e.period ≤ 0) && e.pending
  | _ => false

/-- No input value or watchdog reset is dispatched and no periodic eval fires. A counter may publish. -/
def Quiet (sys : System) (s : State) : Act → Prop
  | .disp name _ _ _ => ∃ c ∈ sys.counters, c.name = name
  | .check name now => 0 < (s.names name).staleTimeout → ¬ (s.names name).expired now
  | .thread _ => s.fires = false
  | _ => True

instance (sys : System) (s : State) (a : Act) : Decidable (Quiet sys s a) :=
  match a with
  | .disp name _ _ _ => inferInstanceAs (Decidable (∃ c ∈ sys.counters, c.name = name))
  | .check name now =>
    inferInstanceAs (Decidable (0 < (s.names name).staleTimeout → ¬ (s.names name).expired now))
  | .thread _ => inferInstanceAs (Decidable (_ = _))
  | .arm .. | .call _ | .unlock _ | .startup _ => isTrue trivial

def Evaluates (s : State) : Act → Prop
  | .thread _ => s.takes = true
  | _ => False

instance (s : State) (a : Act) : Decidable (Evaluates s a) :=
  match a with
  | .thread _ => inferInstanceAs (Decidable (_ = _))
  | .disp .. | .check .. | .arm .. | .call _ | .unlock _ | .startup _ => isFalse id

def OfThread (_ : State) : Act → Prop
  | .thread _ => True
  | _ => False

instance (s : State) (a : Act) : Decidable (OfThread s a) :=
  match a with
  | .thread _ => isTrue trivial
  | .disp .. | .check .. | .arm .. | .call _ | .unlock _ | .startup _ => isFalse id

def NonePending (s : State) : Prop := ∀ e ∈ s.evals, e.period ≤ 0 → e.pending = false

/-! ## What a step can do -/

def State.entered (s : State) (name : String) (own : Bool) (r : Dispatcher Val × List (Call Val)) (pc : Pc) : State :=
  { s with
    names := Function.update s.names name r.1
    firing := Function.update s.firing name (some (own, r.2))
    pc := pc }

inductive Moves (s : State) : Act → State → Prop
  /-- Another thread enters a section. -/
  | enter {a : Act} {name : String} {r : Dispatcher Val × List (Call Val)} (hfree : s.firing name = none)
      (hcalls : ∀ c ∈ r.2, some c.val ∈ (s.names name).valueCbs) (hother : ¬ OfThread s a)
      (hquiet : ∀ sys : System, sys.counters = [] → Quiet sys s a → r.2 = []) :
      Moves s a (s.entered name false r s.pc)
  | call {name : String} {own : Bool} {c : Call Val} {calls : List (Call Val)}
      (hf : s.firing name = some (own, c :: calls)) (hc : ∀ i, c.val ≠ .eval i) :
      Moves s (.call name) { s with firing := Function.update s.firing name (some (own, calls)) }
  | trigger {name : String} {own : Bool} {c : Call Val} {calls : List (Call Val)} {i : Nat}
      (hf : s.firing name = some (own, c :: calls)) (hc : c.val = .eval i) (hlock : s.pc.holdsLock = false) :
      Moves s (.call name) { s with
        evals := s.evals.modify i fun e => { e with pending := true }
        firing := Function.update s.firing name (some (own, calls)) }
  | unlock {name : String} {own : Bool} (hf : s.firing name = some (own, [])) :
      Moves s (.unlock name) { s with
        firing := Function.update s.firing name none
        pc := if own then s.pc.published else s.pc }
  | startup {now : Int} (hpc : s.pc = .off) :
      Moves s (.startup now)
        { s with evals := s.evals.map fun e => { e with pending := true, next := now }, pc := .start }
  | wake {now : Int} (hpc : s.pc = .start ∨ s.pc = .wait) : Moves s (.thread now) { s with pc := .scan 0 now false }
  /-- The end of a pass. -/
  | turn {now reading : Int} {i : Nat} {evaluated : Bool} (hpc : s.pc = .scan i reading evaluated)
      (he : s.evals[i]? = none) :
      Moves s (.thread now) { s with pc := if evaluated then .scan 0 now false else .wait }
  | skip {now reading : Int} {i : Nat} {evaluated : Bool} {e : Eval} (hpc : s.pc = .scan i reading evaluated)
      (he : s.evals[i]? = some e) (hidle : e.period ≤ 0 → e.pending = false) :
      Moves s (.thread now) { s with pc := .scan (i + 1) reading evaluated }
  | fire {now reading : Int} {i : Nat} {evaluated : Bool} {e : Eval} {g : Eval → Eval}
      (hpc : s.pc = .scan i reading evaluated) (he : s.evals[i]? = some e) (hp : 0 < e.period)
      (hdue : e.next ≤ reading) (hg : ∀ e, (g e).pending = e.pending ∧ (g e).period = e.period) :
      Moves s (.thread now) { s with evals := s.evals.modify i g, pc := .refresh i 0 now }
  | take {now reading : Int} {i : Nat} {evaluated : Bool} {e : Eval} (hpc : s.pc = .scan i reading evaluated)
      (he : s.evals[i]? = some e) (hp : e.period ≤ 0) (hpending : e.pending = true) :
      Moves s (.thread now)
        { s with evals := s.evals.modify i fun e => { e with pending := false }, pc := .refresh i 0 now }
  /-- A step of `evaluate` before it publishes. -/
  | work {now reading : Int} {i k : Nat} {e : Eval} {g : Eval → Eval} {pc : Pc}
      {used : Nat → Option (List (Double × Bool))} (hpc : s.pc = .refresh i k reading) (he : s.evals[i]? = some e)
      (hg : ∀ e, (g e).pending = e.pending ∧ (g e).period = e.period)
      (hnext : k < e.ins.length ∧ pc = .refresh i (k + 1) reading ∨ pc = .publish i 0) :
      Moves s (.thread now) { s with evals := s.evals.modify i g, used := used, pc := pc }
  | finish {now : Int} {i j : Nat} {e : Eval} (hpc : s.pc = .publish i j) (he : s.evals[i]? = some e)
      (hj : e.values[j]? = none) : Moves s (.thread now) { s with pc := .scan (i + 1) now true }
  /-- A local value is not published. -/
  | hide {now : Int} {i j : Nat} {e : Eval} {v : EvalVal} (hpc : s.pc = .publish i j) (he : s.evals[i]? = some e)
      (hv : e.values[j]? = some v) (hd : v.disp = none) : Moves s (.thread now) { s with pc := .publish i (j + 1) }
  | publish {now : Int} {i j : Nat} {e : Eval} {v : EvalVal} {name : String} {f : Double}
      (hpc : s.pc = .publish i j) (he : s.evals[i]? = some e) (hv : e.values[j]? = some v)
      (hd : v.disp = some name) (hfree : s.firing name = none) :
      Moves s (.thread now)
        (s.entered name true ((s.names name).dispVal now (some (.eval i)) f v.valid) (.publishing i j))

theorem enter_moves {s t : State} {a : Act} {name : String} {r : Dispatcher Val × List (Call Val)}
    (hcalls : ∀ c ∈ r.2, some c.val ∈ (s.names name).valueCbs) (hother : ¬ OfThread s a)
    (hquiet : ∀ sys : System, sys.counters = [] → Quiet sys s a → r.2 = [])
    (h : enter s name false r s.pc = some t) : Moves s a t := by
  unfold enter at h
  split at h <;> cases h
  exact .enter ‹_› hcalls hother hquiet

theorem thread_moves {s t : State} {now : Int} (h : threadStep s now = some t) : Moves s (.thread now) t := by
  unfold threadStep at h
  split at h
  case h_1 | h_2 => cases h
  case h_3 hpc =>
    cases h
    exact .wake (.inl hpc)
  case h_4 hpc =>
    cases h
    exact .wake (.inr hpc)
  case h_5 i reading evaluated hpc =>
    split at h
    · cases h
      exact .turn hpc ‹_›
    rename_i e he
    split at h
    · rename_i hp
      split at h <;> cases h
      · exact .fire hpc he hp ‹_› fun _ => ⟨rfl, rfl⟩
      · exact .skip hpc he fun hle => absurd hp (by omega)
    · rename_i hp
      split at h <;> cases h
      · exact .take hpc he (by omega) ‹_›
      · exact .skip hpc he fun _ => by simpa using ‹¬ e.pending = true›
  case h_6 i k reading hpc =>
    split at h
    · cases h
    rename_i e he
    split at h <;> cases h
    · rename_i input hk
      exact .work hpc he (fun _ => ⟨rfl, rfl⟩) (.inl ⟨(List.getElem?_eq_some_iff.mp hk).1, rfl⟩)
    · exact .work hpc he (fun _ => ⟨rfl, rfl⟩) (.inr rfl)
  case h_7 i j hpc =>
    split at h
    · cases h
    rename_i e he
    split at h
    · cases h
      exact .finish hpc he ‹_›
    rename_i v hv
    split at h
    · cases h
      exact .hide hpc he hv ‹_›
    rename_i name hd
    unfold enter at h
    split at h <;> cases h
    exact .publish hpc he hv hd ‹_›

theorem moves_of_step {s t : State} {a : Act} (h : step s a = some t) : Moves s a t := by
  cases a with
  | disp name now f valid =>
    refine enter_moves (fun c => Dispatcher.dispVal_cbs) id (fun sys hc hq => ?_) h
    obtain ⟨c, hmem, -⟩ := hq
    rw [hc] at hmem
    cases hmem
  | check name now =>
    refine enter_moves (fun c hc => (Dispatcher.watchdogVisit_cbs hc).1) id (fun sys _ hq => ?_) h
    refine List.eq_nil_iff_forall_not_mem.mpr fun c hc => ?_
    obtain ⟨-, htimeout, hexp⟩ := Dispatcher.watchdogVisit_cbs hc
    exact hq htimeout hexp
  | arm name now => exact enter_moves (by simp) id (fun _ _ _ => rfl) h
  | call name =>
    simp only [EvalThread.step] at h
    split at h
    · rename_i own c calls hf
      split at h
      · rename_i i hv
        split at h <;> cases h
        exact .trigger hf hv (by simpa using ‹¬ s.pc.holdsLock = true›)
      · rename_i hv
        cases h
        exact .call hf hv
    · cases h
  | unlock name =>
    simp only [EvalThread.step] at h
    split at h <;> cases h
    exact .unlock ‹_›
  | startup now =>
    obtain ⟨hpc, rfl⟩ := by simpa [EvalThread.step] using h
    exact .startup hpc
  | thread now => exact thread_moves h

/-! ## Where the thread can be -/

def Pc.eval : Pc → Option Nat
  | refresh i _ _ | publish i _ | publishing i _ => some i
  | _ => none

/-- What the place of the thread says about the rest. -/
structure Placed (sys : System) (s : State) : Prop where
  calls : ∀ name own calls, s.firing name = some (own, calls) →
    ∀ c ∈ calls, some c.val ∈ (sys.dispatcher name).valueCbs
  /-- A pass without evaluations has left no flag behind. -/
  scanned : ∀ i reading, s.pc = .scan i reading false →
    ∀ (j : Nat) e, j < i → s.evals[j]? = some e → e.period ≤ 0 → e.pending = false
  lt : ∀ i, s.pc.eval = some i → i < s.evals.length
  publishing : ∀ i j, s.pc = .publishing i j → ∃ name calls, s.firing name = some (true, calls)

section Placed

variable {sys : System} {s t : State} {a : Act}

theorem Placed.init (sys : System) : Placed sys (start sys) where
  calls := by simp [start]
  scanned := by simp [start]
  lt := by simp [start, Pc.eval]
  publishing := by simp [start]

/-- A step that starts no section and stays out of passes without evaluations. -/
theorem Placed.move (h : Placed sys s) {evals : List Eval} {used : Nat → Option (List (Double × Bool))} {pc : Pc}
    (hlen : evals.length = s.evals.length)
    (hscan : ∀ i reading, pc = .scan i reading false →
      ∀ (j : Nat) e, j < i → evals[j]? = some e → e.period ≤ 0 → e.pending = false)
    (hlt : ∀ i, pc.eval = some i → i < s.evals.length) (hpub : ∀ i j, pc ≠ .publishing i j) :
    Placed sys { s with evals := evals, used := used, pc := pc } where
  calls := h.calls
  scanned := hscan
  lt := fun i hi => hlen ▸ hlt i hi
  publishing := fun i j hp => absurd hp (hpub i j)

theorem Placed.entered (h : Placed sys s) (hinv : Inv sys s) {name : String} {own : Bool}
    {r : Dispatcher Val × List (Call Val)} {pc : Pc} (hfree : s.firing name = none)
    (hcalls : ∀ c ∈ r.2, some c.val ∈ (s.names name).valueCbs)
    (hpc : pc = s.pc ∨ own = true ∧ ∃ i j, pc = .publishing i j ∧ i < s.evals.length) :
    Placed sys (s.entered name own r pc) where
  calls := by
    intro n o cs hf c hc
    by_cases hn : n = name
    · subst hn
      simp only [State.entered, Function.update_self, Option.some.injEq, Prod.mk.injEq] at hf
      rw [← (Dispatcher.config_fields (hinv.names n)).2.2.2.2]
      exact hcalls c (hf.2 ▸ hc)
    · simp only [State.entered, Function.update_of_ne hn] at hf
      exact h.calls n o cs hf c hc
  scanned := by
    rcases hpc with rfl | ⟨-, i, j, rfl, -⟩
    · exact h.scanned
    · simp [State.entered]
  lt := by
    rcases hpc with rfl | ⟨-, i, j, rfl, hlt⟩
    · exact h.lt
    · intro i' hi'
      obtain rfl : i = i' := by simpa [State.entered, Pc.eval] using hi'
      exact hlt
  publishing := by
    rcases hpc with rfl | ⟨rfl, -⟩
    · intro i j hp
      obtain ⟨n, cs, hf⟩ := h.publishing i j hp
      have hne : n ≠ name := by
        rintro rfl
        rw [hfree] at hf
        cases hf
      exact ⟨n, cs, (Function.update_of_ne hne ..).trans hf⟩
    · exact fun _ _ _ => ⟨name, r.2, Function.update_self ..⟩

theorem Placed.called (h : Placed sys s) {name : String} {own : Bool} {c : Call Val} {calls : List (Call Val)}
    (hf : s.firing name = some (own, c :: calls)) :
    Placed sys { s with firing := Function.update s.firing name (some (own, calls)) } where
  calls := by
    intro n o cs hn c' hc'
    by_cases hname : n = name
    · subst hname
      simp only [Function.update_self, Option.some.injEq, Prod.mk.injEq] at hn
      exact h.calls n own (c :: calls) hf c' (List.mem_cons_of_mem c (hn.2 ▸ hc'))
    · simp only [Function.update_of_ne hname] at hn
      exact h.calls n o cs hn c' hc'
  scanned := h.scanned
  lt := h.lt
  publishing := by
    intro i j hp
    obtain ⟨n, cs, hn⟩ := h.publishing i j hp
    by_cases hname : n = name
    · subst hname
      obtain ⟨rfl, rfl⟩ := Prod.mk.inj (Option.some.inj (hf.symm.trans hn))
      exact ⟨n, calls, Function.update_self ..⟩
    · exact ⟨n, cs, (Function.update_of_ne hname ..).trans hn⟩

theorem Placed.unlocked (h : Placed sys s) {name : String} {own : Bool} (hf : s.firing name = some (own, [])) :
    Placed sys { s with
      firing := Function.update s.firing name none
      pc := if own then s.pc.published else s.pc } where
  calls := by
    intro n o cs hn c hc
    by_cases hname : n = name
    · subst hname
      simp at hn
    · simp only [Function.update_of_ne hname] at hn
      exact h.calls n o cs hn c hc
  scanned := by
    intro i reading hp
    refine h.scanned i reading ?_
    cases own with
    | false => exact hp
    | true =>
      revert hp
      cases s.pc <;> simp [Pc.published]
  lt := by
    intro i hi
    refine h.lt i ?_
    cases own with
    | false => exact hi
    | true =>
      revert hi
      cases s.pc <;> simp [Pc.published, Pc.eval]
  publishing := by
    intro i j hp
    cases own with
    | true =>
      exfalso
      revert hp
      cases s.pc <;> simp [Pc.published]
    | false =>
      obtain ⟨n, cs, hn⟩ := h.publishing i j hp
      have hne : n ≠ name := by
        rintro rfl
        rw [hf] at hn
        cases hn
      exact ⟨n, cs, (Function.update_of_ne hne ..).trans hn⟩

theorem Placed.step (h : Placed sys s) (hinv : Inv sys s) (hm : Moves s a t) : Placed sys t := by
  cases hm with
  | enter hfree hcalls => exact h.entered hinv hfree hcalls (.inl rfl)
  | call hf => exact h.called hf
  | @trigger name own c calls i hf hc hlock =>
    have hcalled := h.called hf
    refine ⟨hcalled.calls, fun i reading hp => ?_, fun i hi => ?_, hcalled.publishing⟩
    · have hp : s.pc = .scan i reading false := hp
      rw [hp] at hlock
      cases hlock
    · rw [List.length_modify]
      exact h.lt i hi
  | unlock hf => exact h.unlocked hf
  | startup hpc => exact h.move (by simp) (by simp) (by simp [Pc.eval]) (by simp)
  | wake hpc => exact h.move rfl (by simp) (by simp [Pc.eval]) (by simp)
  | turn hpc he =>
    refine h.move rfl (fun i reading hp => ?_) (fun i hi => ?_) fun i j hp => ?_
    · split at hp
      · obtain ⟨rfl, -⟩ := by simpa using hp
        simp
      · cases hp
    · split at hi <;> cases hi
    · split at hp <;> cases hp
  | @skip now reading i evaluated e hpc he hidle =>
    refine h.move rfl (fun i' reading' hp j e' hj he' hper => ?_) (by simp [Pc.eval]) (by simp)
    obtain ⟨rfl, rfl, rfl⟩ := by simpa using hp
    rcases Nat.lt_succ_iff_lt_or_eq.mp hj with hj | rfl
    · exact h.scanned i reading hpc j e' hj he' hper
    · obtain rfl := Option.some.inj (he.symm.trans he')
      exact hidle hper
  | fire hpc he =>
    refine h.move (by simp) (by simp) (fun i hi => ?_) (by simp)
    obtain rfl := by simpa [Pc.eval] using hi
    exact (List.getElem?_eq_some_iff.mp he).1
  | take hpc he =>
    refine h.move (by simp) (by simp) (fun i hi => ?_) (by simp)
    obtain rfl := by simpa [Pc.eval] using hi
    exact (List.getElem?_eq_some_iff.mp he).1
  | work hpc he hg hnext =>
    have hlt := (List.getElem?_eq_some_iff.mp he).1
    rcases hnext with ⟨-, rfl⟩ | rfl
    all_goals
      refine h.move (by simp) (by simp) (fun i hi => ?_) (by simp)
      obtain rfl := by simpa [Pc.eval] using hi
      exact hlt
  | finish hpc he => exact h.move rfl (by simp) (by simp [Pc.eval]) (by simp)
  | hide hpc he =>
    refine h.move rfl (by simp) (fun i hi => ?_) (by simp)
    obtain rfl := by simpa [Pc.eval] using hi
    exact (List.getElem?_eq_some_iff.mp he).1
  | publish hpc he hv hd hfree =>
    exact h.entered hinv hfree (fun c => Dispatcher.dispVal_cbs)
      (.inr ⟨rfl, _, _, rfl, (List.getElem?_eq_some_iff.mp he).1⟩)

end Placed

/-! ## Weights -/

section Weights

variable (sys : System) (weight : Nat → Nat)

def calledEval : Option Val → Option Nat
  | some (.eval i) => some i
  | _ => none

def cbCost (cb : Option Val) : Nat := (calledEval cb).elim 0 weight

def callsCost (calls : List (Call Val)) : Nat := (calls.map fun c => cbCost weight (some c.val)).sum

def nameCost (name : String) : Nat := ((sys.dispatcher name).valueCbs.map (cbCost weight)).sum

/-- The cost of publishing the values of eval `i` from number `j` on. -/
def restCost (i j : Nat) : Nat :=
  ((sys.evals[i]?.elim [] fun e => e.values.drop j).map fun v => v.disp.elim 0 (nameCost sys weight)).sum

/-- An evaluation pays for itself and for all that its values trigger. -/
def Pays : Prop := ∀ i < sys.evals.length, weight i = 1 + restCost sys weight i 0

def triggered (i : Nat) : List Nat :=
  (sys.evals[i]?.elim [] (·.values)).flatMap fun v => v.disp.elim [] fun name =>
    (sys.dispatcher name).valueCbs.filterMap calledEval

variable {sys weight}

theorem triggered_spec {conf : Config} (hsys : LoadedSystem conf sys) {i k : Nat} (hk : k ∈ triggered sys i) :
    Triggers sys.evals i k := by
  unfold triggered at hk
  obtain ⟨v, hv, hk⟩ := List.mem_flatMap.mp hk
  cases he : sys.evals[i]? with
  | none => simp [he] at hv
  | some e =>
    rw [he] at hv
    cases hd : v.disp with
    | none => simp [hd] at hk
    | some name =>
      rw [hd] at hk
      obtain ⟨cb, hcb, hcall⟩ := List.mem_filterMap.mp hk
      unfold calledEval at hcall
      split at hcall <;> cases hcall
      obtain ⟨dp, hdp, rfl⟩ := List.mem_map.mp (dispatcher_listed hcb)
      rw [hsys.dispatcher hdp] at hcb
      exact ⟨dp.name, ⟨e, he, v, hv, hd⟩, ((hsys.entry dp hdp).cbs _).mp hcb⟩

theorem sum_calledEvals (cbs : List (Option Val)) :
    ((cbs.filterMap calledEval).map weight).sum = (cbs.map (cbCost weight)).sum := by
  induction cbs with
  | nil => rfl
  | cons cb cbs ih =>
    rw [List.filterMap_cons, List.map_cons, List.sum_cons, ← ih, cbCost]
    cases calledEval cb with
    | none => simp
    | some i => simp

theorem sum_triggered (i : Nat) : ((triggered sys i).map weight).sum = restCost sys weight i 0 := by
  unfold triggered restCost
  cases sys.evals[i]? with
  | none => rfl
  | some e =>
    simp only [Option.elim_some, List.drop_zero]
    induction e.values with
    | nil => rfl
    | cons v vs ih =>
      rw [List.flatMap_cons, List.map_append, List.sum_append, List.map_cons, List.sum_cons, ih]
      cases v.disp with
      | none => rfl
      | some name => rw [Option.elim_some, Option.elim_some, sum_calledEvals, nameCost]

theorem exists_pays {conf : Config} (hload : load conf = some sys) : ∃ weight, Pays sys weight := by
  have hsys := load_spec hload
  have hlt : ∀ a b, Triggers sys.evals a b → b ∈ Finset.range sys.evals.length := by
    rintro a b ⟨name, -, e, he, -⟩
    exact Finset.mem_range.mpr (List.getElem?_eq_some_iff.mp he).1
  obtain ⟨weight, hw⟩ := (load_acyclic hload).2.exists_weight (Finset.range sys.evals.length) hlt (fun _ => 1)
    (triggered sys) fun a b hb => triggered_spec hsys hb
  exact ⟨weight, fun i _ => by rw [hw i, sum_triggered]⟩

theorem callsCost_fireCbs (dp : Dispatcher Val) (val : Option Val) (f : Double) (valid : Bool) :
    callsCost weight (dp.fireCbs val f valid) ≤ (dp.valueCbs.map (cbCost weight)).sum := by
  unfold callsCost Dispatcher.fireCbs
  induction dp.valueCbs with
  | nil => simp
  | cons cb cbs ih =>
    rw [List.filterMap_cons, List.map_cons, List.sum_cons]
    split
    · omega
    · rename_i c hc
      rw [(Dispatcher.slotCall_some hc).1, List.map_cons, List.sum_cons]
      omega

variable (weight) in
theorem callsCost_dispVal (dp : Dispatcher Val) (now : Int) (val : Option Val) (f : Double) (valid : Bool) :
    callsCost weight (dp.dispVal now val f valid).2 ≤ (dp.valueCbs.map (cbCost weight)).sum := by
  unfold Dispatcher.dispVal
  split
  · cases valid <;> exact callsCost_fireCbs ..
  · exact Nat.zero_le _

end Weights

/-! ## The potential -/

section Potential

variable (sys : System) (weight : Nat → Nat)

def flagCost (i : Nat) (e : Option Eval) : Nat :=
  e.elim 0 fun e => if e.period ≤ 0 ∧ e.pending = true then weight i else 0

def flagsCost (evals : List Eval) : Nat := ∑ i ∈ Finset.range sys.evals.length, flagCost weight i evals[i]?

def sectionCost (f : Option (Bool × List (Call Val))) : Nat := f.elim 0 fun f => callsCost weight f.2

def firingCost (firing : String → Option (Bool × List (Call Val))) : Nat :=
  ∑ name ∈ (sys.disp.map (·.name)).toFinset, sectionCost weight (firing name)

def placeCost : Pc → Nat
  | .off => ∑ i ∈ Finset.range sys.evals.length, weight i
  | .refresh i _ _ => restCost sys weight i 0
  | .publish i j => restCost sys weight i j
  | .publishing i j => restCost sys weight i (j + 1)
  | .start | .wait | .scan .. => 0

def potential (s : State) : Nat :=
  flagsCost sys weight s.evals + firingCost sys weight s.firing + placeCost sys weight s.pc

variable {sys weight}

theorem flagsCost_modify {evals : List Eval} {i : Nat} {g : Eval → Eval}
    (hg : ∀ e, (g e).pending = e.pending ∧ (g e).period = e.period) :
    flagsCost sys weight (evals.modify i g) = flagsCost sys weight evals := by
  refine Finset.sum_congr rfl fun j _ => ?_
  by_cases hj : i = j
  · subst hj
    rw [List.getElem?_modify_eq]
    cases evals[i]? with
    | none => rfl
    | some e => simp [flagCost, (hg e).1, (hg e).2]
  · rw [List.getElem?_modify_ne _ _ hj]

variable (sys weight) in
theorem flagsCost_change (evals : List Eval) {i : Nat} (g : Eval → Eval) (hi : i < sys.evals.length) :
    flagsCost sys weight (evals.modify i g) + flagCost weight i evals[i]? =
      flagsCost sys weight evals + flagCost weight i (g <$> evals[i]?) := by
  have hsum := sum_change (Finset.mem_range.mpr hi) (f := fun j => flagCost weight j (evals.modify i g)[j]?)
    (g := fun j => flagCost weight j evals[j]?) fun j hj => by rw [List.getElem?_modify_ne _ _ (Ne.symm hj)]
  rw [List.getElem?_modify_eq] at hsum
  exact hsum

variable (weight) in
theorem flagsCost_take {evals : List Eval} {i : Nat} {e : Eval} (he : evals[i]? = some e) (hp : e.period ≤ 0)
    (hpending : e.pending = true) (hi : i < sys.evals.length) :
    flagsCost sys weight (evals.modify i fun e => { e with pending := false }) + weight i =
      flagsCost sys weight evals := by
  have h := flagsCost_change sys weight evals (fun e => { e with pending := false }) hi
  simpa [he, flagCost, hp, hpending] using h

variable (weight) in
theorem flagCost_le (i : Nat) (e : Option Eval) : flagCost weight i e ≤ weight i := by
  unfold flagCost
  cases e with
  | none => exact Nat.zero_le _
  | some e =>
    rw [Option.elim_some]
    split
    · exact le_rfl
    · exact Nat.zero_le _

variable (sys weight) in
theorem flagsCost_trigger (evals : List Eval) (i : Nat) :
    flagsCost sys weight (evals.modify i fun e => { e with pending := true }) ≤
      flagsCost sys weight evals + weight i := by
  by_cases hi : i < sys.evals.length
  · have h := flagsCost_change sys weight evals (fun e => { e with pending := true }) hi
    have hle := flagCost_le weight i ((fun e : Eval => { e with pending := true }) <$> evals[i]?)
    omega
  · refine Nat.le_add_right_of_le (le_of_eq (Finset.sum_congr rfl fun j hj => ?_))
    have hne : i ≠ j := by
      rintro rfl
      exact hi (Finset.mem_range.mp hj)
    rw [List.getElem?_modify_ne _ _ hne]

variable (sys weight) in
theorem flagsCost_le (evals : List Eval) :
    flagsCost sys weight evals ≤ ∑ i ∈ Finset.range sys.evals.length, weight i :=
  Finset.sum_le_sum fun i _ => flagCost_le weight i _

variable (sys weight) in
theorem firingCost_update (firing : String → Option (Bool × List (Call Val))) {name : String}
    (f : Option (Bool × List (Call Val))) (hname : name ∈ sys.disp.map (·.name)) :
    firingCost sys weight (Function.update firing name f) + sectionCost weight (firing name) =
      firingCost sys weight firing + sectionCost weight f := by
  have hsum := sum_change (List.mem_toFinset.mpr hname)
    (f := fun n => sectionCost weight (Function.update firing name f n))
    (g := fun n => sectionCost weight (firing n)) fun n hn => by rw [Function.update_of_ne hn]
  rw [Function.update_self] at hsum
  exact hsum

variable (sys weight) in
theorem firingCost_enter {firing : String → Option (Bool × List (Call Val))} {name : String} (own : Bool)
    (calls : List (Call Val)) (hfree : firing name = none) :
    firingCost sys weight (Function.update firing name (some (own, calls))) ≤
      firingCost sys weight firing + callsCost weight calls := by
  by_cases hname : name ∈ sys.disp.map (·.name)
  · have h := firingCost_update sys weight firing (some (own, calls)) hname
    have hcost : sectionCost weight (some (own, calls)) = callsCost weight calls := rfl
    omega
  · refine Nat.le_add_right_of_le (le_of_eq (Finset.sum_congr rfl fun n hn => ?_))
    have hne : n ≠ name := by
      rintro rfl
      exact hname (List.mem_toFinset.mp hn)
    rw [Function.update_of_ne hne]

variable (weight) in
theorem firingCost_call {firing : String → Option (Bool × List (Call Val))} {name : String} {own : Bool}
    {c : Call Val} {calls : List (Call Val)} (hf : firing name = some (own, c :: calls))
    (hname : name ∈ sys.disp.map (·.name)) :
    firingCost sys weight (Function.update firing name (some (own, calls))) + cbCost weight (some c.val) =
      firingCost sys weight firing := by
  have h := firingCost_update sys weight firing (some (own, calls)) hname
  have hbefore : sectionCost weight (firing name) = cbCost weight (some c.val) + callsCost weight calls := by
    rw [hf]
    exact List.sum_cons
  have hafter : sectionCost weight (some (own, calls)) = callsCost weight calls := rfl
  omega

variable (sys weight) in
theorem firingCost_unlock {firing : String → Option (Bool × List (Call Val))} {name : String} {own : Bool}
    (hf : firing name = some (own, [])) :
    firingCost sys weight (Function.update firing name none) = firingCost sys weight firing := by
  refine Finset.sum_congr rfl fun n _ => ?_
  by_cases hn : n = name
  · rw [hn, Function.update_self, hf]
    rfl
  · rw [Function.update_of_ne hn]

theorem Inv.disps {s : State} (h : Inv sys s) {i : Nat} {e : Eval} (he : s.evals[i]? = some e) :
    ∃ e₀, sys.evals[i]? = some e₀ ∧ e.period = e₀.period ∧ e.ins.length = e₀.ins.length ∧
      e.values.map (·.disp) = e₀.values.map (·.disp) := by
  obtain ⟨e₀, he₀, hc⟩ := h.evals i e he
  obtain ⟨-, -, hper, hins, hvals⟩ := config_fields hc
  refine ⟨e₀, he₀, hper, by simpa using congrArg List.length hins, ?_⟩
  simpa [Function.comp_def] using congrArg (List.map Prod.fst) hvals

theorem restCost_next {s : State} (h : Inv sys s) {i j : Nat} {e : Eval} {v : EvalVal} (he : s.evals[i]? = some e)
    (hv : e.values[j]? = some v) :
    restCost sys weight i j = v.disp.elim 0 (nameCost sys weight) + restCost sys weight i (j + 1) := by
  obtain ⟨e₀, he₀, -, -, hdisps⟩ := h.disps he
  have hj := congrArg (·[j]?) hdisps
  simp only [List.getElem?_map, hv, Option.map_some] at hj
  obtain ⟨w, hw, hd⟩ := Option.map_eq_some_iff.mp hj.symm
  obtain ⟨hlt, rfl⟩ := List.getElem?_eq_some_iff.mp hw
  unfold restCost
  rw [he₀, Option.elim_some, Option.elim_some, List.drop_eq_getElem_cons hlt, List.map_cons, List.sum_cons, hd]

theorem not_takes {s : State} (h : ∀ i reading evaluated, s.pc ≠ .scan i reading evaluated) : s.takes = false := by
  unfold State.takes
  split
  · exact absurd ‹_› (h _ _ _)
  · rfl

theorem Evaluates.ofThread {s : State} {a : Act} (h : Evaluates s a) : OfThread s a := by
  cases a with
  | thread now => trivial
  | disp | check | arm | call | unlock | startup => exact h

/-- Nothing adds to what is left to do, and an evaluation takes its own part away. -/
theorem potential_step {s t : State} {a : Act} (hpays : Pays sys weight) (hc : sys.counters = []) (hinv : Inv sys s)
    (hp : Placed sys s) (hq : Quiet sys s a) (hm : Moves s a t) :
    potential sys weight t + (if Evaluates s a then 1 else 0) ≤ potential sys weight s := by
  unfold potential
  have hcall : ∀ name, ¬ Evaluates s (.call name) := fun _ => id
  have hunlock : ∀ name, ¬ Evaluates s (.unlock name) := fun _ => id
  have hstartup : ∀ now, ¬ Evaluates s (.startup now) := fun _ => id
  have hthread : ∀ now : Int, s.takes = false → ¬ Evaluates s (.thread now) := fun now h ht => by
    rw [Evaluates, h] at ht
    cases ht
  cases hm with
  | @enter a name r hfree hcalls hother hquiet =>
    have hev : ¬ Evaluates s a := fun h => hother h.ofThread
    have hle := firingCost_enter sys weight false r.2 hfree
    rw [if_neg hev, State.entered, hquiet sys hc hq]
    rw [hquiet sys hc hq] at hle
    exact Nat.add_le_add_right (Nat.add_le_add_left hle _) _
  | @call name own c calls hf hc' =>
    have hname := dispatcher_listed (hp.calls name own _ hf c List.mem_cons_self)
    have hcost := firingCost_call weight hf hname
    rw [if_neg (hcall name)]
    simp only
    omega
  | @trigger name own c calls i hf hc' hlock =>
    have hname := dispatcher_listed (hp.calls name own _ hf c List.mem_cons_self)
    have hcost := firingCost_call weight hf hname
    have hflags := flagsCost_trigger sys weight s.evals i
    have hw : cbCost weight (some c.val) = weight i := by rw [hc']; rfl
    rw [if_neg (hcall name)]
    simp only
    omega
  | @unlock name own hf =>
    have hcost := firingCost_unlock sys weight hf
    have hplace : placeCost sys weight (if own then s.pc.published else s.pc) = placeCost sys weight s.pc := by
      split
      · cases s.pc <;> rfl
      · rfl
    rw [if_neg (hunlock name)]
    simp only [hplace, hcost]
    omega
  | @startup now hpc =>
    have hle := flagsCost_le sys weight (s.evals.map fun e => { e with pending := true, next := now })
    rw [if_neg (hstartup _), hpc]
    simp only [placeCost]
    omega
  | wake hpc =>
    rw [if_neg (hthread _ (not_takes (by rcases hpc with h | h <;> simp [h])))]
    rcases hpc with h | h <;> simp [h, placeCost]
  | @turn now reading i evaluated hpc he =>
    rw [if_neg (hthread _ (by simp [State.takes, hpc, he]))]
    cases evaluated <;> simp [hpc, placeCost]
  | skip hpc he hidle =>
    rw [if_neg (hthread _ (by simpa [State.takes, hpc, he] using hidle))]
    simp [hpc, placeCost]
  | fire hpc he hper hdue =>
    have : s.fires = true := by simp [State.fires, hpc, he, hper, hdue]
    rw [Quiet, this] at hq
    cases hq
  | @take now reading i evaluated e hpc he hper hpending =>
    obtain ⟨e₀, he₀, -⟩ := hinv.disps he
    have hi := (List.getElem?_eq_some_iff.mp he₀).1
    have hflags := flagsCost_take weight he hper hpending hi
    have hpay := hpays i hi
    have hev : (if Evaluates s (.thread now) then 1 else 0) ≤ 1 := by split <;> omega
    simp only [hpc, placeCost]
    omega
  | @work now reading i k e g pc used hpc he hg hnext =>
    rw [if_neg (hthread _ (not_takes (by simp [hpc]))), flagsCost_modify hg]
    rcases hnext with ⟨-, rfl⟩ | rfl <;> simp [hpc, placeCost]
  | finish hpc he hj =>
    rw [if_neg (hthread _ (not_takes (by simp [hpc])))]
    simp [hpc, placeCost]
  | hide hpc he hv hd =>
    rw [if_neg (hthread _ (not_takes (by simp [hpc])))]
    simp only [hpc, placeCost, restCost_next hinv he hv, hd]
    simp
  | @publish now i j e v name f hpc he hv hd hfree =>
    have hle := firingCost_enter sys weight true ((s.names name).dispVal now (some (.eval i)) f v.valid).2 hfree
    have hcalls := callsCost_dispVal weight (s.names name) now (some (.eval i)) f v.valid
    have hcost : nameCost sys weight name = ((s.names name).valueCbs.map (cbCost weight)).sum := by
      rw [(Dispatcher.config_fields (hinv.names name)).2.2.2.2]
      rfl
    rw [if_neg (hthread _ (not_takes (by simp [hpc])))]
    simp only [State.entered, hpc, placeCost, restCost_next hinv he hv, hd, Option.elim_some]
    omega

end Potential

/-! ## Passes -/

section Passes

variable (sys : System)

def insCount (i : Nat) : Nat := sys.evals[i]?.elim 0 (·.ins.length)

def valuesCount (i : Nat) : Nat := sys.evals[i]?.elim 0 (·.values.length)

/-- How many steps the thread can take without another evaluation. -/
def Pc.left : Pc → Nat
  | off | start | wait => sys.evals.length + 2
  | scan i _ false => sys.evals.length + 1 - i
  | scan i _ true => sys.evals.length + 1 - i + (sys.evals.length + 2)
  | refresh i k _ => insCount sys i - k + valuesCount sys i + 2 * sys.evals.length + 6
  | publish i j => valuesCount sys i - j + 2 * sys.evals.length + 5
  | publishing i j => valuesCount sys i - (j + 1) + 2 * sys.evals.length + 5

def limit : Nat :=
  ((Finset.range sys.evals.length).sup fun i => insCount sys i + valuesCount sys i) + 2 * sys.evals.length + 6

variable {sys}

theorem Inv.counts {s : State} (h : Inv sys s) {i : Nat} {e : Eval} (he : s.evals[i]? = some e) :
    i < sys.evals.length ∧ insCount sys i = e.ins.length ∧ valuesCount sys i = e.values.length := by
  obtain ⟨e₀, he₀, -, hins, hdisps⟩ := h.disps he
  refine ⟨(List.getElem?_eq_some_iff.mp he₀).1, ?_, ?_⟩
  · rw [insCount, he₀, Option.elim_some, hins]
  · rw [valuesCount, he₀, Option.elim_some]
    simpa using (congrArg List.length hdisps).symm

theorem left_le_limit {i : Nat} (hi : i < sys.evals.length) (now : Int) :
    (Pc.refresh i 0 now).left sys ≤ limit sys := by
  have hle := Finset.le_sup (f := fun i => insCount sys i + valuesCount sys i) (Finset.mem_range.mpr hi)
  simp only [Pc.left, limit]
  omega

/-- A pass without evaluations ends with no flag set, and every other step of the thread has an end. -/
theorem left_step {s t : State} {a : Act} (hinv : Inv sys s) (hp : Placed sys s) (hq : Quiet sys s a)
    (hm : Moves s a t) :
    NonePending t ∨ t.pc.left sys + (if OfThread s a then 1 else 0) ≤ s.pc.left sys ∨
      Evaluates s a ∧ t.pc.left sys ≤ limit sys := by
  have hother : ∀ pc : Pc, pc.left sys = s.pc.left sys → ¬ OfThread s a →
      pc.left sys + (if OfThread s a then 1 else 0) ≤ s.pc.left sys := fun pc hpc hno => by
    rw [if_neg hno, hpc, Nat.add_zero]
  have hthread : ∀ (now : Int) (pc : Pc), pc.left sys < s.pc.left sys →
      pc.left sys + (if OfThread s (.thread now) then 1 else 0) ≤ s.pc.left sys := fun now pc h => by
    rw [if_pos (show OfThread s (.thread now) from trivial)]
    exact h
  cases hm with
  | enter hfree hcalls hno => exact .inr (.inl (hother _ rfl hno))
  | call | trigger => exact .inr (.inl (hother _ rfl id))
  | @unlock name own hf =>
    refine .inr (.inl (hother _ ?_ id))
    simp only
    split
    · cases s.pc <;> rfl
    · rfl
  | startup hpc => exact .inr (.inl (hother _ (by rw [hpc]; rfl) id))
  | wake hpc =>
    refine .inr (.inl (hthread _ _ ?_))
    rcases hpc with h | h <;> simp [h, Pc.left]
  | @turn now reading i evaluated hpc he =>
    cases evaluated with
    | true =>
      refine .inr (.inl (hthread _ _ ?_))
      simp only [if_true, hpc, Pc.left]
      omega
    | false =>
      refine .inl fun e he' hper => ?_
      obtain ⟨j, hj⟩ := List.mem_iff_getElem?.mp he'
      have hlt := (List.getElem?_eq_some_iff.mp hj).1
      have hle := List.getElem?_eq_none_iff.mp he
      exact hp.scanned i reading hpc j e (lt_of_lt_of_le hlt hle) hj hper
  | @skip now reading i evaluated e hpc he hidle =>
    obtain ⟨hi, -⟩ := hinv.counts he
    refine .inr (.inl (hthread _ _ ?_))
    cases evaluated <;> simp only [hpc, Pc.left] <;> omega
  | fire hpc he hper hdue =>
    have hfires : s.fires = true := by simp [State.fires, hpc, he, hper, hdue]
    rw [Quiet, hfires] at hq
    cases hq
  | @take now reading i evaluated e hpc he hper hpending =>
    refine .inr (.inr ⟨?_, left_le_limit (hinv.counts he).1 now⟩)
    simp [Evaluates, State.takes, hpc, he, hper, hpending]
  | @work now reading i k e g pc used hpc he hg hnext =>
    obtain ⟨-, hins, hvals⟩ := hinv.counts he
    refine .inr (.inl (hthread _ _ ?_))
    rcases hnext with ⟨hk, rfl⟩ | rfl <;> simp only [hpc, Pc.left] <;> omega
  | @finish now i j e hpc he hj =>
    refine .inr (.inl (hthread _ _ ?_))
    simp only [hpc, Pc.left]
    omega
  | @hide now i j e v hpc he hv hd =>
    obtain ⟨-, -, hvals⟩ := hinv.counts he
    have hj := (List.getElem?_eq_some_iff.mp hv).1
    refine .inr (.inl (hthread _ _ ?_))
    simp only [hpc, Pc.left]
    omega
  | @publish now i j e v name f hpc he hv hd hfree =>
    obtain ⟨-, -, hvals⟩ := hinv.counts he
    have hj := (List.getElem?_eq_some_iff.mp hv).1
    refine .inr (.inl (hthread _ _ ?_))
    simp only [State.entered, hpc, Pc.left]
    omega

end Passes

/-! ## Every cascade ends -/

theorem placed_run {conf : Config} {sys : System} (hload : load conf = some sys) {l : List Act} {s : State}
    (hrun : Run step (start sys) l s) : Inv sys s ∧ Placed sys s :=
  hrun.invariant (I := fun s => Inv sys s ∧ Placed sys s)
    (fun _ a _ hs hst => ⟨hs.1.step (load_spec hload) a hst, hs.2.step hs.1 (moves_of_step hst)⟩)
    ⟨.init sys, .init sys⟩

theorem load_counters {conf : Config} {sys : System} (hload : load conf = some sys) (hnone : conf.counters = []) :
    sys.counters = [] := by
  obtain ⟨_, _, _, hcounters, -⟩ := load_steps hload
  refine List.eq_nil_iff_forall_not_mem.mpr fun c hc => ?_
  obtain ⟨cfg, hcfg, -⟩ := Counters.mem_counterConfigure hcounters hc
  rw [hnone] at hcfg
  cases hcfg

theorem section_goes_on {s : State} {name : String} {f : Bool × List (Call Val)} (hf : s.firing name = some f)
    (hlock : s.pc.holdsLock = false) :
    ∃ name t, step s (.call name) = some t ∨ step s (.unlock name) = some t := by
  obtain ⟨own, calls⟩ := f
  cases calls with
  | nil =>
    refine ⟨name, ?_⟩
    simp only [step, hf]
    exact ⟨_, .inr rfl⟩
  | cons c calls =>
    refine ⟨name, ?_⟩
    simp only [step, hf, hlock, Bool.false_eq_true, if_false]
    split <;> exact ⟨_, .inl rfl⟩

theorem goes_on {sys : System} {s : State} (hp : Placed sys s) (hon : s.pc ≠ .off) :
    (∀ now, ∃ t, step s (.thread now) = some t) ∨
      ∃ name t, step s (.call name) = some t ∨ step s (.unlock name) = some t := by
  cases hpc : s.pc with
  | off => exact absurd hpc hon
  | start | wait =>
    refine .inl fun now => ?_
    simp only [step, threadStep, hpc]
    exact ⟨_, rfl⟩
  | scan i reading evaluated =>
    refine .inl fun now => ?_
    simp only [step, threadStep, hpc]
    split
    · exact ⟨_, rfl⟩
    · split <;> split <;> exact ⟨_, rfl⟩
  | refresh i k reading =>
    refine .inl fun now => ?_
    have hi := hp.lt i (by rw [hpc]; rfl)
    simp only [step, threadStep, hpc, List.getElem?_eq_getElem hi]
    split <;> exact ⟨_, rfl⟩
  | publish i j =>
    have hi := hp.lt i (by rw [hpc]; rfl)
    by_cases hfree : ∀ v ∈ s.evals[i].values[j]?, ∀ name ∈ v.disp, s.firing name = none
    · refine .inl fun now => ?_
      simp only [step, threadStep, hpc, List.getElem?_eq_getElem hi]
      split
      · exact ⟨_, rfl⟩
      · rename_i v hv
        split
        · exact ⟨_, rfl⟩
        · rename_i name hd
          exact ⟨_, if_pos (hfree v hv name hd)⟩
    · push Not at hfree
      obtain ⟨v, -, name, -, hf⟩ := hfree
      obtain ⟨f, hf⟩ := Option.ne_none_iff_exists'.mp hf
      exact .inr (section_goes_on hf (by rw [hpc]; rfl))
  | publishing i j =>
    obtain ⟨name, calls, hf⟩ := hp.publishing i j hpc
    exact .inr (section_goes_on hf (by rw [hpc]; rfl))

/-- **Cascades end.** Without counters, when no input value or watchdog reset is dispatched and no
periodic eval fires, the thread starts a bounded number of triggered evaluations; once it has made
enough steps, it has passed a state in which no triggered eval is pending. As long as it runs, it
can make a step or waits for a section that can. -/
theorem cascades_end (conf : Config) (sys : System) (hload : load conf = some sys) (hnone : conf.counters = [])
    (l₀ : List Act) (s : State) (hreach : Run step (start sys) l₀ s) :
    (∃ n, ∀ l t, Run step s l t → Meets step (Quiet sys) s l → countSteps step Evaluates s l ≤ n) ∧
    (∃ n, ∀ l t, Run step s l t → Meets step (Quiet sys) s l → n < countSteps step OfThread s l →
      ∃ l₁ l₂ u, l = l₁ ++ l₂ ∧ Run step s l₁ u ∧ NonePending u) ∧
    (s.pc ≠ .off → (∀ now, ∃ t, step s (.thread now) = some t) ∨
      ∃ name t, step s (.call name) = some t ∨ step s (.unlock name) = some t) := by
  obtain ⟨weight, hpays⟩ := exists_pays hload
  have hcounters := load_counters hload hnone
  obtain ⟨hinv, hplaced⟩ := placed_run hload hreach
  let I (s : State) : Prop := Inv sys s ∧ Placed sys s
  have hI : ∀ s a t, I s → step s a = some t → I t := fun s a t hs hst =>
    ⟨hs.1.step (load_spec hload) a hst, hs.2.step hs.1 (moves_of_step hst)⟩
  refine ⟨⟨potential sys weight s, fun l t hrun hquiet => ?_⟩,
    ⟨potential sys weight s * (limit sys + 1) + s.pc.left sys, fun l t hrun hquiet hlong => ?_⟩, goes_on hplaced⟩
  · have hle := hrun.countSteps_le (I := I) (C := Evaluates) (μ := potential sys weight)
      (fun s a t hs hq hst => ⟨hI s a t hs hst,
        potential_step hpays hcounters hs.1 hs.2 hq (moves_of_step hst)⟩) hquiet ⟨hinv, hplaced⟩
    omega
  · refine hrun.passes (I := I) (C := OfThread) (P := NonePending)
      (μ := fun s => potential sys weight s * (limit sys + 1) + s.pc.left sys)
      (fun s a t hs hq hst => ⟨hI s a t hs hst, ?_⟩) hquiet ⟨hinv, hplaced⟩ hlong
    have hm := moves_of_step hst
    have hpot := potential_step hpays hcounters hs.1 hs.2 hq hm
    rcases left_step hs.1 hs.2 hq hm with hP | hleft | ⟨hev, hlim⟩
    · exact .inl hP
    · have hmul := Nat.mul_le_mul_right (limit sys + 1)
        (show potential sys weight t ≤ potential sys weight s by omega)
      exact .inr (by omega)
    · -- the evaluation pays for the steps that it brings
      rw [if_pos hev] at hpot
      have hmul := Nat.mul_le_mul_right (limit sys + 1) hpot
      rw [Nat.add_mul, Nat.one_mul] at hmul
      have hone : (if OfThread s a then 1 else 0) ≤ 1 := by split <;> omega
      exact .inr (by omega)

/-- `y { expr = "x" }` and `z { expr = "y" }` in two evals. -/
def chainConfig : Config where
  can := [{ inst := "can0", groups := [{ dir := .input, values := [{ title := "x" }] }] }]
  evals :=
    [{ title := "a", values := [{ title := "y", expr := some (.var "x") }] },
     { title := "b", values := [{ title := "z", expr := some (.var "y") }] }]

def chainSystem : System := (load chainConfig).get (by rfl)

def chainStarted : State := ([.startup 1].foldlM step (start chainSystem)).get (by rfl)

theorem cascades_end_example :
    ∃ n, ∀ l t, Run step chainStarted l t → Meets step (Quiet chainSystem) chainStarted l →
      countSteps step Evaluates chainStarted l ≤ n :=
  (cascades_end chainConfig chainSystem (Option.some_get _).symm rfl [.startup 1] chainStarted
    (Option.some_get _).symm).1

/-! ## Flags of periodic evals -/

theorem periodic_pending {s t : State} {a : Act} (hm : Moves s a t) {i : Nat}
    (h : ∃ e, s.evals[i]? = some e ∧ 0 < e.period ∧ e.pending = true) :
    ∃ e, t.evals[i]? = some e ∧ 0 < e.period ∧ e.pending = true := by
  obtain ⟨e, he, hper, hpending⟩ := h
  have hmod : ∀ (k : Nat) (g : Eval → Eval),
      (∀ e', s.evals[k]? = some e' → k = i → (g e').pending = true ∧ (g e').period = e'.period) →
      ∃ e, (s.evals.modify k g)[i]? = some e ∧ 0 < e.period ∧ e.pending = true := by
    intro k g hg
    by_cases hk : k = i
    · subst hk
      obtain ⟨hgp, hgper⟩ := hg e he rfl
      exact ⟨g e, by rw [List.getElem?_modify_eq, he]; rfl, by rw [hgper]; exact hper, hgp⟩
    · exact ⟨e, by rw [List.getElem?_modify_ne _ _ hk]; exact he, hper, hpending⟩
  cases hm with
  | enter | call | unlock | wake | turn | skip | finish | hide | publish => exact ⟨e, he, hper, hpending⟩
  | trigger hf hc hlock => exact hmod _ _ fun _ _ _ => ⟨rfl, rfl⟩
  | @startup now hpc =>
    exact ⟨{ e with pending := true, next := now }, by rw [List.getElem?_map, he]; rfl, hper, rfl⟩
  | fire hpc he' hp hdue hg | work hpc he' hg =>
    refine hmod _ _ fun e' he'' hk => ⟨?_, (hg e').2⟩
    subst hk
    obtain rfl := Option.some.inj (he.symm.trans he'')
    rw [(hg e).1, hpending]
  | take hpc he' hp hpend =>
    refine hmod _ _ fun e' he'' hk => ?_
    subst hk
    obtain rfl := Option.some.inj (he.symm.trans he')
    omega

/-- `period = 1000`, `value y { expr = "1" }`. -/
def periodicConfig : Config where
  evals := [{ title := "e", period := some 1000, values := [{ title := "y", expr := some (.const (.fin 1)) }] }]

def periodicSystem : System := (load periodicConfig).get (by rfl)

/-- The first evaluation, until the thread waits. -/
def periodicActs : List Act :=
  [.startup 1, .thread 1, .thread 1, .thread 1, .thread 1, .unlock "y", .thread 1, .thread 1, .thread 1, .thread 1]

def periodicEnd : State := (periodicActs.foldlM step (start periodicSystem)).get (by rfl)

/-- Three steps of the thread that find nothing due. -/
def idlePass : List Act := [.thread 2, .thread 2, .thread 2]

theorem idlePass_run : Run step periodicEnd idlePass periodicEnd := rfl

/-- **A flag that stays.** The flag of a periodic eval is set by `eval_startup` and never cleared: no
run reaches a state without pending flags, however long and quiet it is. -/
theorem periodic_flag_stays :
    load periodicConfig = some periodicSystem ∧ periodicConfig.counters = [] ∧
    Run step (start periodicSystem) periodicActs periodicEnd ∧
    (∀ n, ∃ l, Run step periodicEnd l periodicEnd ∧ Meets step (Quiet periodicSystem) periodicEnd l ∧
      n < countSteps step OfThread periodicEnd l) ∧
    ∀ l t, Run step periodicEnd l t → ∃ e ∈ t.evals, e.pending = true := by
  refine ⟨(Option.some_get _).symm, rfl, (Option.some_get _).symm, fun n => ?_, fun l t hrun => ?_⟩
  · have hquiet : Meets step (Quiet periodicSystem) periodicEnd idlePass := by decide +kernel
    have hcount : countSteps step OfThread periodicEnd idlePass = 3 := by decide +kernel
    induction n with
    | zero => exact ⟨idlePass, idlePass_run, hquiet, by omega⟩
    | succ n ih =>
      obtain ⟨l, hl, hq, hn⟩ := ih
      refine ⟨idlePass ++ l, (run_append ..).mpr ⟨_, idlePass_run, hl⟩,
        (meets_append idlePass_run).mpr ⟨hquiet, hq⟩, ?_⟩
      rw [countSteps_append idlePass_run]
      omega
  · obtain ⟨e, he, -, hp⟩ := hrun.invariant (fun _ _ _ h hst => periodic_pending (moves_of_step hst) (i := 0) h)
      ⟨periodicEnd.evals.head (by decide +kernel), rfl, by decide +kernel, by decide +kernel⟩
    exact ⟨e, List.mem_of_getElem? he, hp⟩

end Uvrgw.EvalThread
