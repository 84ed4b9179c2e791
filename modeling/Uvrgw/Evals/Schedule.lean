import Mathlib.Data.List.Basic
import Uvrgw.Lib.Grid
import Uvrgw.Lib.Lists
import Uvrgw.Lib.Run

/-!
# The schedule of periodic evals (`eval_thread`)

The loop of the thread with its clock readings. An evaluation ends whenever the environment likes; `trigger_update`
runs while the thread does not hold `lock`.
-/

namespace Uvrgw.Evals.Schedule

open Uvrgw.Lib

/-! ## Machine -/

/-- The fields of `EVAL_T` that the loop works on. -/
structure Timer where
  /-- 0 is triggered. -/
  period : Int := 0
  pending : Bool := false
  next : Int := 0
  deriving DecidableEq, Repr

/-- Where the thread is; `nextDue` is `none` for `INT64_MAX`. -/
inductive Pc where
  /-- Before `eval_startup`. -/
  | off
  /-- The thread has not got `lock` yet. -/
  | start
  /-- At the condition of the outer loop. -/
  | top
  /-- In a pass, at eval `i`. -/
  | scan (i : Nat) (nextDue : Option Int) (evaluated : Bool)
  /-- In `evaluate`, without `lock`. -/
  | evaluating (i : Nat) (nextDue : Option Int)
  /-- In the wait for `cond`, until a time. -/
  | sleep (nextDue : Option Int)
  | done
  deriving DecidableEq, Repr

def Pc.holdsLock : Pc → Bool
  | top | scan .. => true
  | _ => false

/-- The eval that is evaluated. -/
def Pc.current : Pc → Option Nat
  | evaluating i _ => some i
  | _ => none

/-- What the thread does with an eval, and its reading of the clock. -/
inductive Event where
  /-- A pass comes by. -/
  | visit (i : Nat) (now : Int)
  /-- `evaluate` is called. -/
  | evaluate (i : Nat) (now : Int)
  deriving DecidableEq, Repr

structure State where
  timers : List Timer
  pc : Pc := .off
  running : Bool := false
  /-- The last reading of the clock. -/
  now : Int := 0
  /-- The reading of `eval_startup`. -/
  startTime : Int := 0
  log : List Event := []
  deriving DecidableEq, Repr

inductive Act where
  | startup (now : Int)
  | trigger (i : Nat)
  | shutdown
  /-- `now = utl_get_ticks()` of a pass. -/
  | pass (now : Int)
  /-- The body of the inner loop, up to `evaluate`. -/
  | visit
  /-- `evaluate` returns, with the next reading. -/
  | evaluated (now : Int)
  /-- Behind the inner loop. -/
  | finish
  /-- The wait ends, for whatever reason. -/
  | wake
  | exit
  deriving DecidableEq, Repr

/-- `if (e->next < next_due) next_due = e->next`. -/
def lower (next : Int) (nextDue : Option Int) : Option Int := if nextDue.all (next < ·) then some next else nextDue

/-- What a visit makes of an eval, and whether it is due. -/
def Timer.visit (e : Timer) (now : Int) : Timer × Bool :=
  if 0 < e.period then
    if e.next ≤ now then ({ e with next := e.next + ((now - e.next) / e.period + 1) * e.period }, true)
    else (e, false)
  else ({ e with pending := false }, e.pending)

/-- The thread leaves `lock` and calls `evaluate`. -/
def State.evaluate (s : State) (i : Nat) (nextDue : Option Int) : State :=
  { s with pc := .evaluating i nextDue, log := s.log ++ [.evaluate i s.now] }

def visit (s : State) (i : Nat) (e : Timer) (nextDue : Option Int) (evaluated : Bool) : State :=
  let (e, due) := e.visit s.now
  let nextDue := if 0 < e.period then lower e.next nextDue else nextDue
  let s := { s with timers := s.timers.set i e, log := s.log ++ [Event.visit i s.now] }
  if due then s.evaluate i nextDue else { s with pc := .scan (i + 1) nextDue evaluated }

/-- Readings of the clock never decrease. -/
def step (s : State) : Act → Option State
  | .startup now =>
    if s.pc = .off ∧ s.timers ≠ [] ∧ s.now ≤ now then
      some { s with
        timers := s.timers.map fun e => { e with pending := true, next := now }
        pc := .start
        running := true
        now := now
        startTime := now }
    else none
  | .trigger i =>
    if s.pc.holdsLock then none
    else some { s with timers := s.timers.modify i fun e => { e with pending := true } }
  | .shutdown => if s.pc.holdsLock then none else some { s with running := false }
  | .pass now =>
    if (s.pc = .start ∨ s.pc = .top) ∧ s.running ∧ s.now ≤ now then
      some { s with pc := .scan 0 none false, now := now }
    else none
  | .exit => if (s.pc = .start ∨ s.pc = .top) ∧ ¬ s.running then some { s with pc := .done } else none
  | .visit =>
    match s.pc with
    | .scan i nextDue evaluated => s.timers[i]?.map fun e => visit s i e nextDue evaluated
    | _ => none
  | .evaluated now =>
    match s.pc with
    | .evaluating i nextDue =>
      if s.now ≤ now then some { s with pc := .scan (i + 1) nextDue true, now := now } else none
    | _ => none
  | .finish =>
    match s.pc with
    | .scan i nextDue evaluated =>
      if s.timers.length ≤ i then
        some { s with pc := if evaluated ∨ ¬ s.running then .top else .sleep nextDue }
      else none
    | _ => none
  | .wake =>
    match s.pc with
    | .sleep _ => some { s with pc := .top }
    | _ => none

def Init (s : State) : Prop := s.pc = .off ∧ s.log = []

/-! ## What the schedule should be -/

/-- The visits of an eval: their readings, and whether `evaluate` is called for it then and there. -/
def visits (i : Nat) : List Event → List (Int × Bool)
  | [] => []
  | .visit j now :: log => (if j = i then [(now, decide (log.head? = some (.evaluate i now)))] else []) ++
      visits i log
  | .evaluate _ _ :: log => visits i log

/-- The calls of `evaluate` for an eval. -/
def evaluations (i : Nat) (log : List Event) : List Int :=
  log.filterMap fun
    | .evaluate j now => if j = i then some now else none
    | .visit _ _ => none

structure OnSchedule (start : Int) (e : Timer) (visits : List (Int × Bool)) (evaluations : List Int) : Prop where
  congruent : e.next ≡ start [ZMOD e.period]
  ahead : ∀ now due, visits.getLast? = some (now, due) → now < e.next ∧ e.next ≤ now + e.period
  /-- At most one evaluation for a point, before the next one. -/
  once : ∀ point, OnGrid start e.period point →
    evaluations.countP (fun t => point ≤ t && t < point + e.period) ≤ 1
  /-- An evaluation in each visit that is the first one after some point, and in no other. -/
  served : ∀ pre now evaluated, pre ++ [(now, evaluated)] <+: visits →
    (evaluated = true ↔ ∃ point, OnGrid start e.period point ∧ start ≤ point ∧ point ≤ now ∧ ∀ v ∈ pre, v.1 < point)

/-- A wait ends when the first of the periodic evals is due. -/
structure Wakes (timers : List Timer) (nextDue : Option Int) : Prop where
  before : ∀ e ∈ timers, 0 < e.period → ∃ t, nextDue = some t ∧ t ≤ e.next
  due : ∀ t, nextDue = some t → ∃ e ∈ timers, 0 < e.period ∧ e.next = t

/-! ## One eval -/

/-- The visits with an evaluation. -/
def evaluated (visits : List (Int × Bool)) : List Int := (visits.filter (·.2)).map (·.1)

/-- `next` is the first point, from the start on, that no visit has passed. -/
structure Tracked (start now : Int) (e : Timer) (visits : List (Int × Bool)) : Prop where
  schedule : OnSchedule start e visits (evaluated visits)
  order : ∀ v ∈ visits, v.1 ≤ now
  after : start ≤ e.next ∧ ∀ v ∈ visits, v.1 < e.next
  first : ∀ point, OnGrid start e.period point → start ≤ point → (∀ v ∈ visits, v.1 < point) → e.next ≤ point

section Track

variable {start now : Int} {e : Timer} {visits : List (Int × Bool)}

theorem Tracked.initial (now : Int) (h : e.next = start) : Tracked start now e [] where
  schedule :=
    { congruent := by rw [h]
      ahead := fun _ _ hlast => nomatch hlast
      once := fun _ _ => Nat.zero_le 1
      served := fun pre _ _ hpre => absurd (List.prefix_nil.mp hpre) (by simp) }
  order := fun _ hv => nomatch hv
  after := ⟨h.ge, fun _ hv => nomatch hv⟩
  first := fun point _ hpoint _ => h.symm ▸ hpoint

theorem Tracked.mono (h : Tracked start now e visits) {now' : Int} (hnow : now ≤ now') :
    Tracked start now' e visits where
  schedule := h.schedule
  order := fun v hv => (h.order v hv).trans hnow
  after := h.after
  first := h.first

/-- Only `period` and `next` count. -/
theorem Tracked.congr (h : Tracked start now e visits) {e' : Timer} (hperiod : e'.period = e.period)
    (hnext : e'.next = e.next) : Tracked start now e' visits := by
  obtain ⟨⟨h1, h2, h3, h4⟩, h5, h6, h7⟩ := h
  refine ⟨⟨?_, ?_, ?_, ?_⟩, h5, ?_, ?_⟩
  all_goals
    rw [hperiod] at *
    try rw [hnext]
    assumption

theorem visit_period (e : Timer) (now : Int) : (e.visit now).1.period = e.period := by
  unfold Timer.visit
  split_ifs <;> rfl

theorem visit_due (hp : 0 < e.period) (now : Int) : (e.visit now).2 = true ↔ e.next ≤ now := by
  unfold Timer.visit
  rw [if_pos hp]
  split_ifs with hdue
  · simp [hdue]
  · simp [hdue]

/-- Due or not, a visit leaves `next` at the first point after its reading. -/
theorem Tracked.visit_next (h : Tracked start now e visits) (hp : 0 < e.period) (hstart : start ≤ now) :
    (e.visit now).1.next = nextPoint start e.period now := by
  unfold Timer.visit
  rw [if_pos hp]
  split_ifs with hdue
  · exact nextPoint_of_onGrid hp h.schedule.congruent now
  · have hlt : now < nextPoint start e.period now := lt_nextPoint hp now
    apply le_antisymm
    · apply h.first _ (onGrid_nextPoint ..) (hstart.trans hlt.le)
      intro v hv
      exact (h.order v hv).trans_lt hlt
    · exact nextPoint_le_of_lt hp h.schedule.congruent (not_le.mp hdue)

theorem Tracked.next_le_iff (h : Tracked start now e visits) (t : Int) :
    e.next ≤ t ↔ ∃ point, OnGrid start e.period point ∧ start ≤ point ∧ point ≤ t ∧ ∀ v ∈ visits, v.1 < point := by
  constructor
  · intro hle
    exact ⟨e.next, h.schedule.congruent, h.after.1, hle, h.after.2⟩
  · rintro ⟨point, hon, hstart, hle, hbefore⟩
    exact (h.first point hon hstart hbefore).trans hle

/-- The evaluations so far are for points before `next`. -/
theorem Tracked.count_eq_zero (h : Tracked start now e visits) (hdue : e.next ≤ now) {point : Int}
    (hon : OnGrid start e.period point) (hlt : now < point + e.period) :
    (evaluated visits).countP (fun t => point ≤ t && t < point + e.period) = 0 := by
  rw [List.countP_eq_zero]
  intro t ht hcount
  obtain ⟨v, hv, rfl⟩ := List.mem_map.mp ht
  simp only [Bool.and_eq_true, decide_eq_true_eq] at hcount
  have := h.after.2 v (List.mem_filter.mp hv).1
  have := hon.add_le h.schedule.congruent (by omega)
  omega

theorem evaluated_concat (visits : List (Int × Bool)) (now : Int) (due : Bool) :
    evaluated (visits ++ [(now, due)]) = evaluated visits ++ if due then [now] else [] := by
  unfold evaluated
  rw [List.filter_append, List.map_append]
  cases due <;> rfl

theorem Tracked.visit (h : Tracked start now e visits) (hp : 0 < e.period) (hstart : start ≤ now) :
    Tracked start now (e.visit now).1 (visits ++ [(now, (e.visit now).2)]) := by
  have hnext := h.visit_next hp hstart
  have hlt : now < nextPoint start e.period now := lt_nextPoint hp now
  constructor
  · constructor
    · rw [visit_period, hnext]
      exact onGrid_nextPoint ..
    · intro t due hlast
      rw [List.getLast?_concat, Option.some.injEq, Prod.mk.injEq] at hlast
      rw [visit_period, hnext, ← hlast.1]
      exact ⟨hlt, nextPoint_le hp now⟩
    · intro point hon
      rw [visit_period] at hon ⊢
      rw [evaluated_concat, List.countP_append]
      split_ifs with hdue
      · rw [List.countP_singleton]
        split_ifs with hcount
        · simp only [Bool.and_eq_true, decide_eq_true_eq] at hcount
          rw [h.count_eq_zero ((visit_due hp now).mp hdue) hon hcount.2]
        · exact h.schedule.once point hon
      · exact h.schedule.once point hon
    · intro pre t due hpre
      rw [visit_period]
      rcases List.prefix_concat_iff.mp hpre with heq | hpre
      · obtain ⟨rfl, hv⟩ := List.append_inj' heq rfl
        simp only [List.cons.injEq, Prod.mk.injEq, and_true] at hv
        rw [hv.1, hv.2, visit_due hp now, h.next_le_iff now]
      · exact h.schedule.served pre t due hpre
  · intro v hv
    rcases List.mem_append.mp hv with hv | hv
    · exact h.order v hv
    · rw [List.mem_singleton.mp hv]
  · rw [hnext]
    refine ⟨hstart.trans hlt.le, ?_⟩
    intro v hv
    rcases List.mem_append.mp hv with hv | hv
    · exact (h.order v hv).trans_lt hlt
    · rw [List.mem_singleton.mp hv]
      exact hlt
  · intro point hon _ hbefore
    rw [visit_period] at hon
    rw [hnext]
    exact nextPoint_le_of_lt hp hon (hbefore _ List.mem_concat_self)

end Track

/-! ## `next_due` -/

theorem Wakes.nil : Wakes [] none where
  before := fun _ he => nomatch he
  due := fun _ ht => nomatch ht

theorem lower_cases (next : Int) (nextDue : Option Int) :
    ∃ t, lower next nextDue = some t ∧ t ≤ next ∧ (∀ u, nextDue = some u → t ≤ u) ∧
      (t = next ∨ nextDue = some t) := by
  unfold lower
  cases nextDue with
  | none => simp
  | some u =>
    simp only [Option.all_some, decide_eq_true_eq]
    split_ifs with hlt
    · exact ⟨next, rfl, le_rfl, by simpa using hlt.le, .inl rfl⟩
    · exact ⟨u, rfl, not_lt.mp hlt, by simp, .inr rfl⟩

theorem Wakes.concat {timers : List Timer} {nextDue : Option Int} (h : Wakes timers nextDue) (e : Timer) :
    Wakes (timers ++ [e]) (if 0 < e.period then lower e.next nextDue else nextDue) := by
  split_ifs with hp
  · obtain ⟨t, hlower, hnext, hle, hfrom⟩ := lower_cases e.next nextDue
    rw [hlower]
    constructor
    · intro e' he' hp'
      rcases List.mem_append.mp he' with he' | he'
      · obtain ⟨u, hu, hue⟩ := h.before e' he' hp'
        exact ⟨t, rfl, (hle u hu).trans hue⟩
      · rw [List.mem_singleton.mp he']
        exact ⟨t, rfl, hnext⟩
    · rintro u ⟨⟩
      rcases hfrom with rfl | hfrom
      · exact ⟨e, List.mem_concat_self, hp, rfl⟩
      · obtain ⟨e', he', hdue⟩ := h.due t hfrom
        exact ⟨e', List.mem_append_left _ he', hdue⟩
  · constructor
    · intro e' he' hp'
      rcases List.mem_append.mp he' with he' | he'
      · exact h.before e' he' hp'
      · rw [List.mem_singleton.mp he'] at hp'
        exact absurd hp' hp
    · intro t ht
      obtain ⟨e', he', hdue⟩ := h.due t ht
      exact ⟨e', List.mem_append_left _ he', hdue⟩

theorem Wakes.modify {timers : List Timer} {nextDue : Option Int} (h : Wakes timers nextDue) (i : Nat)
    {f : Timer → Timer} (hf : ∀ e, (f e).period = e.period ∧ (f e).next = e.next) :
    Wakes (timers.modify i f) nextDue := by
  constructor
  · intro e' he' hp
    obtain ⟨j, hj⟩ := List.mem_iff_getElem?.mp he'
    obtain ⟨e, he, rfl⟩ := getElem?_modify_eq_some.mp hj
    have hsame : (if i = j then f e else e).period = e.period ∧ (if i = j then f e else e).next = e.next := by
      split_ifs
      · exact hf e
      · exact ⟨rfl, rfl⟩
    rw [hsame.1] at hp
    rw [hsame.2]
    exact h.before e (List.mem_of_getElem? he) hp
  · intro t ht
    obtain ⟨e, he, hp, hnext⟩ := h.due t ht
    obtain ⟨j, hj⟩ := List.mem_iff_getElem?.mp he
    refine ⟨_, List.mem_of_getElem? (getElem?_modify_eq_some.mpr ⟨e, hj, rfl⟩), ?_⟩
    split_ifs
    · rw [(hf e).1, (hf e).2]
      exact ⟨hp, hnext⟩
    · exact ⟨hp, hnext⟩

/-! ## The thread -/

/-- What is logged in a visit. -/
def entry (i : Nat) (now : Int) (due : Bool) : List Event := .visit i now :: if due then [.evaluate i now] else []

theorem visits_entry (j i : Nat) (now : Int) (due : Bool) (log : List Event) :
    visits j (log ++ entry i now due) = visits j log ++ if i = j then [(now, due)] else [] := by
  induction log with
  | nil =>
    by_cases hij : i = j
    · subst hij
      cases due <;> simp [entry, visits]
    · cases due <;> simp [entry, visits, hij]
  | cons event log ih =>
    cases event with
    | visit k t =>
      have hhead : (log ++ entry i now due).head? = some (.evaluate j t) ↔ log.head? = some (.evaluate j t) := by
        cases log <;> simp [entry]
      rw [List.cons_append, visits, visits, ih, List.append_assoc, decide_eq_decide.mpr hhead]
    | evaluate k t => exact ih

theorem evaluations_entry (j i : Nat) (now : Int) (due : Bool) (log : List Event) :
    evaluations j (log ++ entry i now due) =
      evaluations j log ++ evaluated (if i = j then [(now, due)] else []) := by
  unfold evaluations
  rw [List.filterMap_append]
  congr 1
  by_cases hij : i = j <;> cases due <;> simp [entry, evaluated, hij]

section Visit

variable (s : State) (i : Nat) (e : Timer) (nextDue : Option Int) (evaluated : Bool)

theorem visit_timers : (visit s i e nextDue evaluated).timers = s.timers.set i (e.visit s.now).1 := by
  unfold visit State.evaluate
  dsimp only
  split <;> rfl

theorem visit_pc : (visit s i e nextDue evaluated).pc =
    if (e.visit s.now).2 then
      .evaluating i (if 0 < (e.visit s.now).1.period then lower (e.visit s.now).1.next nextDue else nextDue)
    else .scan (i + 1) (if 0 < (e.visit s.now).1.period then lower (e.visit s.now).1.next nextDue else nextDue)
      evaluated := by
  unfold visit State.evaluate
  dsimp only
  split <;> rfl

theorem visit_log : (visit s i e nextDue evaluated).log = s.log ++ entry i s.now (e.visit s.now).2 := by
  unfold visit State.evaluate entry
  dsimp only
  split
  · rw [List.append_assoc]
    rfl
  · rfl

theorem visit_clock : (visit s i e nextDue evaluated).now = s.now ∧
    (visit s i e nextDue evaluated).startTime = s.startTime ∧
    (visit s i e nextDue evaluated).running = s.running := by
  unfold visit State.evaluate
  dsimp only
  split <;> exact ⟨rfl, rfl, rfl⟩

end Visit

/-- `next_due` covers the evals that the pass is behind. -/
def Pc.Collected (timers : List Timer) : Pc → Prop
  | scan i nextDue _ => Wakes (timers.take i) nextDue
  | evaluating i nextDue => Wakes (timers.take (i + 1)) nextDue
  | sleep nextDue => Wakes timers nextDue
  | _ => True

structure Inv (s : State) : Prop where
  idle : s.pc = .off → s.log = []
  clock : s.pc ≠ .off → s.startTime ≤ s.now
  tracked : s.pc ≠ .off → ∀ i e, s.timers[i]? = some e → 0 < e.period →
    Tracked s.startTime s.now e (visits i s.log)
  evaluated : ∀ i, evaluations i s.log = evaluated (visits i s.log)
  collected : s.pc.Collected s.timers

section Thread

variable {s : State}

theorem Inv.init (h : Init s) : Inv s where
  idle := fun _ => h.2
  clock := fun hpc => absurd h.1 hpc
  tracked := fun hpc => absurd h.1 hpc
  evaluated := by
    rw [h.2]
    exact fun _ => rfl
  collected := by
    rw [h.1]
    trivial

theorem Inv.startup (h : Inv s) (hpc : s.pc = .off) (now : Int) :
    Inv { s with
      timers := s.timers.map fun e => { e with pending := true, next := now }
      pc := .start
      running := true
      now := now
      startTime := now } where
  idle := nofun
  clock := fun _ => le_rfl
  tracked := by
    intro _ i e he _
    rw [List.getElem?_map] at he
    obtain ⟨e, -, rfl⟩ := Option.map_eq_some_iff.mp he
    rw [h.idle hpc]
    exact Tracked.initial now rfl
  evaluated := h.evaluated
  collected := trivial

theorem Inv.trigger (h : Inv s) (i : Nat) :
    Inv { s with timers := s.timers.modify i fun e => { e with pending := true } } where
  idle := h.idle
  clock := h.clock
  tracked := by
    intro hpc j e' he' hp
    obtain ⟨e, he, rfl⟩ := getElem?_modify_eq_some.mp he'
    split_ifs at hp ⊢
    · exact (h.tracked hpc j e he hp).congr rfl rfl
    · exact h.tracked hpc j e he hp
  evaluated := h.evaluated
  collected := by
    have hcollected := h.collected
    cases hpc : s.pc with
    | scan j nextDue evaluated =>
      rw [hpc] at hcollected
      show Wakes ((s.timers.modify i _).take j) nextDue
      rw [List.take_modify]
      exact Wakes.modify hcollected i fun _ => ⟨rfl, rfl⟩
    | evaluating j nextDue =>
      rw [hpc] at hcollected
      show Wakes ((s.timers.modify i _).take (j + 1)) nextDue
      rw [List.take_modify]
      exact Wakes.modify hcollected i fun _ => ⟨rfl, rfl⟩
    | sleep nextDue =>
      rw [hpc] at hcollected
      exact Wakes.modify hcollected i fun _ => ⟨rfl, rfl⟩
    | _ => trivial

/-- The thread moves on and the clock with it. -/
theorem Inv.move (h : Inv s) (hpc : s.pc ≠ .off) {pc : Pc} (hpc' : pc ≠ .off) {now : Int} (hnow : s.now ≤ now)
    (hcollected : pc.Collected s.timers) : Inv { s with pc := pc, now := now } where
  idle := fun hoff => absurd hoff hpc'
  clock := fun _ => (h.clock hpc).trans hnow
  tracked := fun _ i e he hp => (h.tracked hpc i e he hp).mono hnow
  evaluated := h.evaluated
  collected := hcollected

theorem Inv.visited (h : Inv s) (hpc : s.pc ≠ .off) {i : Nat} {e : Timer} {nextDue : Option Int} {evaluated : Bool}
    (hcollected : Wakes (s.timers.take i) nextDue) (he : s.timers[i]? = some e) :
    Inv (visit s i e nextDue evaluated) := by
  have hlt : i < s.timers.length := (List.getElem?_eq_some_iff.mp he).1
  have htake : (s.timers.set i (e.visit s.now).1).take (i + 1) = s.timers.take i ++ [(e.visit s.now).1] := by
    rw [List.take_add_one, List.take_set_of_le le_rfl, List.getElem?_set_self hlt]
    rfl
  obtain ⟨hnow, hstart, -⟩ := visit_clock s i e nextDue evaluated
  have hon : (visit s i e nextDue evaluated).pc ≠ .off := by
    rw [visit_pc]
    split_ifs <;> simp
  constructor
  · intro hoff
    exact absurd hoff hon
  · intro _
    rw [hnow, hstart]
    exact h.clock hpc
  · intro _ j e' he' hp
    rw [visit_timers] at he'
    rw [visit_log, visits_entry, hnow, hstart]
    by_cases hij : i = j
    · subst hij
      rw [List.getElem?_set_self hlt, Option.some.injEq] at he'
      subst he'
      rw [visit_period] at hp
      rw [if_pos rfl]
      exact (h.tracked hpc i e he hp).visit hp (h.clock hpc)
    · rw [List.getElem?_set_ne hij] at he'
      rw [if_neg hij, List.append_nil]
      exact h.tracked hpc j e' he' hp
  · intro j
    rw [visit_log, evaluations_entry, visits_entry, h.evaluated j]
    unfold Schedule.evaluated
    rw [List.filter_append, List.map_append]
  · have hwakes := hcollected.concat (e.visit s.now).1
    rw [← htake] at hwakes
    rw [visit_pc, visit_timers]
    split_ifs at hwakes ⊢ <;> exact hwakes

theorem Inv.step {t : State} {a : Act} (h : Inv s) (ht : step s a = some t) : Inv t := by
  have hcollected := h.collected
  cases a with
  | startup now =>
    simp only [Schedule.step] at ht
    split_ifs at ht with hc
    obtain rfl := Option.some.inj ht
    exact h.startup hc.1 now
  | trigger i =>
    simp only [Schedule.step] at ht
    split_ifs at ht
    obtain rfl := Option.some.inj ht
    exact h.trigger i
  | shutdown =>
    simp only [Schedule.step] at ht
    split_ifs at ht
    obtain rfl := Option.some.inj ht
    exact ⟨h.idle, h.clock, h.tracked, h.evaluated, h.collected⟩
  | pass now =>
    simp only [Schedule.step] at ht
    split_ifs at ht with hc
    obtain ⟨hpc, -, hnow⟩ := hc
    have hon : s.pc ≠ .off := by rcases hpc with hpc | hpc <;> simp [hpc]
    obtain rfl := Option.some.inj ht
    exact h.move hon (by simp) hnow Wakes.nil
  | exit =>
    simp only [Schedule.step] at ht
    split_ifs at ht with hc
    have hon : s.pc ≠ .off := by rcases hc.1 with hpc | hpc <;> simp [hpc]
    obtain rfl := Option.some.inj ht
    exact h.move hon (by simp) le_rfl trivial
  | visit =>
    simp only [Schedule.step] at ht
    split at ht
    · rename_i i nextDue evaluated hpc
      obtain ⟨e, he, rfl⟩ := Option.map_eq_some_iff.mp ht
      rw [hpc] at hcollected
      exact h.visited (by simp [hpc]) hcollected he
    · cases ht
  | evaluated now =>
    simp only [Schedule.step] at ht
    split at ht
    · rename_i i nextDue hpc
      split_ifs at ht with hnow
      rw [hpc] at hcollected
      obtain rfl := Option.some.inj ht
      exact h.move (by simp [hpc]) (by simp) hnow hcollected
    · cases ht
  | finish =>
    simp only [Schedule.step] at ht
    split at ht
    · rename_i i nextDue evaluated hpc
      rw [hpc] at hcollected
      split_ifs at ht with hlen hagain
      · obtain rfl := Option.some.inj ht
        exact h.move (by simp [hpc]) (by simp) le_rfl trivial
      · -- the pass is behind all evals
        have hall : Wakes s.timers nextDue := List.take_of_length_le hlen ▸ hcollected
        obtain rfl := Option.some.inj ht
        exact h.move (by simp [hpc]) (by simp) le_rfl hall
    · cases ht
  | wake =>
    simp only [Schedule.step] at ht
    split at ht
    · rename_i nextDue hpc
      obtain rfl := Option.some.inj ht
      exact h.move (by simp [hpc]) (by simp) le_rfl trivial
    · cases ht

/-- An evaluation is logged at the call of `evaluate` and nowhere else. -/
theorem step_evaluations {t : State} {a : Act} (ht : step s a = some t) (j : Nat) :
    evaluations j t.log = evaluations j s.log ++
      if t.pc.current = some j ∧ s.pc.current ≠ some j then [t.now] else [] := by
  cases a with
  | visit =>
    simp only [step] at ht
    split at ht
    · rename_i i nextDue evaluated hpc
      obtain ⟨e, -, rfl⟩ := Option.map_eq_some_iff.mp ht
      rw [visit_log, evaluations_entry, visit_pc, hpc, (visit_clock ..).1]
      cases (e.visit s.now).2 <;> by_cases hij : i = j <;> simp [Schedule.evaluated, Pc.current, hij]
    · cases ht
  | trigger i | shutdown | startup now | pass now | exit =>
    simp only [step] at ht
    split_ifs at ht
    obtain rfl := Option.some.inj ht
    simp [Pc.current]
  | evaluated now | finish =>
    simp only [step] at ht
    split at ht
    · split_ifs at ht <;>
        obtain rfl := Option.some.inj ht <;> simp [Pc.current]
    · cases ht
  | wake =>
    simp only [step] at ht
    split at ht
    · obtain rfl := Option.some.inj ht
      simp [Pc.current]
    · cases ht

/-- **The grid.** Each periodic eval keeps to its schedule, a wait ends when the first of them is due, and the
evaluations are the steps into `evaluate`. -/
theorem periodic_grid (hs : Reachable Schedule.step Init s) (hpc : s.pc ≠ .off) :
    (∀ i e, s.timers[i]? = some e → 0 < e.period →
        OnSchedule s.startTime e (visits i s.log) (evaluations i s.log)) ∧
      (∀ nextDue, s.pc = .sleep nextDue → Wakes s.timers nextDue) ∧
      ∀ a t, step s a = some t → ∀ j, evaluations j t.log = evaluations j s.log ++
        if t.pc.current = some j ∧ s.pc.current ≠ some j then [t.now] else [] := by
  have h : Inv s := hs.invariant (fun _ => Inv.init) fun _ _ _ h _ ht => h.step ht
  refine ⟨?_, ?_, fun _ _ ht j => step_evaluations ht j⟩
  · intro i e he hp
    rw [h.evaluated i]
    exact (h.tracked hpc i e he hp).schedule
  · intro nextDue hsleep
    have hcollected := h.collected
    rw [hsleep] at hcollected
    exact hcollected

theorem periodic_grid_missed :
    OnSchedule 3 ⟨10, true, 33⟩ [(5, true), (31, true), (32, false)] [5, 31] ∧
      Wakes [⟨10, true, 33⟩, ⟨0, false, 3⟩] (some 33) := by
  have hrun : Run Schedule.step { timers := [⟨10, false, 0⟩, ⟨0, false, 0⟩] }
      [.startup 3, .pass 5, .visit, .evaluated 30, .visit, .evaluated 31, .finish, .pass 31, .visit, .evaluated 32,
        .visit, .finish, .pass 32, .visit, .visit, .finish]
      { timers := [⟨10, true, 33⟩, ⟨0, false, 3⟩]
        pc := .sleep (some 33)
        running := true
        now := 32
        startTime := 3
        log := [.visit 0 5, .evaluate 0 5, .visit 1 30, .evaluate 1 30, .visit 0 31, .evaluate 0 31, .visit 1 32,
          .visit 0 32, .visit 1 32] } := by
    decide
  have h := periodic_grid ⟨_, _, ⟨rfl, rfl⟩, hrun⟩ (by decide)
  exact ⟨h.1 0 _ rfl (by decide), h.2.1 _ rfl⟩

end Thread

end Uvrgw.Evals.Schedule
