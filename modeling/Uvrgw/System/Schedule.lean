import Uvrgw.Evals.Schedule
import Uvrgw.System.EvalThread

/-!
# The schedule of the eval thread in the system

The machine of `Evals/Schedule.lean` leaves out what an evaluation reads and publishes, that of `EvalThread.lean`
leaves out `next_due` and shutdown. Each run of the second one follows a run of the first one.
-/

namespace Uvrgw.EvalThread

open Uvrgw.Lib Uvrgw.Dispatch Uvrgw.Evals Uvrgw.Conf

def timer (e : Eval) : Schedule.Timer where
  period := e.period
  pending := e.pending
  next := e.next

/-- The thread is at the same place, `now` is its last reading. -/
inductive Pc.At (now : Int) : Pc → Schedule.Pc → Prop
  | off : At now off .off
  | start : At now start .start
  | wait (nextDue : Option Int) : At now wait (.sleep nextDue)
  | scan (i : Nat) (nextDue : Option Int) (evaluated : Bool) :
      At now (scan i now evaluated) (.scan i nextDue evaluated)
  | refresh (i k : Nat) (reading : Int) (nextDue : Option Int) : At now (refresh i k reading) (.evaluating i nextDue)
  | publish (i j : Nat) (nextDue : Option Int) : At now (publish i j) (.evaluating i nextDue)
  | publishing (i j : Nat) (nextDue : Option Int) : At now (publishing i j) (.evaluating i nextDue)

structure Follows (s : State) (t : Schedule.State) : Prop where
  timers : t.timers = s.evals.map timer
  pc : s.pc.At t.now t.pc
  running : s.pc ≠ .off → t.running = true

def Act.reading : Act → Option Int
  | .startup now | .thread now => some now
  | _ => none

/-! ## Steps -/

section Steps

variable {s s' : State} {t : Schedule.State}

/-- The schedule does not see what an evaluation does. -/
theorem Follows.work (h : Follows s t) {i : Nat} {nextDue : Option Int} (htpc : t.pc = .evaluating i nextDue)
    (hrunning : t.running = true) (htimers : s'.evals.map timer = s.evals.map timer)
    (hpc : s'.pc.At t.now (.evaluating i nextDue)) : Follows s' t where
  timers := h.timers.trans htimers.symm
  pc := htpc ▸ hpc
  running := fun _ => hrunning

theorem map_timer_modify {f : Eval → Eval} {g : Schedule.Timer → Schedule.Timer}
    (hfg : ∀ e, timer (f e) = g (timer e))
    (evals : List Eval) (i : Nat) : (evals.modify i f).map timer = (evals.map timer).modify i g := by
  apply List.ext_getElem?
  intro j
  rw [List.getElem?_map, List.getElem?_modify, List.getElem?_modify, List.getElem?_map]
  cases evals[j]? with
  | none => rfl
  | some e =>
    by_cases hij : i = j
    · simp [hij, hfg]
    · simp [hij]

theorem map_timer_keep {f : Eval → Eval} (hf : ∀ e, timer (f e) = timer e) (evals : List Eval) (i : Nat) :
    (evals.modify i f).map timer = evals.map timer := by
  rw [map_timer_modify (g := id) hf, List.modify_id]

theorem set_map_timer {f : Eval → Eval} {evals : List Eval} {i : Nat} {e : Eval} (he : evals[i]? = some e)
    {e' : Schedule.Timer} (hf : timer (f e) = e') : (evals.map timer).set i e' = (evals.modify i f).map timer := by
  apply List.ext_getElem?
  intro j
  rw [List.getElem?_map, List.getElem?_modify, List.getElem?_set, List.getElem?_map, List.length_map]
  by_cases hij : i = j
  · have hlt : i < evals.length := (List.getElem?_eq_some_iff.mp he).1
    rw [if_pos hij, if_pos hlt, ← hij, he]
    simp [hf]
  · simp [hij]

/-- What a step of the thread is followed by: a run whose readings do not get ahead of `now`. -/
def Followed (t : Schedule.State) (now : Int) (s' : State) : Prop :=
  ∃ l t', Run Schedule.step t l t' ∧ Follows s' t' ∧ t'.now ≤ now

theorem Follows.followed (h : Follows s t) {now : Int} (hnow : t.now ≤ now) : Followed t now s :=
  ⟨[], t, (run_nil ..).mpr rfl, h, hnow⟩

theorem Followed.cons {u : Schedule.State} {a : Schedule.Act} {now : Int} (ht : Schedule.step t a = some u)
    (h : Followed u now s') : Followed t now s' := by
  obtain ⟨l, t', hl, hs'⟩ := h
  exact ⟨a :: l, t', (run_cons ..).mpr ⟨u, ht, hl⟩, hs'⟩

theorem pass_followed (htimers : t.timers = s.evals.map timer) (hpc : t.pc = .start ∨ t.pc = .top)
    (hrunning : t.running = true) {now : Int} (hnow : t.now ≤ now) :
    Followed t now { s with pc := .scan 0 now false } := by
  have hstep : Schedule.step t (.pass now) = some { t with pc := .scan 0 none false, now := now } :=
    if_pos ⟨hpc, hrunning, hnow⟩
  have hnext : Follows { s with pc := .scan 0 now false } { t with pc := .scan 0 none false, now := now } :=
    ⟨htimers, .scan .., fun _ => hrunning⟩
  exact .cons hstep (hnext.followed le_rfl)

section Place

variable {now reading : Int} {i j : Nat} {evaluated : Bool} {pc : Schedule.Pc}

theorem off_place (h : Pc.At now .off pc) : pc = .off := by
  cases h with
  | off => rfl

theorem start_place (h : Pc.At now .start pc) : pc = .start := by
  cases h with
  | start => rfl

theorem wait_place (h : Pc.At now .wait pc) : ∃ nextDue, pc = .sleep nextDue := by
  cases h with
  | wait nextDue => exact ⟨nextDue, rfl⟩

theorem scan_place (h : Pc.At now (.scan i reading evaluated) pc) :
    reading = now ∧ ∃ nextDue, pc = .scan i nextDue evaluated := by
  cases h with
  | scan _ nextDue _ => exact ⟨rfl, nextDue, rfl⟩

theorem refresh_place (h : Pc.At now (.refresh i j reading) pc) : ∃ nextDue, pc = .evaluating i nextDue := by
  cases h with
  | refresh _ _ _ nextDue => exact ⟨nextDue, rfl⟩

theorem publish_place (h : Pc.At now (.publish i j) pc) : ∃ nextDue, pc = .evaluating i nextDue := by
  cases h with
  | publish _ _ nextDue => exact ⟨nextDue, rfl⟩

end Place

/-- The thread visits an eval; `pc` is where it goes from there. -/
theorem Follows.visit (h : Follows s t) {i : Nat} {reading now : Int} {evaluated : Bool}
    (hpc : s.pc = .scan i reading evaluated) (hnow : t.now ≤ now) {e : Eval} (he : s.evals[i]? = some e)
    {f : Eval → Eval} (hf : timer (f e) = ((timer e).visit reading).1) {pc : Pc}
    (hat : ∀ nextDue, pc.At reading
      (if ((timer e).visit reading).2 then .evaluating i nextDue else .scan (i + 1) nextDue evaluated)) :
    Followed t now { s with evals := s.evals.modify i f, pc := pc } := by
  obtain ⟨rfl, nextDue, htpc⟩ := scan_place (hpc ▸ h.pc)
  have htimer : t.timers[i]? = some (timer e) := by
    rw [h.timers, List.getElem?_map, he]
    rfl
  have hstep : Schedule.step t .visit = some (Schedule.visit t i (timer e) nextDue evaluated) := by
    unfold Schedule.step
    rw [htpc]
    exact congrArg (Option.map _) htimer
  have hnext : Follows { s with evals := s.evals.modify i f, pc := pc }
      (Schedule.visit t i (timer e) nextDue evaluated) := by
    obtain ⟨hclock, -, hrunning⟩ := Schedule.visit_clock t i (timer e) nextDue evaluated
    constructor
    · rw [Schedule.visit_timers, h.timers]
      exact set_map_timer he hf
    · rw [Schedule.visit_pc, hclock]
      exact hat _
    · intro _
      rw [hrunning]
      exact h.running (by simp [hpc])
  have hclock := (Schedule.visit_clock t i (timer e) nextDue evaluated).1
  exact .cons hstep (hnext.followed (hclock ▸ hnow))

/-- Behind the last eval, the thread starts over or waits. -/
theorem Follows.turn (h : Follows s t) {i : Nat} {reading now : Int} {evaluated : Bool}
    (hpc : s.pc = .scan i reading evaluated) (hnow : t.now ≤ now) (he : s.evals[i]? = none) :
    Followed t now { s with pc := if evaluated then .scan 0 now false else .wait } := by
  obtain ⟨-, nextDue, htpc⟩ := scan_place (hpc ▸ h.pc)
  have hrunning : t.running = true := h.running (by simp [hpc])
  have hlen : t.timers.length ≤ i := by
    rw [h.timers, List.length_map]
    exact List.getElem?_eq_none_iff.mp he
  have hstep : Schedule.step t .finish = some { t with pc := if evaluated then .top else .sleep nextDue } := by
    unfold Schedule.step
    rw [htpc]
    simp [hlen, hrunning]
  cases evaluated with
  | true => exact .cons hstep (pass_followed (t := { t with pc := .top }) h.timers (.inr rfl) hrunning hnow)
  | false =>
    have hnext : Follows { s with pc := .wait } { t with pc := .sleep nextDue } :=
      ⟨h.timers, .wait nextDue, fun _ => hrunning⟩
    exact .cons hstep (hnext.followed hnow)

theorem Follows.thread (h : Follows s t) {now : Int} (hnow : t.now ≤ now) (hst : threadStep s now = some s') :
    Followed t now s' := by
  unfold threadStep at hst
  split at hst
  case h_1 | h_2 => cases hst
  case h_3 hpc =>
    cases hst
    exact pass_followed h.timers (.inl (start_place (hpc ▸ h.pc))) (h.running (by simp [hpc])) hnow
  case h_4 hpc =>
    cases hst
    obtain ⟨nextDue, htpc⟩ := wait_place (hpc ▸ h.pc)
    have hstep : Schedule.step t .wake = some { t with pc := .top } := by
      unfold Schedule.step
      rw [htpc]
    have hrunning : t.running = true := h.running (by simp [hpc])
    exact .cons hstep (pass_followed (t := { t with pc := .top }) h.timers (.inr rfl) hrunning hnow)
  case h_5 i reading evaluated hpc =>
    split at hst
    · cases hst
      exact h.turn hpc hnow ‹_›
    rename_i e he
    split at hst
    · rename_i hp
      split at hst <;> cases hst
      · rename_i hdue
        refine h.visit hpc hnow he (by simp [timer, Schedule.Timer.visit, hp, hdue]) fun nextDue => ?_
        simpa [timer, Schedule.Timer.visit, hp, hdue] using Pc.At.refresh ..
      · rename_i hdue
        rw [← List.modify_id i s.evals]
        refine h.visit hpc hnow he (by simp [timer, Schedule.Timer.visit, hp, hdue]) fun nextDue => ?_
        simpa [timer, Schedule.Timer.visit, hp, hdue] using Pc.At.scan ..
    · rename_i hp
      split at hst <;> cases hst
      · rename_i hpending
        refine h.visit hpc hnow he (by simp [timer, Schedule.Timer.visit, hp]) fun nextDue => ?_
        simpa [timer, Schedule.Timer.visit, hp, hpending] using Pc.At.refresh ..
      · rename_i hpending
        rw [← List.modify_id i s.evals]
        refine h.visit hpc hnow he (by simp [timer, Schedule.Timer.visit, hp, hpending]) fun nextDue => ?_
        simpa [timer, Schedule.Timer.visit, hp, hpending] using Pc.At.scan ..
  case h_6 i k reading hpc =>
    obtain ⟨nextDue, htpc⟩ := refresh_place (hpc ▸ h.pc)
    have hrunning : t.running = true := h.running (by simp [hpc])
    split at hst
    · cases hst
    split at hst <;> cases hst
    · exact Follows.followed (h.work htpc hrunning (map_timer_keep (by intro; rfl) ..) (.refresh ..)) hnow
    · exact Follows.followed (h.work htpc hrunning (map_timer_keep (by intro; rfl) ..) (.publish ..)) hnow
  case h_7 i j hpc =>
    obtain ⟨nextDue, htpc⟩ := publish_place (hpc ▸ h.pc)
    have hrunning : t.running = true := h.running (by simp [hpc])
    split at hst
    · cases hst
    split at hst
    · cases hst
      have hstep : Schedule.step t (.evaluated now) =
          some { t with pc := .scan (i + 1) nextDue true, now := now } := by
        unfold Schedule.step
        rw [htpc]
        exact if_pos hnow
      have hnext : Follows { s with pc := .scan (i + 1) now true }
          { t with pc := .scan (i + 1) nextDue true, now := now } :=
        ⟨h.timers, .scan .., fun _ => hrunning⟩
      exact .cons hstep (hnext.followed le_rfl)
    split at hst
    · cases hst
      exact Follows.followed (h.work htpc hrunning (by rfl) (.publish ..)) hnow
    · unfold enter at hst
      split at hst <;> cases hst
      exact Follows.followed (h.work htpc hrunning (by rfl) (.publishing ..)) hnow

theorem length_threadStep {now : Int} (hst : threadStep s now = some s') : s'.evals.length = s.evals.length := by
  unfold threadStep enter at hst
  grind

theorem length_step {a : Act} (hst : step s a = some s') : s'.evals.length = s.evals.length := by
  cases a with
  | thread now => exact length_threadStep hst
  | disp | check | arm | call | unlock | startup =>
    simp only [step, enter] at hst
    grind

theorem Follows.enter (h : Follows s t) {name : String} {own : Bool} {r : Dispatcher Val × List (Call Val)}
    (hst : enter s name own r s.pc = some s') : Follows s' t := by
  unfold EvalThread.enter at hst
  split at hst <;> cases hst
  exact ⟨h.timers, h.pc, h.running⟩

theorem Follows.trigger (h : Follows s t) (hlock : s.pc.holdsLock = false) (i : Nat)
    (firing : String → Option (Bool × List (Call Val))) :
    Followed t t.now { s with
      evals := s.evals.modify i fun e => { e with pending := true }
      firing := firing } := by
  have hfree : t.pc.holdsLock = false := by
    have hat := h.pc
    generalize s.pc = pc at hat hlock
    generalize t.pc = pc' at hat
    cases hat <;> first | rfl | cases hlock
  have hstep : Schedule.step t (.trigger i) =
      some { t with timers := t.timers.modify i fun e => { e with pending := true } } := by
    unfold Schedule.step
    simp [hfree]
  have htimers : t.timers.modify i (fun e => { e with pending := true }) =
      (s.evals.modify i fun e => { e with pending := true }).map timer := by
    rw [h.timers]
    exact (map_timer_modify (fun _ => rfl) ..).symm
  refine .cons hstep (Follows.followed ?_ le_rfl)
  exact ⟨htimers, h.pc, h.running⟩

theorem Follows.startup (h : Follows s t) (hpc : s.pc = .off) (hne : s.evals ≠ []) {now : Int} (hnow : t.now ≤ now) :
    Followed t now { s with
      evals := s.evals.map fun e => { e with pending := true, next := now }
      pc := .start } := by
  have hoff : t.pc = .off := off_place (hpc ▸ h.pc)
  have hsome : t.timers ≠ [] := by
    rw [h.timers]
    simpa using hne
  have hstep : Schedule.step t (.startup now) =
      some { t with
        timers := t.timers.map fun e => { e with pending := true, next := now }
        pc := .start
        running := true
        now := now
        startTime := now } :=
    if_pos ⟨hoff, hsome, hnow⟩
  have htimers : t.timers.map (fun e => { e with pending := true, next := now }) =
      (s.evals.map fun e => { e with pending := true, next := now }).map timer := by
    rw [h.timers, List.map_map, List.map_map]
    rfl
  exact .cons hstep (Follows.followed ⟨htimers, .start, fun _ => rfl⟩ le_rfl)

theorem Pc.At.published {now : Int} {pc : Pc} {pc' : Schedule.Pc} (h : pc.At now pc') : pc.published.At now pc' := by
  cases h with
  | publishing i j nextDue => exact .publish i (j + 1) nextDue
  | off => exact .off
  | start => exact .start
  | wait => exact .wait _
  | scan => exact .scan ..
  | refresh => exact .refresh ..
  | publish => exact .publish ..

theorem Pc.published_off {pc : Pc} (h : pc.published ≠ .off) : pc ≠ .off := by
  rintro rfl
  exact h rfl

theorem Follows.step (h : Follows s t) (hne : s.evals ≠ []) {a : Act} (hnow : t.now ≤ a.reading.getD t.now)
    (hst : step s a = some s') : Followed t (a.reading.getD t.now) s' := by
  cases a with
  | thread now => exact h.thread hnow hst
  | disp | check | arm => exact (Follows.enter h hst).followed le_rfl
  | call name =>
    simp only [EvalThread.step] at hst
    split at hst
    · split at hst
      · split at hst <;> cases hst
        rename_i hlock
        exact h.trigger (by simpa using hlock) _ _
      · cases hst
        refine Follows.followed ?_ le_rfl
        exact ⟨h.timers, h.pc, h.running⟩
    · cases hst
  | unlock name =>
    simp only [EvalThread.step] at hst
    split at hst <;> cases hst
    refine Follows.followed ?_ le_rfl
    refine ⟨h.timers, ?_, fun hoff => h.running ?_⟩
    · dsimp only
      split
      · exact h.pc.published
      · exact h.pc
    · dsimp only at hoff
      split at hoff
      · exact Pc.published_off hoff
      · exact hoff
  | startup now =>
    obtain ⟨hpc, rfl⟩ := by simpa [EvalThread.step] using hst
    exact h.startup hpc hne hnow

end Steps

/-! ## Runs -/

/-- The readings of a run never decrease. -/
def Clock (l : List Act) : Prop := (l.filterMap Act.reading).Pairwise (· ≤ ·)

theorem Follows.run {s s' : State} {t : Schedule.State} {l : List Act} (h : Follows s t) (hne : s.evals ≠ [])
    (hclock : Clock l) (hnow : ∀ now ∈ l.filterMap Act.reading, t.now ≤ now) (hrun : Run EvalThread.step s l s') :
    ∃ m t', Run Schedule.step t m t' ∧ Follows s' t' := by
  induction l generalizing s t with
  | nil =>
    rw [run_nil] at hrun
    exact ⟨[], t, (run_nil ..).mpr rfl, hrun ▸ h⟩
  | cons a l ih =>
    obtain ⟨u, hu, hrun⟩ := (run_cons ..).mp hrun
    have hne' : u.evals ≠ [] := by
      rw [← List.length_pos_iff, length_step hu]
      exact List.length_pos_iff.mpr hne
    unfold Clock at hclock
    have hfirst : t.now ≤ a.reading.getD t.now ∧ ∀ now ∈ l.filterMap Act.reading, a.reading.getD t.now ≤ now := by
      cases ha : a.reading with
      | none =>
        rw [List.filterMap_cons_none ha] at hnow
        exact ⟨le_rfl, hnow⟩
      | some r =>
        rw [List.filterMap_cons_some ha] at hnow hclock
        exact ⟨hnow r List.mem_cons_self, (List.pairwise_cons.mp hclock).1⟩
    obtain ⟨m, v, hm, hv, hle⟩ := h.step hne hfirst.1 hu
    have hclock' : Clock l := hclock.sublist ((List.sublist_cons_self a l).filterMap _)
    obtain ⟨m', t', hm', ht'⟩ := ih hv hne' hclock' (fun now hn => hle.trans (hfirst.2 now hn)) hrun
    exact ⟨m ++ m', t', (run_append ..).mpr ⟨v, hm, hm'⟩, ht'⟩

/-- **The thread keeps the schedule.** -/
theorem follows_schedule (sys : System) (l : List Act) (s : State) (hne : sys.evals ≠ []) (hclock : Clock l)
    (hrun : Run step (start sys) l s) : ∃ t, Reachable Schedule.step Schedule.Init t ∧ Follows s t := by
  have hinit (now : Int) : Follows (start sys) { timers := sys.evals.map timer, now := now } :=
    ⟨rfl, .off, fun hoff => absurd rfl hoff⟩
  have hnow : ∀ now ∈ l.filterMap Act.reading, (l.filterMap Act.reading).head?.getD 0 ≤ now := by
    unfold Clock at hclock
    generalize l.filterMap Act.reading = readings at hclock
    cases readings with
    | nil => simp
    | cons r readings => simpa using (List.pairwise_cons.mp hclock).1
  obtain ⟨m, t, hm, ht⟩ := (hinit _).run hne hclock hnow hrun
  exact ⟨t, ⟨_, m, ⟨rfl, rfl⟩, hm⟩, ht⟩

theorem follows_schedule_example : ∃ t, Reachable Schedule.step Schedule.Init t ∧ Follows evalEnd t :=
  follows_schedule evalSystem evalActs evalEnd (by decide) (by unfold Clock; decide) (Option.some_get _).symm

end Uvrgw.EvalThread
