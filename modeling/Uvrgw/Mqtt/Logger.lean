import Mathlib.Data.List.Basic
import Mathlib.Data.List.Chain
import Uvrgw.Lib.Grid
import Uvrgw.Lib.Run

/-!
# MQTT logger (`mqtt_logger.c`)

When snapshots are taken. The wall clock may jump in both directions between two calls.
-/

namespace Uvrgw.Mqtt

open Uvrgw.Lib

/-- The part of `MQTT_LOGGER_T` that `logger_task` works on. -/
structure Logger where
  interval : Int
  nextTime : Int
  unsynced : Bool := false
  deriving DecidableEq, Repr

/-- `mqtt_logger_startup` for one logger. -/
def loggerStartup (interval now : Int) : Logger where
  interval := interval
  nextTime := (now.tdiv interval + 1) * interval

/-- `logger_task`: the logger, and the time of the snapshot that is taken. -/
def loggerTask (logger : Logger) (now : Int) (synced : Bool) : Logger × Option Int :=
  let logger :=
    if logger.interval < logger.nextTime - now then
      { logger with nextTime := (now.tdiv logger.interval + 1) * logger.interval }
    else logger
  if logger.nextTime ≤ now then
    let t :=
      if logger.interval ≤ now - logger.nextTime then now.tdiv logger.interval * logger.interval
      else logger.nextTime
    -- `unsynced` also keeps the two messages from being repeated.
    ({ logger with nextTime := t + logger.interval, unsynced := !synced }, if synced then some t else none)
  else (logger, none)

/-! ## Slots -/

/-- The latest multiple of `interval` that is not after `now`. -/
def slot (interval now : Int) : Int := now / interval * interval

section Slots

variable {interval : Int} (h : 0 < interval)

theorem slot_eq (interval now : Int) : slot interval now = lastPoint 0 interval now := by
  unfold slot lastPoint
  rw [sub_zero, zero_add]

theorem onGrid_iff {t : Int} : OnGrid 0 interval t ↔ interval ∣ t := Int.modEq_zero_iff_dvd

theorem dvd_slot (interval now : Int) : interval ∣ slot interval now := Int.dvd_mul_left ..

theorem add_le_of_dvd {a b : Int} (ha : interval ∣ a) (hb : interval ∣ b) (hlt : a < b) : a + interval ≤ b :=
  (onGrid_iff.mpr ha).add_le (onGrid_iff.mpr hb) hlt

include h

theorem slot_le (now : Int) : slot interval now ≤ now := by
  rw [slot_eq]
  exact lastPoint_le h now

theorem lt_slot_add (now : Int) : now < slot interval now + interval := by
  rw [slot_eq]
  exact lt_lastPoint_add h now

theorem eq_slot {t now : Int} (hdvd : interval ∣ t) (hle : t ≤ now) (hlt : now < t + interval) :
    t = slot interval now := by
  rw [slot_eq]
  exact eq_lastPoint h (onGrid_iff.mpr hdvd) hle hlt

theorem le_slot {t now : Int} (hdvd : interval ∣ t) (hle : t ≤ now) : t ≤ slot interval now := by
  rw [slot_eq]
  exact le_lastPoint h (onGrid_iff.mpr hdvd) hle

end Slots

/-- What `logger_task` does after a call with reading `last`: it moves to the slot of the reading, and takes a
snapshot if this is a later slot. -/
theorem loggerTask_eq {logger : Logger} {last now : Int} (h : 0 < logger.interval) (h0 : 0 ≤ now)
    (hlast : logger.nextTime = slot logger.interval last + logger.interval) (synced : Bool) :
    loggerTask logger now synced =
      if slot logger.interval last < slot logger.interval now then
        ({ logger with nextTime := slot logger.interval now + logger.interval, unsynced := !synced },
          if synced then some (slot logger.interval now) else none)
      else ({ logger with nextTime := slot logger.interval now + logger.interval }, none) := by
  obtain ⟨interval, nextTime, unsynced⟩ := logger
  dsimp only at h hlast ⊢
  have hslot : now.tdiv interval * interval = slot interval now := by
    rw [Int.tdiv_eq_ediv_of_nonneg h0, slot]
  have hle := slot_le h now
  have hlt := lt_slot_add h now
  unfold loggerTask
  simp only [add_one_mul, hslot]
  rcases lt_trichotomy (slot interval last) (slot interval now) with hs | hs | hs
  · -- Forward: the slot is due.
    have hstep := add_le_of_dvd (dvd_slot interval last) (dvd_slot interval now) hs
    rw [if_neg (by omega : ¬ interval < nextTime - now), if_pos (by dsimp only; omega), if_pos hs]
    have ht : (if interval ≤ now - nextTime then slot interval now else nextTime) = slot interval now := by
      split
      · rfl
      · apply eq_slot h ?_ (by omega) (by omega)
        rw [hlast]
        exact Int.dvd_add (dvd_slot ..) (Int.dvd_refl _)
    simp only [hslot, ht]
  · rw [if_neg (by omega : ¬ interval < nextTime - now), if_neg (by dsimp only; omega), if_neg (by omega),
      ← hs, hlast]
  · -- Back: realigned.
    have hstep := add_le_of_dvd (dvd_slot interval now) (dvd_slot interval last) hs
    rw [if_pos (by omega : interval < nextTime - now), if_neg (by dsimp only; omega), if_neg (by omega)]

/-! ## Runs -/

/-- A call of `logger_task`: the wall clock, and the result of `utl_clock_synced`. -/
structure Reading where
  now : Int
  synced : Bool := true
  deriving DecidableEq, Repr

structure State where
  logger : Logger
  /-- The times of the snapshots. -/
  log : List Int := []
  deriving DecidableEq, Repr

def step (s : State) (r : Reading) : Option State :=
  let x := loggerTask s.logger r.now r.synced
  some { logger := x.1, log := s.log ++ x.2.toList }

def started (interval start : Int) : State := { logger := loggerStartup interval start }

def lastReading (last : Int) : List Reading → Int
  | [] => last
  | r :: readings => lastReading r.now readings

theorem lastReading_cons (last : Int) (r : Reading) (readings : List Reading) :
    lastReading last (r :: readings) = lastReading r.now readings := rfl

/-- After a call with the reading `last`, or the start. -/
structure After (interval last : Int) (s : State) : Prop where
  same : s.logger.interval = interval
  nextTime : s.logger.nextTime = slot interval last + interval

def snapshotAt (interval last : Int) (r : Reading) : Option Int :=
  if slot interval last < slot interval r.now ∧ r.synced then some (slot interval r.now) else none

section Runs

variable {interval last : Int} {s t : State}

theorem after_started (interval : Int) {start : Int} (h0 : 0 ≤ start) :
    After interval start (started interval start) := by
  refine ⟨rfl, ?_⟩
  simp only [started, loggerStartup, slot, Int.tdiv_eq_ediv_of_nonneg h0, add_one_mul]

theorem After.task (h : 0 < interval) (hs : After interval last s) {r : Reading} (h0 : 0 ≤ r.now) :
    (loggerTask s.logger r.now r.synced).1.interval = interval ∧
      (loggerTask s.logger r.now r.synced).1.nextTime = slot interval r.now + interval ∧
      (loggerTask s.logger r.now r.synced).2 = snapshotAt interval last r := by
  obtain ⟨rfl, hnext⟩ := hs
  rw [loggerTask_eq h h0 hnext r.synced]
  unfold snapshotAt
  split
  · rename_i hlt
    refine ⟨rfl, rfl, ?_⟩
    cases r.synced <;> simp [hlt]
  · rename_i hle
    exact ⟨rfl, rfl, by simp [hle]⟩

theorem After.step (h : 0 < interval) (hs : After interval last s) {r : Reading} (h0 : 0 ≤ r.now)
    (hst : step s r = some t) :
    After interval r.now t ∧ t.log = s.log ++ (snapshotAt interval last r).toList := by
  obtain ⟨hi, hnext, hsnapshot⟩ := hs.task h h0
  obtain rfl := Option.some.inj hst
  exact ⟨⟨hi, hnext⟩, by rw [← hsnapshot]⟩

theorem After.run (h : 0 < interval) (hs : After interval last s) {readings : List Reading}
    (h0 : ∀ r ∈ readings, 0 ≤ r.now) (hrun : Run Mqtt.step s readings t) :
    After interval (lastReading last readings) t := by
  induction readings generalizing s last with
  | nil =>
    rw [← (run_nil s t).mp hrun]
    exact hs
  | cons r readings ih =>
    obtain ⟨u, hu, hrun⟩ := (run_cons ..).mp hrun
    exact ih (hs.step h (h0 r (by simp)) hu).1 (fun q hq => h0 q (by simp [hq])) hrun

/-- The clock goes on by less than an interval with each reading. -/
def Steady (interval last : Int) (readings : List Reading) : Prop :=
  List.IsChain (fun a b => a ≤ b ∧ b < a + interval) (last :: readings.map (·.now))

theorem Steady.le {readings : List Reading} (hs : Steady interval last readings) :
    last ≤ lastReading last readings := by
  induction readings generalizing last with
  | nil => exact le_refl _
  | cons r readings ih =>
    obtain ⟨hr, hs⟩ := List.isChain_cons_cons.mp hs
    exact hr.1.trans (ih hs)

theorem count_snapshotAt (h : 0 < interval) {r : Reading} (hsync : r.synced = true)
    (hlt : r.now < last + interval) {m : Int} (hm : interval ∣ m) :
    (snapshotAt interval last r).toList.count m = if last < m ∧ m ≤ r.now then 1 else 0 := by
  have hpass : last < m ∧ m ≤ r.now ↔ slot interval last < slot interval r.now ∧ slot interval r.now = m := by
    constructor
    · rintro ⟨hlast, hnow⟩
      have heq := eq_slot h hm hnow (by omega)
      have := slot_le h last
      exact ⟨by omega, heq.symm⟩
    · rintro ⟨hslot, rfl⟩
      refine ⟨?_, slot_le h _⟩
      by_contra hnot
      have := le_slot h hm (not_lt.mp hnot)
      omega
  unfold snapshotAt
  simp only [hsync, and_true, hpass]
  by_cases hs : slot interval last < slot interval r.now
  · simp only [hs, true_and, if_true, Option.toList_some, List.count_singleton, beq_iff_eq]
  · simp [hs]

theorem After.count (h : 0 < interval) (hs : After interval last s) {readings : List Reading}
    (h0 : ∀ r ∈ readings, 0 ≤ r.now) (hsync : ∀ r ∈ readings, r.synced = true)
    (hsteady : Steady interval last readings) (hrun : Run Mqtt.step s readings t) {m : Int} (hm : interval ∣ m) :
    t.log.count m = s.log.count m + if last < m ∧ m ≤ lastReading last readings then 1 else 0 := by
  induction readings generalizing s last with
  | nil =>
    rw [← (run_nil s t).mp hrun, if_neg (by unfold lastReading; omega), add_zero]
  | cons r readings ih =>
    obtain ⟨u, hu, hrun⟩ := (run_cons ..).mp hrun
    obtain ⟨hu', hlog⟩ := hs.step h (h0 r (by simp)) hu
    obtain ⟨⟨hle, hlt⟩, hsteady⟩ : (last ≤ r.now ∧ r.now < last + interval) ∧ Steady interval r.now readings :=
      List.isChain_cons_cons.mp hsteady
    have hrest := ih hu' (fun q hq => h0 q (by simp [hq])) (fun q hq => hsync q (by simp [hq])) hsteady hrun
    rw [hrest, hlog, List.count_append, count_snapshotAt h (hsync r (by simp)) hlt hm, add_assoc, lastReading_cons]
    have hend := hsteady.le
    split_ifs <;> omega

end Runs

/-- **Slots are aligned, fresh and complete.** -/
theorem slots_aligned (interval start : Int) (h : 0 < interval) (hstart : 0 ≤ start) (readings : List Reading)
    (h0 : ∀ r ∈ readings, 0 ≤ r.now) (s : State) (hrun : Run step (started interval start) readings s) :
    (interval ∣ s.logger.nextTime ∧ lastReading start readings < s.logger.nextTime ∧
      s.logger.nextTime ≤ lastReading start readings + interval) ∧
    (∀ (r : Reading) t, 0 ≤ r.now → (loggerTask s.logger r.now r.synced).2 = some t →
      interval ∣ t ∧ t ≤ r.now ∧ r.now < t + interval) ∧
    ∀ stretch u, (∀ r ∈ stretch, 0 ≤ r.now ∧ r.synced = true) →
      Steady interval (lastReading start readings) stretch → Run step s stretch u →
      ∀ m, interval ∣ m → lastReading start readings < m → m ≤ lastReading (lastReading start readings) stretch →
        u.log.count m = s.log.count m + 1 := by
  have hs := (after_started interval hstart).run h h0 hrun
  refine ⟨?_, fun r t hr ht => ?_, fun stretch u hstretch hsteady hrun' m hm hlt hle => ?_⟩
  · rw [hs.nextTime]
    have hle := slot_le h (lastReading start readings)
    exact ⟨Int.dvd_add (dvd_slot ..) (Int.dvd_refl _), lt_slot_add h _, by omega⟩
  · rw [(hs.task h hr).2.2, snapshotAt, Option.ite_none_right_eq_some] at ht
    obtain ⟨-, ⟨⟩⟩ := ht
    exact ⟨dvd_slot .., slot_le h _, lt_slot_add h _⟩
  · rw [hs.count h (fun r hr => (hstretch r hr).1) (fun r hr => (hstretch r hr).2) hsteady hrun' hm,
      if_pos ⟨hlt, hle⟩]

theorem slots_aligned_example :
    List.count 120 [60, 120] = List.count 120 [60] + 1 :=
  (slots_aligned 60 30 (by decide) (by decide) [{ now := 60 }] (by decide)
    { logger := { interval := 60, nextTime := 120 }, log := [60] } (by decide)).2.2
    [{ now := 119 }, { now := 125 }] { logger := { interval := 60, nextTime := 180 }, log := [60, 120] }
    (by decide) (by unfold Steady; decide) (by decide) 120 (by decide) (by decide) (by decide)

/-! ## Repeated slots -/

/-- The reading is not earlier than a slot that has been logged. -/
def NotBefore (s : State) (r : Reading) : Prop := ∀ t ∈ s.log, t ≤ r.now

instance (s : State) (r : Reading) : Decidable (NotBefore s r) :=
  inferInstanceAs (Decidable (∀ t ∈ s.log, t ≤ r.now))

section Repeats

variable {interval last : Int} {s t : State}

/-- The snapshots so far are increasing multiples, none later than the last reading. -/
structure Logged (interval last : Int) (s : State) : Prop where
  after : After interval last s
  dvd : ∀ t ∈ s.log, interval ∣ t
  le : ∀ t ∈ s.log, t ≤ last
  increasing : s.log.Pairwise (· < ·)

theorem Logged.step (h : 0 < interval) (hs : Logged interval last s) {r : Reading} (h0 : 0 ≤ r.now)
    (hnot : NotBefore s r) (hst : step s r = some t) : Logged interval r.now t := by
  obtain ⟨hafter, hlog⟩ := hs.after.step h h0 hst
  have hsame (hl : t.log = s.log) : Logged interval r.now t := by
    refine ⟨hafter, ?_, ?_, ?_⟩ <;> rw [hl]
    · exact hs.dvd
    · exact hnot
    · exact hs.increasing
  unfold snapshotAt at hlog
  split at hlog
  · rename_i hlt
    refine ⟨hafter, ?_, ?_, ?_⟩ <;> rw [hlog]
    · simpa [or_imp, forall_and] using ⟨hs.dvd, dvd_slot ..⟩
    · simpa [or_imp, forall_and] using ⟨hnot, slot_le h _⟩
    · rw [Option.toList_some, List.pairwise_append]
      refine ⟨hs.increasing, List.pairwise_singleton .., fun a ha b hb => ?_⟩
      rw [List.mem_singleton.mp hb]
      exact lt_of_le_of_lt (le_slot h (hs.dvd a ha) (hs.le a ha)) hlt.1
  · exact hsame (by simpa using hlog)

theorem Logged.run (h : 0 < interval) (hs : Logged interval last s) {readings : List Reading}
    (h0 : ∀ r ∈ readings, 0 ≤ r.now) (hnot : Meets Mqtt.step NotBefore s readings)
    (hrun : Run Mqtt.step s readings t) : Logged interval (lastReading last readings) t := by
  induction readings generalizing s last with
  | nil =>
    rw [← (run_nil s t).mp hrun]
    exact hs
  | cons r readings ih =>
    obtain ⟨u, hu, hrun⟩ := (run_cons ..).mp hrun
    rw [meets_cons hu] at hnot
    exact ih (hs.step h (h0 r (by simp)) hnot.1 hu) (fun q hq => h0 q (by simp [hq])) hnot.2 hrun

/-- From before a slot that has been logged, the clock reaches it once more. -/
theorem Logged.repeats (h : 0 < interval) (hs : Logged interval last s) {m : Int} (hm : m ∈ s.log) {r : Reading}
    (h0 : 0 ≤ r.now) (hlt : r.now < m) {u v : State}
    (hu : Mqtt.step s r = some u) (hv : Mqtt.step u { now := m } = some v) :
    v.log = s.log ++ [m] := by
  have hdvd := hs.dvd m hm
  have hslot : slot interval m = m := (eq_slot h hdvd (le_refl m) (by omega)).symm
  have hback : slot interval r.now < m := (slot_le h _).trans_lt hlt
  have hlast : m ≤ slot interval last := le_slot h hdvd (hs.le m hm)
  obtain ⟨hafter, hulog⟩ := hs.after.step h h0 hu
  obtain ⟨-, hvlog⟩ := hafter.step h (h0.trans hlt.le) hv
  rw [snapshotAt, if_neg (by omega)] at hulog
  rw [snapshotAt, if_pos ⟨by rwa [hslot], rfl⟩, hslot] at hvlog
  rw [hvlog, hulog]
  simp

end Repeats

/-- **No slot is logged twice**, as long as the clock does not go back behind a slot that has been logged. If it
does, the slot is logged again when the clock gets there. -/
theorem no_slot_twice (interval start : Int) (h : 0 < interval) (hstart : 0 ≤ start) (readings : List Reading)
    (h0 : ∀ r ∈ readings, 0 ≤ r.now) (s : State) (hrun : Run step (started interval start) readings s)
    (hnot : Meets step NotBefore (started interval start) readings) :
    s.log.Pairwise (· < ·) ∧
      ∀ m ∈ s.log, ∀ r u v, 0 ≤ r.now → r.now < m → step s r = some u → step u { now := m } = some v →
        v.log = s.log ++ [m] := by
  have hbegin : Logged interval start (started interval start) :=
    ⟨after_started interval hstart, by simp [started], by simp [started], .nil⟩
  have hs := hbegin.run h h0 hnot hrun
  exact ⟨hs.increasing, fun m hm r u v hr hlt hu hv => hs.repeats h hm hr hlt hu hv⟩

/-- The clock goes back by ten seconds, but not behind the slot. -/
theorem no_slot_twice_example : [60, 120].Pairwise ((· < ·) : Int → Int → Prop) :=
  (no_slot_twice 60 30 (by decide) (by decide) [{ now := 60 }, { now := 75 }, { now := 65 }, { now := 130 }]
    (by decide) { logger := { interval := 60, nextTime := 180 }, log := [60, 120] } (by decide) (by decide)).1

/-- The clock goes back by one second after the slot. -/
theorem slot_twice :
    Run step (started 60 30) [{ now := 60 }, { now := 59 }, { now := 60 }]
        { logger := { interval := 60, nextTime := 120 }, log := [60, 60] } ∧
      [30, 60, 59, 60].Pairwise (fun a b : Int => a - 60 ≤ b) ∧ ¬ [60, 60].Pairwise ((· < ·) : Int → Int → Prop) := by
  decide

end Uvrgw.Mqtt
