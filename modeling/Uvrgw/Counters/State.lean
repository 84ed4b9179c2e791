import Uvrgw.Counters.Code
import Uvrgw.Lib.Decimal
import Uvrgw.Lib.Run

/-!
# State files of counters (`counter.c`)

A restart of a device counter through its state file: saved with six decimals, loaded, and continued
with the next reading.
-/

namespace Uvrgw.Counters

open Uvrgw.Lib

/-! ## Saving and loading -/

/-- What `load_state` finds under the path of a counter. -/
inductive StateFile where
  | missing
  | unreadable
  | text (cs : List Char)
  deriving DecidableEq, Repr

/-- The text that `save_state` writes. -/
def stateText (accum lastRead : ℚ) : List Char :=
  printFixed 6 accum ++ ' ' :: (printFixed 6 lastRead ++ ['\n'])

/-- `fscanf(f, "%lf %lf %c")`: the numbers and the extra character that it stores. -/
def scanState (cs : List Char) : List Double × Option Char :=
  match scanNumber cs with
  | none => ([], none)
  | some (accum, cs) =>
    match scanNumber cs with
    | none => ([accum], none)
    | some (lastRead, cs) => ([accum, lastRead], (skipSpace cs).head?)

def loadState (c : Counter) : StateFile → Counter
  | .missing => c
  | .unreadable => { c with disabled := true }
  | .text cs =>
    match scanState cs with
    | ([accum, lastRead], none) =>
      if !accum.isfinite || !lastRead.isfinite || accum.num < 0 || lastRead.num < 0 then
        { c with disabled := true }
      else { c with accum := accum.num, lastRead := lastRead.num, initialized := true }
    | _ => { c with disabled := true }

theorem scanState_stateText {accum lastRead : ℚ} (ha : 0 ≤ accum) (hr : 0 ≤ lastRead) :
    scanState (stateText accum lastRead) = ([.fin (toFixed 6 accum), .fin (toFixed 6 lastRead)], none) := by
  have h1 := scanNumber_printFixed (k := 6) (' ' :: (printFixed 6 lastRead ++ ['\n'])) (by omega) ha
    (by simp)
  have h2 := scanNumber_printFixed (k := 6) ['\n'] (by omega) hr (by simp)
  unfold scanState stateText
  rw [h1]
  simp only [scanNumber_space (show isSpace ' ' = true from rfl), h2]
  rfl

theorem loadState_stateText (c : Counter) {accum lastRead : ℚ} (ha : 0 ≤ accum) (hr : 0 ≤ lastRead) :
    loadState c (.text (stateText accum lastRead)) =
      { c with accum := toFixed 6 accum, lastRead := toFixed 6 lastRead, initialized := true } := by
  have ha' := not_lt.mpr (toFixed_nonneg 6 ha)
  have hr' := not_lt.mpr (toFixed_nonneg 6 hr)
  unfold loadState
  simp [scanState_stateText ha hr, ha', hr']

/-! ## The life of a counter -/

namespace Restart

inductive Act where
  | source (f : ℚ) (valid : Bool) (now : Int)
  | tick (now : Int)
  /-- `save_states` takes the numbers and clears `dirty`. -/
  | snapshot
  /-- `save_state` has failed. -/
  | retry
  deriving DecidableEq, Repr

def step (c : Counter) : Act → Option Counter
  | .source f valid now => some (sourceUpdate c f valid now).1
  | .tick now => some (Counters.tick c now).1
  | .snapshot => some { c with dirty := false }
  | .retry => some { c with dirty := true }

/-- After `counter_startup`, whatever the state file contains. -/
def Started (c₀ c : Counter) : Prop := ∃ file, c = loadState c₀ file

/-- The numbers of a counter are never negative. -/
def Saveable (c : Counter) : Prop := 0 ≤ c.accum ∧ 0 ≤ c.lastRead

theorem saveable_fresh {c : Counter} (h : Fresh c) : Saveable c := by
  unfold Saveable
  rw [h.accum, h.lastRead]
  exact ⟨le_refl 0, le_refl 0⟩

theorem Saveable.loadState {c : Counter} (h : Saveable c) (file : StateFile) : Saveable (loadState c file) := by
  unfold Counters.loadState
  split
  · exact h
  · exact h
  · split
    · split
      · exact h
      · rename_i hok
        simp only [Bool.or_eq_true, decide_eq_true_eq, not_or, not_lt] at hok
        exact ⟨hok.1.2, hok.2⟩
    · exact h

theorem Saveable.integrate {c : Counter} (h : Saveable c) (now : Int) : Saveable (integrate c now) := by
  cases hp : c.hasPower with
  | false => rwa [integrate_idle now hp]
  | true =>
    by_cases hlt : c.integratedTs < now
    · rw [integrate_due hp hlt]
      have htime : (0 : ℚ) ≤ (now - c.integratedTs : ℤ) := by
        exact_mod_cast (show 0 ≤ now - c.integratedTs by omega)
      have hpower := counted_nonneg c
      have hgrow : 0 ≤ c.counted * (now - c.integratedTs : ℤ) / 3600000 := by positivity
      exact ⟨add_nonneg h.1 hgrow, h.2⟩
    · rwa [integrate_late (not_lt.mp hlt)]

theorem Saveable.powerUpdate {c : Counter} (h : Saveable c) (power : ℚ) (now : Int) :
    Saveable (powerUpdate c power now) := by
  have hstart : Saveable { c with accum := 0, lastRead := 0, initialized := true, dirty := true } :=
    ⟨le_refl 0, le_refl 0⟩
  unfold Counters.powerUpdate
  split
  · exact h.integrate now
  · exact hstart.integrate now

theorem Saveable.deviceUpdate {c : Counter} (h : Saveable c) (raw : ℚ) (now : Int) :
    Saveable (deviceUpdate c raw now).1 := by
  by_cases hneg : raw < 0
  · unfold Counters.deviceUpdate
    rwa [if_pos hneg]
  have h0 : 0 ≤ raw := not_lt.mp hneg
  cases hi : c.initialized with
  | false =>
    unfold Counters.deviceUpdate
    rw [if_neg hneg, hi, if_pos (by simp)]
    exact ⟨h0, h0⟩
  | true =>
    by_cases heq : raw = c.lastRead
    · rwa [heq, deviceUpdate_same now hi h.2]
    · rw [deviceUpdate_change now hi h0 heq]
      refine ⟨add_nonneg h.1 ?_, h0⟩
      split
      · exact le_refl 0
      · exact increase_nonneg h0

theorem Saveable.step {c d : Counter} (h : Saveable c) {a : Act} (hs : step c a = some d) : Saveable d := by
  cases a with
  | source f valid now =>
    obtain rfl := Option.some.inj hs
    unfold sourceUpdate
    by_cases hdis : c.disabled = true
    · rwa [if_pos hdis]
    · rw [if_neg hdis]
      cases valid <;> cases c.integratePower
      · exact h
      · exact h.integrate now
      · exact h.deviceUpdate _ now
      · exact h.powerUpdate _ now
  | tick now =>
    obtain rfl := Option.some.inj hs
    unfold Counters.tick
    split
    · split
      · exact h.integrate now
      · exact h
    · exact h
  | snapshot =>
    obtain rfl := Option.some.inj hs
    exact h
  | retry =>
    obtain rfl := Option.some.inj hs
    exact h

theorem saveable_reachable {c₀ c : Counter} (h₀ : Fresh c₀) (h : Reachable step (Started c₀) c) :
    Saveable c := by
  apply h.invariant
  · rintro s ⟨file, rfl⟩
    exact (saveable_fresh h₀).loadState file
  · intro s a t hs _ hst
    exact hs.step hst

/-! ## A restart -/

/-- The next reading after a restart: the state file is accepted, the total goes on, and no reset of
the device is reported. -/
structure Transparent (c₀ c : Counter) (raw : ℚ) (now : Int) : Prop where
  enabled : (loadState c₀ (.text (stateText c.accum c.lastRead))).disabled = false
  initialized : (loadState c₀ (.text (stateText c.accum c.lastRead))).initialized = true
  total :
    |(deviceUpdate (loadState c₀ (.text (stateText c.accum c.lastRead))) raw now).1.accum -
      (c.accum + (raw - c.lastRead))| ≤ 1 / 1000000
  noReset : ∀ last,
    .resetDetected last raw ∉ (deviceUpdate (loadState c₀ (.text (stateText c.accum c.lastRead))) raw now).2.2

/-- Rounding of both numbers moves the total by at most one unit of the last decimal. -/
theorem rounded_total (accum lastRead raw : ℚ) :
    |toFixed 6 accum + (raw - toFixed 6 lastRead) - (accum + (raw - lastRead))| ≤ 1 / 1000000 := by
  have ha := abs_le.mp (toFixed_near 6 accum)
  have hr := abs_le.mp (toFixed_near 6 lastRead)
  norm_num at ha hr
  rw [abs_le]
  constructor <;> linarith [ha.1, ha.2, hr.1, hr.2]

/-- **A restart is transparent** exactly if the last reading does not get above the next one when it is
rounded to six decimals. -/
theorem restart_transparent (cfg : CounterConf) (c₀ c : Counter) (raw : ℚ) (now : Int)
    (hcfg : counterConfigureOne cfg = some c₀) (hc : Reachable step (Started c₀) c)
    (hraw : c.lastRead ≤ raw) :
    Transparent c₀ c raw now ↔ toFixed 6 c.lastRead ≤ raw := by
  have hfresh := counterConfigureOne_spec hcfg
  have hsave := saveable_reachable hfresh hc
  have h0 : 0 ≤ raw := hsave.2.trans hraw
  have hload := loadState_stateText c₀ hsave.1 hsave.2
  constructor
  · intro h
    by_contra hlt
    rw [not_le] at hlt
    have hreset := h.noReset (toFixed 6 c.lastRead)
    rw [hload, deviceUpdate_change now rfl h0 hlt.ne] at hreset
    exact hreset (by simp [hlt])
  · intro hle
    obtain ⟨htotal, hnotices⟩ := deviceUpdate_forward
      (c := { c₀ with accum := toFixed 6 c.accum, lastRead := toFixed 6 c.lastRead, initialized := true })
      now rfl hfresh.change (toFixed_nonneg 6 hsave.2) hle
    constructor
    · rw [hload]
      exact hfresh.enabled
    · rw [hload]
    · rw [hload, htotal]
      exact rounded_total ..
    · intro last
      rw [hload, hnotices]
      exact List.not_mem_nil

/-! A device that stands at 1000.0000004, and one that stands at 1000.0000007. -/

def conf : CounterConf := { title := "e", source := some "meter" }

def configured : Counter := { name := "e", source := "meter" }

/-- The counter after its first reading. -/
def readAt (raw : ℚ) : Counter :=
  { configured with
    accum := raw
    lastRead := raw
    initialized := true
    dirty := true
    hasChange := true }

theorem readAt_reachable {raw : ℚ} (h : 0 ≤ raw) : Reachable step (Started configured) (readAt raw) := by
  refine ⟨configured, [.source raw true 0], ⟨.missing, rfl⟩, ?_⟩
  simp [step, sourceUpdate, configured, deviceUpdate, readAt, not_lt.mpr h]

/-- The last reading is saved as 1000.000000. -/
theorem restart_transparent_example :
    Transparent configured (readAt (10000000004 / 10000000)) (10000000004 / 10000000) 0 :=
  (restart_transparent conf configured (readAt (10000000004 / 10000000)) (10000000004 / 10000000) 0
    (by decide +kernel) (readAt_reachable (by norm_num)) (by decide +kernel)).mpr (by decide +kernel)

/-- The last reading is saved as 1000.000001, and the same reading after the restart is added once more. -/
theorem restart_counts_twice :
    Reachable step (Started configured) (readAt (10000000007 / 10000000)) ∧
      (readAt (10000000007 / 10000000)).disabled = false ∧
      (readAt (10000000007 / 10000000)).initialized = true ∧
      (readAt (10000000007 / 10000000)).integratePower = false ∧
      ¬ Transparent configured (readAt (10000000007 / 10000000)) (10000000007 / 10000000) 0 := by
  refine ⟨readAt_reachable (by norm_num), rfl, rfl, rfl, fun h => ?_⟩
  exact absurd h.total (by decide +kernel)

end Restart

end Uvrgw.Counters
