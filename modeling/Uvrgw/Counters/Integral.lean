import Mathlib.Data.List.Pairwise
import Uvrgw.Counters.Device

/-!
# The integral of the power (`counter.c`)

Dispatches of the source, ticks of `counter_thread` and publishes of one integrating counter, in the order
in which they get the lock.
-/

namespace Uvrgw.Counters

inductive Event where
  | source (d : Dispatch)
  | tick (now : Int)
  | publish
  deriving DecidableEq, Repr

namespace Event

def dispatch? : Event → Option Dispatch
  | source d => some d
  | tick _ | publish => none

def time? : Event → Option Int
  | source d => some d.now
  | tick now => some now
  | publish => none

end Event

def Counter.handle (c : Counter) : Event → Counter
  | .source d => (sourceUpdate c d.f d.valid d.now).1
  | .tick now => (tick c now).1
  | .publish => c

def Counter.handleAll (c : Counter) (es : List Event) : Counter := es.foldl Counter.handle c

def dispatches (es : List Event) : List Dispatch := es.filterMap Event.dispatch?

def times (es : List Event) : List Int := es.filterMap Event.time?

/-! ## The integral -/

/-- The energy of `p` W from `t` to `u`, in Wh. -/
def energy (p : ℚ) (t u : Int) : ℚ := p * (u - t : ℤ) / 3600000

theorem energy_add (p : ℚ) (t u v : Int) : energy p t u + energy p u v = energy p t v := by
  unfold energy
  push_cast
  ring

@[simp] theorem energy_zero (t u : Int) : energy 0 t u = 0 := by simp [energy]

@[simp] theorem energy_self (p : ℚ) (t : Int) : energy p t t = 0 := by simp [energy]

/-- The counted part of the power that is held after a dispatch. -/
def Counter.held (c : Counter) (d : Dispatch) : ℚ :=
  if d.valid then max 0 (c.reading d * c.sign.factor) else 0

/-- The sum over the intervals between consecutive dispatches. -/
def integral (c : Counter) (ds : List Dispatch) : ℚ :=
  ((ds.zip ds.tail).map fun (d, e) => energy (c.held d) d.now e.now).sum

/-- The energy after the last dispatch up to `v`. -/
def rest (c : Counter) (ds : List Dispatch) (v : Int) : ℚ :=
  match ds.getLast? with
  | none => 0
  | some d => energy (c.held d) d.now v

/-- The integral up to `v` of a power that is `p` from `t` on and then follows the dispatches. -/
def integralTo (c : Counter) : ℚ → Int → List Dispatch → Int → ℚ
  | p, t, [], v => energy p t v
  | p, t, d :: ds, v => energy p t d.now + integralTo c (c.held d) d.now ds v

theorem integralTo_shift (c : Counter) (p : ℚ) (t u : Int) (ds : List Dispatch) (v : Int) :
    energy p t u + integralTo c p u ds v = integralTo c p t ds v := by
  cases ds with
  | nil => exact energy_add p t u v
  | cons d ds =>
    unfold integralTo
    rw [← add_assoc, energy_add]

theorem integralTo_cons (c : Counter) (d : Dispatch) (ds : List Dispatch) (v : Int) :
    integralTo c (c.held d) d.now ds v = integral c (d :: ds) + rest c (d :: ds) v := by
  induction ds generalizing d with
  | nil => simp [integralTo, integral, rest]
  | cons e ds ih =>
    have hrest : rest c (d :: e :: ds) v = rest c (e :: ds) v := by simp [rest]
    have hint : integral c (d :: e :: ds) = energy (c.held d) d.now e.now + integral c (e :: ds) := by
      simp [integral]
    rw [hrest, hint, integralTo, ih e, add_assoc]

theorem integralTo_idle (c : Counter) (t : Int) (ds : List Dispatch) (v : Int) :
    integralTo c 0 t ds v = integral c ds + rest c ds v := by
  cases ds with
  | nil => simp [integralTo, integral, rest]
  | cons d ds => rw [integralTo, energy_zero, zero_add, integralTo_cons]

/-! ## What the counter does -/

/-- `c` holds the counted power `p` and has integrated up to `u`; `c₀` is the configuration. -/
structure Holds (c₀ c : Counter) (p : ℚ) (u : Int) : Prop where
  integrates : c.integratePower = true
  enabled : c.disabled = false
  scale : c.scale = c₀.scale
  sign : c.sign = c₀.sign
  fresh : c.initialized = false → c.accum = 0 ∧ c.hasPower = false
  power : p = if c.hasPower then c.counted else 0
  upTo : c.hasPower = true → c.integratedTs = u

section Steps

variable {c₀ c : Counter} {p : ℚ} {u now : Int}

theorem Holds.integrate (h : Holds c₀ c p u) (hle : u ≤ now) :
    Holds c₀ (integrate c now) p now ∧ (integrate c now).accum = c.accum + energy p u now := by
  cases hp : c.hasPower with
  | false =>
    have hzero : p = 0 := by simpa [hp] using h.power
    rw [integrate_idle now hp, hzero, energy_zero, add_zero]
    exact ⟨⟨h.integrates, h.enabled, h.scale, h.sign, h.fresh, by simp [hp], by simp [hp]⟩, rfl⟩
  | true =>
    have hcounted : p = c.counted := by simpa [hp] using h.power
    have hts := h.upTo hp
    rcases hle.lt_or_eq with hlt | rfl
    · rw [integrate_due hp (hts ▸ hlt), hts, hcounted]
      refine ⟨⟨h.integrates, h.enabled, h.scale, h.sign, fun hi => ?_, ?_, fun _ => rfl⟩, rfl⟩
      · rw [(h.fresh hi).2] at hp
        cases hp
      · exact (if_pos hp).symm
    · rw [integrate_late hts.ge, energy_self, add_zero]
      exact ⟨h, rfl⟩

theorem Holds.tick (h : Holds c₀ c p u) (hle : u ≤ now) :
    Holds c₀ (c.handle (.tick now)) p now ∧ (c.handle (.tick now)).accum = c.accum + energy p u now := by
  unfold Counter.handle Counters.tick
  dsimp only
  rw [if_pos h.integrates]
  cases hi : c.initialized with
  | true => simpa [h.enabled] using h.integrate hle
  | false =>
    have hp := (h.fresh hi).2
    have := h.integrate hle
    rw [integrate_idle now hp] at this
    simpa using this

/-- The held power is integrated up to the dispatch, then the new one is held or none. -/
theorem Holds.source (h : Holds c₀ c p u) (d : Dispatch) (hle : u ≤ d.now) :
    Holds c₀ (c.handle (.source d)) (c₀.held d) d.now ∧
      (c.handle (.source d)).accum = c.accum + energy p u d.now := by
  obtain ⟨hint, haccum⟩ := h.integrate hle
  unfold Counter.handle sourceUpdate
  dsimp only
  rw [if_neg (by simp [h.enabled])]
  cases hv : d.valid with
  | false =>
    simp only [h.integrates, Bool.not_false, if_true, powerStop]
    refine ⟨⟨hint.integrates, hint.enabled, hint.scale, hint.sign, fun hi => ⟨(hint.fresh hi).1, rfl⟩,
      ?_, ?_⟩, haccum⟩
    · simp [Counter.held, hv]
    · simp
  | true =>
    have hheld : c₀.held d = max 0 (d.f * c.scale * c.sign.factor) := by
      simp [Counter.held, Counter.reading, hv, h.scale, h.sign]
    simp only [h.integrates, Bool.not_true, Bool.false_eq_true, if_false, if_true]
    unfold powerUpdate
    cases hi : c.initialized with
    | true =>
      simp only [if_true]
      have hi' := (integrate_keeps c d.now).2.2.1.trans hi
      refine ⟨⟨hint.integrates, hint.enabled, hint.scale, hint.sign, ?_, ?_, fun _ => rfl⟩, haccum⟩
      · intro hf
        rw [show (Counters.integrate c d.now).initialized = false from hf] at hi'
        cases hi'
      · rw [hheld, ← h.scale.trans hint.scale.symm]
        simp only [if_true, Counter.counted, hint.sign, h.sign]
    | false =>
      obtain ⟨hzero, hp⟩ := h.fresh hi
      rw [integrate_idle d.now hp] at haccum
      simp only [Bool.false_eq_true, if_false, Counters.integrate, hp]
      refine ⟨⟨h.integrates, h.enabled, h.scale, h.sign, by simp, ?_, fun _ => rfl⟩, ?_⟩
      · rw [hheld]
        simp [Counter.counted]
      · rw [← haccum, hzero]

end Steps

/-- **Run lemma.** -/
theorem handleAll_accum {c₀ c : Counter} {p : ℚ} {u : Int} (es : List Event) (h : Holds c₀ c p u)
    (htimes : (u :: times es).Pairwise (· ≤ ·)) :
    (c.handleAll es).accum = c.accum + integralTo c₀ p u (dispatches es) ((times es).getLastD u) := by
  induction es generalizing c p u with
  | nil => simp [Counter.handleAll, dispatches, times, integralTo]
  | cons e es ih =>
    have hrun : c.handleAll (e :: es) = (c.handle e).handleAll es := rfl
    rw [hrun]
    cases e with
    | publish => exact ih h htimes
    | tick now =>
      obtain ⟨hhead, htail⟩ := List.pairwise_cons.mp htimes
      obtain ⟨hnext, haccum⟩ := h.tick (hhead now (by simp [times, Event.time?]))
      have htime : times (.tick now :: es) = now :: times es := rfl
      have hds : dispatches (.tick now :: es) = dispatches es := rfl
      rw [htime] at htail ⊢
      rw [ih hnext htail, haccum, hds, List.getLastD_cons, add_assoc, integralTo_shift]
    | source d =>
      obtain ⟨hhead, htail⟩ := List.pairwise_cons.mp htimes
      obtain ⟨hnext, haccum⟩ := h.source d (hhead d.now (by simp [times, Event.time?]))
      have htime : times (.source d :: es) = d.now :: times es := rfl
      have hds : dispatches (.source d :: es) = d :: dispatches es := rfl
      rw [htime] at htail ⊢
      rw [ih hnext htail, haccum, hds, List.getLastD_cons, integralTo, add_assoc]

/-! ## The total is the integral -/

/-- An enabled integrating counter that holds no power, as after the start. -/
structure Idle (c : Counter) : Prop where
  integrates : c.integratePower = true
  enabled : c.disabled = false
  power : c.hasPower = false
  /-- A counter without state starts at 0. -/
  fresh : c.initialized = false → c.accum = 0

theorem Idle.holds {c : Counter} (h : Idle c) (u : Int) : Holds c c 0 u where
  integrates := h.integrates
  enabled := h.enabled
  scale := rfl
  sign := rfl
  fresh := fun hi => ⟨h.fresh hi, h.power⟩
  power := by simp [h.power]
  upTo := by simp [h.power]

theorem handleAll_idle {c : Counter} (h : Idle c) (es : List Event) (htimes : (times es).Pairwise (· ≤ ·)) :
    (c.handleAll es).accum - c.accum =
      integral c (dispatches es) + rest c (dispatches es) ((times es).getLastD 0) := by
  have hrun : ∀ u, (u :: times es).Pairwise (· ≤ ·) → (c.handleAll es).accum - c.accum =
      integral c (dispatches es) + rest c (dispatches es) ((times es).getLastD u) := by
    intro u hu
    rw [handleAll_accum es (h.holds u) hu, integralTo_idle, add_sub_cancel_left]
  cases ht : times es with
  | nil => simpa [ht] using hrun 0 (by simp [ht])
  | cons u us =>
    -- the first reading itself may be taken as the start
    have hsorted : (u :: times es).Pairwise (· ≤ ·) := by
      rw [ht] at htimes ⊢
      refine List.pairwise_cons.mpr ⟨fun t ht' => ?_, htimes⟩
      rcases List.mem_cons.mp ht' with rfl | ht'
      · exact le_refl _
      · exact (List.pairwise_cons.mp htimes).1 t ht'
    rw [hrun u hsorted, ht, List.getLastD_cons, List.getLastD_cons]

theorem dispatches_source (es : List Event) (d : Dispatch) :
    dispatches (es ++ [.source d]) = dispatches es ++ [d] ∧ times (es ++ [.source d]) = times es ++ [d.now] := by
  simp [dispatches, times, Event.dispatch?, Event.time?]

theorem handleAll_source {c : Counter} (h : Idle c) (es : List Event) (d : Dispatch)
    (htimes : (times (es ++ [.source d])).Pairwise (· ≤ ·)) :
    (c.handleAll (es ++ [.source d])).accum - c.accum = integral c (dispatches es ++ [d]) := by
  obtain ⟨hds, hts⟩ := dispatches_source es d
  rw [handleAll_idle h _ htimes, hds, hts]
  simp [rest]

/-- **The total is the integral** of the counted power: over the intervals between consecutive dispatches,
and after the last one as far as the last tick. Up to a dispatch it does not depend on ticks. -/
theorem power_integrated (c : Counter) (es : List Event) (h : Idle c) (htimes : (times es).Pairwise (· ≤ ·)) :
    (c.handleAll es).accum - c.accum =
        integral c (dispatches es) + rest c (dispatches es) ((times es).getLastD 0) ∧
      (∀ pre d, es = pre ++ [.source d] → (c.handleAll es).accum - c.accum = integral c (dispatches es)) ∧
      ∀ es', (times es').Pairwise (· ≤ ·) → dispatches es' = dispatches es →
        (∃ pre d, es = pre ++ [.source d]) → (∃ pre d, es' = pre ++ [.source d]) →
        (c.handleAll es').accum = (c.handleAll es).accum := by
  have hend : ∀ es', (times es').Pairwise (· ≤ ·) → (∃ pre d, es' = pre ++ [.source d]) →
      (c.handleAll es').accum - c.accum = integral c (dispatches es') := by
    rintro es' ht ⟨pre, d, rfl⟩
    rw [handleAll_source h pre d ht, (dispatches_source pre d).1]
  refine ⟨handleAll_idle h es htimes, fun pre d he => hend es htimes ⟨pre, d, he⟩, ?_⟩
  intro es' htimes' hds hes hes'
  have h₁ := hend es htimes hes
  have h₂ := hend es' htimes' hes'
  rw [hds] at h₂
  linarith

/-- 3600 W, a tick, no power for a while, and 7200 W. -/
def meterCounter : Counter := { name := "e", source := "p", integratePower := true }

def meterEvents : List Event :=
  [.source ⟨3600, true, 0⟩, .tick 1000, .publish, .source ⟨0, false, 2000⟩, .tick 3000, .source ⟨7200, true, 4000⟩,
    .source ⟨0, true, 5000⟩]

theorem meterCounter_idle : Idle meterCounter := ⟨rfl, rfl, rfl, fun _ => rfl⟩

theorem power_integrated_meter : (meterCounter.handleAll meterEvents).accum = 4 := by
  have h := (power_integrated meterCounter meterEvents meterCounter_idle (by decide +kernel)).2.1
    (meterEvents.take 6) ⟨0, true, 5000⟩ rfl
  rw [show integral meterCounter (dispatches meterEvents) = 4 by decide +kernel] at h
  simpa [meterCounter] using h

/-- The tick has counted an interval that no dispatch has ended yet. -/
theorem tick_ahead_of_dispatches :
    Idle meterCounter ∧ (times (meterEvents.take 2)).Pairwise (· ≤ ·) ∧
      (meterCounter.handleAll (meterEvents.take 2)).accum - meterCounter.accum = 1 ∧
      integral meterCounter (dispatches (meterEvents.take 2)) = 0 :=
  ⟨meterCounter_idle, by decide +kernel, by decide +kernel, by decide +kernel⟩

end Uvrgw.Counters
