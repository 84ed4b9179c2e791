import Uvrgw.Counters.Code
import Uvrgw.Lib.Run

/-!
# The two threads of an integrating counter

The dispatch of the source and the tick of `counter_thread`: each reads the clock first and acts with
that reading when it has got the lock. `disp_lock` of the source lets one dispatch in at a time.
-/

namespace Uvrgw.Counters

open Uvrgw.Lib

/-! ## The lock holder's view -/

theorem powerUpdate_idle {c : Counter} (power : ℚ) (now : Int) (hp : c.hasPower = false)
    (ha : c.initialized = false → c.accum = 0) :
    (powerUpdate c power now).accum = c.accum ∧ (powerUpdate c power now).integratedTs = now ∧
      (powerUpdate c power now).initialized = true ∧
      (powerUpdate c power now).integratePower = c.integratePower := by
  unfold powerUpdate
  cases hi : c.initialized with
  | true => simp [integrate_idle now hp, hi]
  | false => simp [integrate, hp, ha hi]

/-! ## Machine -/

structure State where
  c : Counter
  /-- The monotonic clock. -/
  clock : Int
  /-- The reading of a `source_update` that waits for the lock. -/
  source : Option Int := none
  /-- The reading of a tick that waits for the lock. -/
  tick : Option Int := none
  deriving DecidableEq, Repr

inductive Act where
  | time (now : Int)
  | sourceRead
  | sourceAct (f : ℚ) (valid : Bool)
  | tickRead
  | tickAct
  deriving DecidableEq, Repr

def step (s : State) : Act → Option State
  | .time now => if s.clock ≤ now then some { s with clock := now } else none
  | .sourceRead => if s.source = none then some { s with source := some s.clock } else none
  | .sourceAct f valid => s.source.map fun now => { s with c := (sourceUpdate s.c f valid now).1, source := none }
  | .tickRead => if s.tick = none then some { s with tick := some s.clock } else none
  | .tickAct => s.tick.map fun now => { s with c := (Counters.tick s.c now).1, tick := none }

/-- After `counter_startup`. -/
structure Init (s : State) : Prop where
  integrates : s.c.integratePower = true
  power : s.c.hasPower = false
  /-- A counter without state starts at 0. -/
  fresh : s.c.initialized = false → s.c.accum = 0
  source : s.source = none
  tick : s.tick = none

/-- `power_update` does not replace a power that was integrated beyond its reading. -/
def Ordered (s : State) : Act → Prop
  | .sourceAct _ true => ∀ now, s.source = some now → s.c.hasPower = true → s.c.integratedTs ≤ now
  | _ => True

instance : ∀ (s : State) (a : Act), Decidable (Ordered s a)
  | s, .sourceAct _ true =>
    inferInstanceAs (Decidable (∀ now, s.source = some now → s.c.hasPower = true → s.c.integratedTs ≤ now))
  | _, .sourceAct _ false | _, .time _ | _, .sourceRead | _, .tickRead | _, .tickAct => isTrue trivial

/-! ## Invariant -/

/-- Time is integrated once: the total has grown by at most `P` over the time from `start` to `upTo`. -/
structure Bounded (P : ℚ) (s₀ s : State) (upTo : Int) : Prop where
  start : s₀.clock ≤ upTo
  clock : upTo ≤ s.clock
  growth : 3600000 * (s.c.accum - s₀.c.accum) ≤ P * (upTo - s₀.clock : ℤ)
  held : s.c.hasPower = true → s.c.integratedTs = upTo
  /-- Without a power, a dispatch that waits for the lock has read a later time. -/
  waiting : s.c.hasPower = false → ∀ now, s.source = some now → upTo ≤ now

structure Inv (P : ℚ) (s₀ s : State) : Prop where
  integrates : s.c.integratePower = true
  fresh : s.c.initialized = false → s.c.accum = 0 ∧ s₀.c.accum = 0 ∧ s.c.hasPower = false
  source : ∀ now, s.source = some now → now ≤ s.clock
  tick : ∀ now, s.tick = some now → now ≤ s.clock
  bounded : ∃ upTo, Bounded P s₀ s upTo

section Steps

variable {P : ℚ} {s₀ s t : State}

theorem Inv.init (h : Init s) : Inv P s s where
  integrates := h.integrates
  fresh := fun hi => ⟨h.fresh hi, h.fresh hi, h.power⟩
  source := by simp [h.source]
  tick := by simp [h.tick]
  bounded := ⟨s.clock, le_refl _, le_refl _, by simp, by simp [h.power], by simp [h.source]⟩

theorem Bounded.mono {upTo now : Int} (h : Bounded P s₀ s upTo) (hP : 0 ≤ P) (hle : upTo ≤ now) :
    3600000 * (s.c.accum - s₀.c.accum) ≤ P * (now - s₀.clock : ℤ) := by
  have hdt : ((upTo - s₀.clock : ℤ) : ℚ) ≤ (now - s₀.clock : ℤ) := by exact_mod_cast (by omega)
  exact h.growth.trans (mul_le_mul_of_nonneg_left hdt hP)

theorem Bounded.integrate {upTo now : Int} (h : Bounded P s₀ s upTo)
    (hheld : s.c.hasPower = true → s.c.counted ≤ P) (hnow : now ≤ s.clock) :
    Bounded P s₀ { s with c := integrate s.c now } (if s.c.hasPower then max upTo now else upTo) := by
  cases hp : s.c.hasPower with
  | false =>
    rw [integrate_idle now hp]
    exact h
  | true =>
    have hts := h.held hp
    simp only [if_true]
    by_cases hlt : s.c.integratedTs < now
    · have hle : upTo ≤ now := by omega
      rw [integrate_due hp hlt, max_eq_right hle]
      refine ⟨h.start.trans hle, hnow, ?_, fun _ => rfl, by simp [hp]⟩
      have hgrow := h.growth
      have hdt : (0 : ℚ) ≤ (now - upTo : ℤ) := by exact_mod_cast (by omega : 0 ≤ now - upTo)
      have hmul := mul_le_mul_of_nonneg_right (hheld hp) hdt
      simp only [hts]
      push_cast at hgrow hmul ⊢
      linarith
    · rw [integrate_late (not_lt.mp hlt), max_eq_left (by omega)]
      exact h

theorem Inv.time {now : Int} (h : Inv P s₀ s) (hle : s.clock ≤ now) : Inv P s₀ { s with clock := now } := by
  obtain ⟨upTo, hb⟩ := h.bounded
  exact
    { integrates := h.integrates
      fresh := h.fresh
      source := fun r hr => (h.source r hr).trans hle
      tick := fun r hr => (h.tick r hr).trans hle
      bounded := ⟨upTo, hb.start, hb.clock.trans hle, hb.growth, hb.held, hb.waiting⟩ }

theorem Inv.sourceRead (h : Inv P s₀ s) : Inv P s₀ { s with source := some s.clock } := by
  obtain ⟨upTo, hb⟩ := h.bounded
  refine { h with source := ?_, bounded := ⟨upTo, hb.start, hb.clock, hb.growth, hb.held, ?_⟩ }
  · rintro now ⟨⟩
    exact le_refl _
  · rintro - now ⟨⟩
    exact hb.clock

theorem Inv.integrate {now : Int} (h : Inv P s₀ s) (hheld : s.c.hasPower = true → s.c.counted ≤ P)
    (hnow : now ≤ s.clock) : Inv P s₀ { s with c := integrate s.c now } := by
  obtain ⟨upTo, hb⟩ := h.bounded
  obtain ⟨-, hk₂, hk₃, -⟩ := integrate_keeps s.c now
  exact
    { integrates := hk₂.trans h.integrates
      fresh := fun hi => by
        obtain ⟨ha, ha₀, hp⟩ := h.fresh (hk₃ ▸ hi)
        rw [integrate_idle now hp]
        exact ⟨ha, ha₀, hp⟩
      source := h.source
      tick := h.tick
      bounded := ⟨_, hb.integrate hheld hnow⟩ }

theorem Inv.tickDone (h : Inv P s₀ s) : Inv P s₀ { s with tick := none } := by
  obtain ⟨upTo, hb⟩ := h.bounded
  exact { h with tick := by simp, bounded := ⟨upTo, hb.start, hb.clock, hb.growth, hb.held, hb.waiting⟩ }

theorem Inv.tickAct {now : Int} (h : Inv P s₀ s) (hheld : s.c.hasPower = true → s.c.counted ≤ P)
    (hr : s.tick = some now) : Inv P s₀ { s with c := (Counters.tick s.c now).1, tick := none } := by
  unfold Counters.tick
  rw [if_pos h.integrates]
  split
  · exact (h.integrate hheld (h.tick now hr)).tickDone
  · exact h.tickDone

theorem Inv.powerStop {now : Int} (h : Inv P s₀ s) (hheld : s.c.hasPower = true → s.c.counted ≤ P)
    (hnow : now ≤ s.clock) : Inv P s₀ { s with c := powerStop s.c now, source := none } := by
  have hi := h.integrate hheld hnow
  obtain ⟨upTo, hb⟩ := hi.bounded
  exact
    { integrates := hi.integrates
      fresh := fun hf => ⟨(hi.fresh hf).1, (hi.fresh hf).2.1, rfl⟩
      source := by simp
      tick := h.tick
      bounded := ⟨upTo, hb.start, hb.clock, hb.growth, by simp [Counters.powerStop], by simp⟩ }

/-- A new power takes over where the old one was integrated to. -/
theorem Inv.powerUpdate {now : Int} (h : Inv P s₀ s) (hP : 0 ≤ P)
    (hheld : s.c.hasPower = true → s.c.counted ≤ P) (hr : s.source = some now)
    (hord : s.c.hasPower = true → s.c.integratedTs ≤ now) (power : ℚ) :
    Inv P s₀ { s with c := powerUpdate s.c power now, source := none } := by
  obtain ⟨upTo, hb⟩ := h.bounded
  have hnow := h.source now hr
  cases hp : s.c.hasPower with
  | false =>
    have hle := hb.waiting hp now hr
    obtain ⟨haccum, hts, hinit, hint⟩ := powerUpdate_idle power now hp fun hi => (h.fresh hi).1
    refine
      { integrates := hint.trans h.integrates
        fresh := by simp [hinit]
        source := by simp
        tick := h.tick
        bounded := ⟨now, hb.start.trans hle, hnow, ?_, fun _ => hts, by simp⟩ }
    rw [haccum]
    exact hb.mono hP hle
  | true =>
    have hi : s.c.initialized = true := by
      by_contra hi
      simp [(h.fresh (by simpa using hi)).2.2] at hp
    have hts := hb.held hp
    have hle := hord hp
    have hb' := hb.integrate hheld hnow
    obtain ⟨-, hk₂, hk₃, -⟩ := integrate_keeps s.c now
    rw [hp, if_pos rfl, max_eq_right (by omega)] at hb'
    unfold Counters.powerUpdate
    rw [if_pos hi]
    exact
      { integrates := hk₂.trans h.integrates
        fresh := fun hf => by simp [hk₃, hi] at hf
        source := by simp
        tick := h.tick
        bounded := ⟨now, hb'.start, hb'.clock, hb'.growth, fun _ => rfl, by simp⟩ }

theorem Inv.step (a : Act) (hP : 0 ≤ P) (h : Inv P s₀ s) (hheld : s.c.hasPower = true → s.c.counted ≤ P)
    (hord : Ordered s a) (hst : step s a = some t) : Inv P s₀ t := by
  cases a with
  | time now =>
    obtain ⟨hle, rfl⟩ := by simpa [Counters.step] using hst
    exact h.time hle
  | sourceRead =>
    obtain ⟨-, rfl⟩ := by simpa [Counters.step] using hst
    exact h.sourceRead
  | sourceAct f valid =>
    obtain ⟨now, hr, rfl⟩ := Option.map_eq_some_iff.mp hst
    unfold sourceUpdate
    dsimp only
    split
    · obtain ⟨upTo, hb⟩ := h.bounded
      exact { h with source := by simp, bounded := ⟨upTo, hb.start, hb.clock, hb.growth, hb.held, by simp⟩ }
    · cases valid with
      | false => simpa [h.integrates] using h.powerStop hheld (h.source now hr)
      | true => simpa [h.integrates] using h.powerUpdate hP hheld hr (hord now hr) (f * s.c.scale)
  | tickRead =>
    obtain ⟨-, rfl⟩ := by simpa [Counters.step] using hst
    obtain ⟨upTo, hb⟩ := h.bounded
    refine { h with tick := ?_, bounded := ⟨upTo, hb.start, hb.clock, hb.growth, hb.held, hb.waiting⟩ }
    rintro now ⟨⟩
    exact le_refl _
  | tickAct =>
    obtain ⟨now, hr, rfl⟩ := Option.map_eq_some_iff.mp hst
    exact h.tickAct hheld hr

/-! ## Order of integration -/

/-- The end of the integrated time does not go back while a power is held. -/
def Forward (s : State) (a : Act) : Prop :=
  ∀ t, step s a = some t → s.c.hasPower = true → t.c.hasPower = true → s.c.integratedTs ≤ t.c.integratedTs

theorem integrate_forward (c : Counter) (now : Int) :
    c.integratedTs ≤ (Counters.integrate c now).integratedTs := by
  by_cases hlt : c.integratedTs < now
  · cases hp : c.hasPower with
    | false => rw [integrate_idle now hp]
    | true =>
      rw [integrate_due hp hlt]
      exact hlt.le
  · rw [integrate_late (not_lt.mp hlt)]

/-- A step of an enabled counter keeps the order exactly if it meets the condition. -/
theorem forward_iff (a : Act) (hint : s.c.integratePower = true) (hdis : s.c.disabled = false) :
    Forward s a ↔ Ordered s a := by
  unfold Forward
  cases a with
  | time now =>
    refine iff_of_true (fun t hst _ _ => ?_) trivial
    obtain ⟨-, rfl⟩ := by simpa [Counters.step] using hst
    exact le_refl _
  | sourceRead =>
    refine iff_of_true (fun t hst _ _ => ?_) trivial
    obtain ⟨-, rfl⟩ := by simpa [Counters.step] using hst
    exact le_refl _
  | tickRead =>
    refine iff_of_true (fun t hst _ _ => ?_) trivial
    obtain ⟨-, rfl⟩ := by simpa [Counters.step] using hst
    exact le_refl _
  | tickAct =>
    refine iff_of_true (fun t hst _ _ => ?_) trivial
    obtain ⟨now, -, rfl⟩ := Option.map_eq_some_iff.mp hst
    unfold Counters.tick
    rw [if_pos hint]
    split
    · exact integrate_forward ..
    · exact le_refl _
  | sourceAct f valid =>
    cases valid with
    | false =>
      refine iff_of_true (fun t hst _ hpt => ?_) trivial
      obtain ⟨now, -, rfl⟩ := Option.map_eq_some_iff.mp hst
      simp [sourceUpdate, hdis, hint, Counters.powerStop] at hpt
    | true =>
      have hts : ∀ now, (sourceUpdate s.c f true now).1.integratedTs = now ∧
          (sourceUpdate s.c f true now).1.hasPower = true := by
        intro now
        simp [sourceUpdate, hdis, hint, Counters.powerUpdate]
      constructor
      · intro h now hr hp
        have := h _ (Option.map_eq_some_iff.mpr ⟨now, hr, rfl⟩) hp (hts now).2
        rwa [(hts now).1] at this
      · intro h t hst hp _
        obtain ⟨now, hr, rfl⟩ := Option.map_eq_some_iff.mp hst
        rw [(hts now).1]
        exact h now hr hp

end Steps

theorem disabled_keeps {s t : State} (a : Act) (hdis : s.c.disabled = true) (hst : step s a = some t) :
    t.c = s.c := by
  cases a with
  | time now =>
    obtain ⟨-, rfl⟩ := by simpa [step] using hst
    rfl
  | sourceRead =>
    obtain ⟨-, rfl⟩ := by simpa [step] using hst
    rfl
  | tickRead =>
    obtain ⟨-, rfl⟩ := by simpa [step] using hst
    rfl
  | tickAct =>
    obtain ⟨now, -, rfl⟩ := Option.map_eq_some_iff.mp hst
    simp [Counters.tick, hdis]
  | sourceAct f valid =>
    obtain ⟨now, -, rfl⟩ := Option.map_eq_some_iff.mp hst
    simp [sourceUpdate, hdis]

/-- **No instant is counted twice**, as long as no `power_update` replaces a power that a tick has
integrated beyond its reading: the integrated time goes forward and the total grows by at most the
largest counted power held times the elapsed time. -/
theorem integrated_once (s t : State) (l : List Act) (P : ℚ) (hs : Init s) (hrun : Run step s l t)
    (hord : Meets step Ordered s l) (hP : 0 ≤ P)
    (hheld : Throughout step (fun u => u.c.hasPower = true → u.c.counted ≤ P) s l) :
    Meets step Forward s l ∧ t.c.accum - s.c.accum ≤ P * (t.clock - s.clock : ℤ) / 3600000 := by
  have hmeets : ∀ (l : List Act) (u : State), Inv P s u → Meets step Ordered u l →
      Throughout step (fun u => u.c.hasPower = true → u.c.counted ≤ P) u l → ∀ v, Run step u l v →
      Meets step Forward u l ∧ Inv P s v := by
    intro l
    induction l with
    | nil =>
      intro u hu _ _ v hv
      obtain rfl := (run_nil u v).mp hv
      exact ⟨trivial, hu⟩
    | cons a l ih =>
      intro u hu hord hheld v hv
      obtain ⟨w, hw, hv⟩ := (run_cons u a l v).mp hv
      have hinv := hu.step a hP hheld.1 hord.1 hw
      obtain ⟨hfwd, hend⟩ := ih w hinv (hord.2 w hw) (hheld.2 w hw) v hv
      refine ⟨⟨?_, fun w' hw' => ?_⟩, hend⟩
      · cases hdis : u.c.disabled with
        | true =>
          intro w' hw' _ _
          rw [disabled_keeps a hdis hw']
        | false => exact (forward_iff a hu.integrates hdis).mpr hord.1
      · obtain rfl := Option.some.inj (hw.symm.trans hw')
        exact hfwd
  obtain ⟨hfwd, hinv⟩ := hmeets l s (Inv.init hs) hord hheld t hrun
  refine ⟨hfwd, ?_⟩
  obtain ⟨upTo, hb⟩ := hinv.bounded
  rw [le_div_iff₀ (by norm_num), mul_comm]
  exact hb.mono hP hb.clock

/-- 3600 W from 1 ms on, a tick and a second dispatch. -/
def calmInit : State where
  c := { name := "e", source := "p", integratePower := true }
  clock := 1

def calmActs : List Act :=
  [.sourceRead, .sourceAct 3600 true, .time 101, .tickRead, .tickAct, .sourceRead, .sourceAct 3600 true,
    .time 1101, .tickRead, .tickAct]

def calmEnd : State := (calmActs.foldlM step calmInit).get (by decide +kernel)

theorem integrated_once_example : calmEnd.c.accum - 0 ≤ 3600 * (1101 - 1 : ℤ) / 3600000 :=
  (integrated_once calmInit calmEnd calmActs 3600 ⟨rfl, rfl, fun _ => rfl, rfl, rfl⟩ (Option.some_get _).symm
    (by decide +kernel) (by norm_num) (by decide +kernel)).2

/-- 3600 W at 1 ms, then a dispatch that reads the clock at 101 ms and gets the lock at 201 ms, after
a tick that has read 201 ms. The next tick is at 1201 ms. -/
def raceInit : State where
  c := { name := "e", source := "p", integratePower := true }
  clock := 1

def raceActs : List Act :=
  [.sourceRead, .sourceAct 3600 true, .time 101, .sourceRead, .time 201, .tickRead, .tickAct,
    .sourceAct 3600 true, .time 1201, .tickRead, .tickAct]

def raceEnd : State := (raceActs.foldlM step raceInit).get (by decide +kernel)

theorem raceInit_init : Init raceInit := ⟨rfl, rfl, fun _ => rfl, rfl, rfl⟩

/-- The 100 ms that the stale reading goes back are counted twice. -/
theorem integrated_twice :
    Init raceInit ∧ Run step raceInit raceActs raceEnd ∧
      Throughout step (fun u => u.c.hasPower = true → u.c.counted ≤ 3600) raceInit raceActs ∧
      ¬ Meets step Forward raceInit raceActs ∧
      3600 * (raceEnd.clock - raceInit.clock : ℤ) / 3600000 < raceEnd.c.accum - raceInit.c.accum := by
  refine ⟨raceInit_init, (Option.some_get _).symm, by decide +kernel, fun h => ?_, by decide +kernel⟩
  unfold raceActs at h
  repeat' rw [meets_cons (by rfl)] at h
  obtain ⟨-, -, -, -, -, -, -, h, -⟩ := h
  exact absurd (h _ rfl (by decide +kernel) (by decide +kernel)) (by decide +kernel)

end Uvrgw.Counters
