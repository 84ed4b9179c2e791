import Mathlib.Data.List.Pairwise
import Uvrgw.Counters.State

/-!
# The law of device counters (`counter.c`)

Sequences of source dispatches of one device counter, from any state.
-/

namespace Uvrgw.Counters

/-! ## Sequences of dispatches -/

/-- A call of `source_update`. -/
structure Dispatch where
  f : ℚ
  valid : Bool
  now : Int
  deriving DecidableEq, Repr

/-- The counter after the dispatches, and the totals that it publishes. -/
def updates : Counter → List Dispatch → Counter × List ℚ
  | c, [] => (c, [])
  | c, d :: ds =>
    let (c, total, _) := sourceUpdate c d.f d.valid d.now
    let (c, totals) := updates c ds
    (c, total.toList ++ totals)

def Counter.reading (c : Counter) (d : Dispatch) : ℚ := d.f * c.scale

/-- An enabled device counter. -/
structure Device (c : Counter) : Prop where
  device : c.integratePower = false
  enabled : c.disabled = false
  scale : 0 < c.scale

def Ignored (d : Dispatch) : Prop := d.valid = false ∨ d.f < 0

def Counter.taken (c : Counter) (raw : ℚ) (now : Int) : ℚ := if c.glitch raw now then 0 else c.increase raw

/-- What a dispatch can do to a device counter. -/
inductive DeviceStep (c : Counter) (d : Dispatch) : Counter → Option ℚ → Prop
  | ignored (h : Ignored d) : DeviceStep c d c none
  | first (h : ¬ Ignored d) (hi : c.initialized = false) :
      DeviceStep c d
        { c with
          accum := c.reading d
          lastRead := c.reading d
          initialized := true
          dirty := true
          hasChange := true
          changeTs := d.now } (some (c.reading d))
  | same (h : ¬ Ignored d) (hi : c.initialized = true) (heq : c.reading d = c.lastRead) :
      DeviceStep c d c (some c.accum)
  | change (h : ¬ Ignored d) (hi : c.initialized = true) (hne : c.reading d ≠ c.lastRead) :
      DeviceStep c d
        { c with
          accum := c.accum + c.taken (c.reading d) d.now
          lastRead := c.reading d
          dirty := true
          hasChange := true
          changeTs := d.now } (some (c.accum + c.taken (c.reading d) d.now))

theorem not_ignored {d : Dispatch} : ¬ Ignored d ↔ d.valid = true ∧ 0 ≤ d.f := by
  simp [Ignored]

theorem reading_nonneg {c : Counter} {d : Dispatch} (hc : Device c) (h : ¬ Ignored d) : 0 ≤ c.reading d :=
  mul_nonneg (not_ignored.mp h).2 hc.scale.le

theorem sourceUpdate_ignored {c : Counter} {d : Dispatch} (hc : Device c) (h : Ignored d) :
    sourceUpdate c d.f d.valid d.now = (c, none, []) := by
  unfold sourceUpdate
  dsimp only
  rw [if_neg (by simp [hc.enabled])]
  cases hv : d.valid with
  | false => simp [hc.device]
  | true =>
    have hneg : d.f * c.scale < 0 := by
      rcases h with h | h
      · rw [hv] at h
        cases h
      · exact mul_neg_of_neg_of_pos h hc.scale
    simp [hc.device, deviceUpdate, hneg]

theorem sourceUpdate_accepted {c : Counter} {d : Dispatch} (hc : Device c) (h : ¬ Ignored d) :
    sourceUpdate c d.f d.valid d.now =
      let (c', ok, notices) := deviceUpdate c (c.reading d) d.now
      (c', if ok ∧ c'.initialized then some c'.accum else none, notices) := by
  unfold sourceUpdate
  dsimp only
  rw [if_neg (by simp [hc.enabled]), (not_ignored.mp h).1]
  simp only [Bool.not_true, hc.device, Bool.false_eq_true, if_false]
  rfl

theorem sourceUpdate_step {c : Counter} (hc : Device c) (d : Dispatch) :
    DeviceStep c d (sourceUpdate c d.f d.valid d.now).1 (sourceUpdate c d.f d.valid d.now).2.1 := by
  by_cases h : Ignored d
  · rw [sourceUpdate_ignored hc h]
    exact .ignored h
  have h0 := reading_nonneg hc h
  rw [sourceUpdate_accepted hc h]
  cases hi : c.initialized with
  | false =>
    simp only [deviceUpdate, not_lt.mpr h0, hi]
    exact .first h hi
  | true =>
    have hok (x : ℚ) : (if true = true ∧ c.initialized = true then some x else none) = some x :=
      if_pos ⟨rfl, hi⟩
    by_cases heq : c.reading d = c.lastRead
    · rw [heq, deviceUpdate_same d.now hi (heq ▸ h0)]
      dsimp only
      rw [hok]
      exact .same h hi heq
    · rw [deviceUpdate_change d.now hi h0 heq]
      dsimp only
      rw [hok]
      exact .change h hi heq

theorem DeviceStep.device {c c' : Counter} {d : Dispatch} {total : Option ℚ} (h : DeviceStep c d c' total)
    (hc : Device c) : Device c' := by
  cases h <;> exact ⟨hc.device, hc.enabled, hc.scale⟩

/-- `has_change` is never set without a total. -/
def Consistent (c : Counter) : Prop := c.hasChange = true → c.initialized = true

theorem DeviceStep.consistent {c c' : Counter} {d : Dispatch} {total : Option ℚ} (h : DeviceStep c d c' total)
    (hc : Consistent c) : Consistent c' := by
  cases h with
  | ignored => exact hc
  | first => exact fun _ => rfl
  | same => exact hc
  | change _ hi => exact fun _ => hi

theorem updates_cons {c : Counter} (hc : Device c) (d : Dispatch) (ds : List Dispatch) :
    ∃ c' total, DeviceStep c d c' total ∧
      updates c (d :: ds) = ((updates c' ds).1, total.toList ++ (updates c' ds).2) :=
  ⟨_, _, sourceUpdate_step hc d, rfl⟩

theorem updates_induct {I : Counter → Prop} (hI : ∀ c, I c → Device c)
    (hstep : ∀ c d c' total, I c → DeviceStep c d c' total → I c') (c : Counter) (ds : List Dispatch) (hc : I c) :
    I (updates c ds).1 := by
  induction ds generalizing c with
  | nil => exact hc
  | cons d ds ih => exact ih _ (hstep c d _ _ hc (sourceUpdate_step (hI c hc) d))

theorem updates_device (c : Counter) (ds : List Dispatch) (hc : Device c) : Device (updates c ds).1 :=
  updates_induct (fun _ h => h) (fun _ _ _ _ h hs => hs.device h) c ds hc

/-- Every state of a configured and loaded device counter is consistent. -/
theorem updates_consistent {cfg : CounterConf} {c : Counter} (h : counterConfigureOne cfg = some c)
    (file : StateFile) (ds : List Dispatch) (hc : Device (loadState c file)) :
    Consistent (updates (loadState c file) ds).1 := by
  have hstart : Consistent (loadState c file) := by
    have hchange := (counterConfigureOne_spec h).change
    have hload : (loadState c file).hasChange = false := by
      unfold loadState
      split
      · exact hchange
      · exact hchange
      · split
        · split <;> exact hchange
        · exact hchange
    intro hset
    rw [hload] at hset
    cases hset
  have := updates_induct (I := fun c => Device c ∧ Consistent c) (fun _ h => h.1)
    (fun _ _ _ _ h hs => ⟨hs.device h.1, hs.consistent h.2⟩) (loadState c file) ds ⟨hc, hstart⟩
  exact this.2

/-! ## The law -/

theorem taken_nonneg {c : Counter} {raw : ℚ} (now : Int) (h : 0 ≤ raw) : 0 ≤ c.taken raw now := by
  unfold Counter.taken
  split
  · exact le_refl _
  · exact increase_nonneg h

def readings (c : Counter) (ds : List Dispatch) : List ℚ :=
  ds.filterMap fun d => if d.valid ∧ 0 ≤ d.f then some (c.reading d) else none

/-- The sum, over the readings lower than their predecessor, of that predecessor; `last` precedes the first. -/
def resets : ℚ → List ℚ → ℚ
  | _, [] => 0
  | last, r :: rs => (if r < last then last else 0) + resets r rs

/-- The total after readings `rs` of a counter with total and last reading `accum` and `last`. -/
def lawTotal (accum last : ℚ) (rs : List ℚ) : ℚ := accum + (rs.getLastD last - last) + resets last rs

theorem increase_eq (c : Counter) (raw : ℚ) :
    c.increase raw = raw - c.lastRead + if raw < c.lastRead then c.lastRead else 0 := by
  unfold Counter.increase
  split <;> ring

theorem lawTotal_cons (accum last r : ℚ) (rs : List ℚ) :
    lawTotal accum last (r :: rs) = lawTotal (accum + (r - last + if r < last then last else 0)) r rs := by
  have hresets : resets last (r :: rs) = (if r < last then last else 0) + resets r rs := rfl
  unfold lawTotal
  rw [List.getLastD_cons, hresets]
  ring

theorem readings_ignored (c : Counter) {d : Dispatch} (ds : List Dispatch) (h : Ignored d) :
    readings c (d :: ds) = readings c ds :=
  List.filterMap_cons_none (if_neg fun hd => not_ignored.mpr hd h)

theorem readings_accepted (c : Counter) {d : Dispatch} (ds : List Dispatch) (h : ¬ Ignored d) :
    readings c (d :: ds) = c.reading d :: readings c ds :=
  List.filterMap_cons_some (if_pos (not_ignored.mp h))

theorem DeviceStep.readings_eq {c c' : Counter} {d : Dispatch} {total : Option ℚ} (h : DeviceStep c d c' total)
    (ds : List Dispatch) : readings c' ds = readings c ds := by
  cases h <;> rfl

theorem DeviceStep.maxPower_eq {c c' : Counter} {d : Dispatch} {total : Option ℚ} (h : DeviceStep c d c' total) :
    c'.maxPower = c.maxPower := by
  cases h <;> rfl

theorem taken_unlimited {c : Counter} (raw : ℚ) (now : Int) (h : c.maxPower = 0) :
    c.taken raw now = c.increase raw := by
  have hglitch : ¬ c.glitch raw now := by
    unfold Counter.glitch
    simp [h]
  unfold Counter.taken
  rw [if_neg hglitch]

theorem updates_accum (c : Counter) (ds : List Dispatch) (hc : Device c) (hi : c.initialized = true)
    (hmax : c.maxPower = 0) : (updates c ds).1.accum = lawTotal c.accum c.lastRead (readings c ds) := by
  induction ds generalizing c with
  | nil => simp [updates, lawTotal, readings, resets]
  | cons d ds ih =>
    obtain ⟨c', total, hstep, hupdates⟩ := updates_cons hc d ds
    rw [hupdates]
    have hdev := hstep.device hc
    have hmax' := hstep.maxPower_eq.trans hmax
    have hrd := hstep.readings_eq ds
    cases hstep with
    | ignored h => rw [ih c hc hi hmax, readings_ignored c ds h]
    | first _ hi' => simp [hi] at hi'
    | same h _ heq =>
      rw [ih c hc hi hmax, readings_accepted c ds h, lawTotal_cons, heq]
      simp
    | change h _ _ =>
      rw [ih _ hdev hi hmax', hrd, readings_accepted c ds h, lawTotal_cons, taken_unlimited _ _ hmax, increase_eq]

theorem updates_accum_new (c : Counter) (ds : List Dispatch) (hc : Device c) (hi : c.initialized = false)
    (hmax : c.maxPower = 0) {r : ℚ} {rs : List ℚ} (hrs : readings c ds = r :: rs) :
    (updates c ds).1.accum = lawTotal r r rs := by
  induction ds generalizing c with
  | nil => cases hrs
  | cons d ds ih =>
    obtain ⟨c', total, hstep, hupdates⟩ := updates_cons hc d ds
    rw [hupdates]
    have hdev := hstep.device hc
    have hmax' := hstep.maxPower_eq.trans hmax
    have hrd := hstep.readings_eq ds
    cases hstep with
    | ignored h => exact ih c hc hi hmax (readings_ignored c ds h ▸ hrs)
    | first h _ =>
      rw [readings_accepted c ds h] at hrs
      obtain ⟨rfl, rfl⟩ := List.cons.inj hrs
      rw [updates_accum _ ds hdev rfl hmax', hrd]
    | same _ hi' => simp [hi] at hi'
    | change _ hi' => simp [hi] at hi'

/-- What was published before the dispatches, if anything. -/
def Counter.shown (c : Counter) : List ℚ := if c.initialized then [c.accum] else []

theorem updates_totals (c : Counter) (ds : List Dispatch) (hc : Device c) :
    (c.shown ++ (updates c ds).2).Pairwise (· ≤ ·) := by
  induction ds generalizing c with
  | nil =>
    unfold updates Counter.shown
    split <;> simp
  | cons d ds ih =>
    obtain ⟨c', total, hstep, hupdates⟩ := updates_cons hc d ds
    rw [hupdates]
    have hrest := ih c' (hstep.device hc)
    unfold Counter.shown at hrest ⊢
    cases hstep with
    | ignored => exact hrest
    | first _ hi => simpa [hi] using hrest
    | same _ hi => simpa [hi] using hrest
    | change h hi =>
      have hle : c.accum ≤ c.accum + c.taken (c.reading d) d.now :=
        le_add_of_nonneg_right (taken_nonneg d.now (reading_nonneg hc h))
      simp only [hi, if_true, Option.toList_some, List.cons_append, List.nil_append] at hrest ⊢
      refine List.pairwise_cons.mpr ⟨fun t ht => ?_, hrest⟩
      rcases List.mem_cons.mp ht with rfl | ht
      · exact hle
      · exact hle.trans ((List.pairwise_cons.mp hrest).1 t ht)

/-- **Law of device counters.** The totals never decrease, what is no reading changes nothing, and
without limit the total follows the readings, each reset adding what the device has lost. -/
theorem device_law (c : Counter) (ds : List Dispatch) (hc : Device c) :
    (c.shown ++ (updates c ds).2).Pairwise (· ≤ ·) ∧
      (∀ pre d, pre ++ [d] <+: ds → Ignored d →
        sourceUpdate (updates c pre).1 d.f d.valid d.now = ((updates c pre).1, none, [])) ∧
      (c.maxPower = 0 → c.initialized = true →
        (updates c ds).1.accum = lawTotal c.accum c.lastRead (readings c ds)) ∧
      (c.maxPower = 0 → c.initialized = false → ∀ r rs, readings c ds = r :: rs →
        (updates c ds).1.accum = lawTotal r r rs) := by
  refine ⟨updates_totals c ds hc, fun pre d _ hd => ?_, fun hmax hi => ?_, fun hmax hi r rs hrs => ?_⟩
  · exact sourceUpdate_ignored (updates_device c pre hc) hd
  · exact updates_accum c ds hc hi hmax
  · exact updates_accum_new c ds hc hi hmax hrs

/-- A new counter: a first reading of 10 kWh, a rise to 12 kWh and a reset. -/
def resetCounter : Counter := { name := "e", source := "meter", scale := 1000 }

def resetDispatches : List Dispatch := [⟨10, true, 0⟩, ⟨12, true, 1⟩, ⟨-1, true, 2⟩, ⟨0, false, 3⟩, ⟨1, true, 4⟩]

theorem device_law_reset : (updates resetCounter resetDispatches).1.accum = 13000 := by
  have h := (device_law resetCounter resetDispatches ⟨rfl, rfl, by decide +kernel⟩).2.2.2 rfl rfl 10000 [12000, 1000]
    (by decide +kernel)
  rw [h]
  decide +kernel

/-! ## The plausibility limit -/

/-- What the limit allows in the time from `t` to `u`. -/
def allowance (maxPower : ℚ) (t u : Int) : ℚ := maxPower * (u - t : ℤ) / 3600000

theorem allowance_nonneg {maxPower : ℚ} {t u : Int} (h : 0 < maxPower) (hle : t ≤ u) :
    0 ≤ allowance maxPower t u := by
  unfold allowance
  have : (0 : ℚ) ≤ (u - t : ℤ) := by exact_mod_cast Int.sub_nonneg_of_le hle
  positivity

theorem allowance_add (maxPower : ℚ) (t u v : Int) :
    allowance maxPower t u + allowance maxPower u v = allowance maxPower t v := by
  unfold allowance
  push_cast
  ring

/-- A change is either plausible for the time since the last one, or nothing is added. -/
theorem taken_le {c : Counter} (raw : ℚ) {now : Int} (hmax : 0 < c.maxPower) (hc : c.hasChange = true)
    (hle : c.changeTs ≤ now) : c.taken raw now ≤ allowance c.maxPower c.changeTs now := by
  unfold Counter.taken
  split
  · exact allowance_nonneg hmax hle
  · rename_i hglitch
    exact not_lt.mp fun hlt => hglitch ⟨hmax, hc, hlt⟩

theorem DeviceStep.growth {c c' : Counter} {d : Dispatch} {total : Option ℚ} (h : DeviceStep c d c' total)
    (hmax : 0 < c.maxPower) (hcons : Consistent c) (hc : c.hasChange = true) (hle : c.changeTs ≤ d.now) :
    c'.hasChange = true ∧ c'.changeTs ≤ d.now ∧
      c'.accum - c.accum ≤ allowance c.maxPower c.changeTs c'.changeTs := by
  have hnone : c.accum - c.accum ≤ allowance c.maxPower c.changeTs c.changeTs := by
    rw [sub_self]
    exact allowance_nonneg hmax (le_refl _)
  cases h with
  | ignored => exact ⟨hc, hle, hnone⟩
  | first _ hi => simp [hcons hc] at hi
  | same => exact ⟨hc, hle, hnone⟩
  | change =>
    refine ⟨rfl, le_refl _, ?_⟩
    rw [add_sub_cancel_left]
    exact taken_le _ hmax hc hle

theorem updates_growth (c : Counter) (ds : List Dispatch) (hdev : Device c) (hcons : Consistent c)
    (hmax : 0 < c.maxPower) (hc : c.hasChange = true) (htimes : (c.changeTs :: ds.map (·.now)).Pairwise (· ≤ ·)) :
    (updates c ds).1.accum - c.accum ≤ allowance c.maxPower c.changeTs (updates c ds).1.changeTs := by
  induction ds generalizing c with
  | nil =>
    unfold updates
    rw [sub_self]
    exact allowance_nonneg hmax (le_refl _)
  | cons d ds ih =>
    obtain ⟨c', total, hstep, hupdates⟩ := updates_cons hdev d ds
    rw [hupdates]
    obtain ⟨hhead, htail⟩ := List.pairwise_cons.mp htimes
    obtain ⟨hc', hle, hgrow⟩ := hstep.growth hmax hcons hc (hhead d.now (by simp))
    have hmax' := hstep.maxPower_eq
    have htimes' : (c'.changeTs :: ds.map (·.now)).Pairwise (· ≤ ·) := by
      obtain ⟨hfirst, hrest⟩ := List.pairwise_cons.mp htail
      exact List.pairwise_cons.mpr ⟨fun t ht => hle.trans (hfirst t ht), hrest⟩
    have hih := ih c' (hstep.device hdev) (hstep.consistent hcons) (hmax' ▸ hmax) hc' htimes'
    rw [hmax'] at hih
    have := allowance_add c.maxPower c.changeTs c'.changeTs (updates c' ds).1.changeTs
    linarith

theorem updates_disabled {c : Counter} (ds : List Dispatch) (h : c.disabled = true) : updates c ds = (c, []) := by
  induction ds with
  | nil => rfl
  | cons d ds ih =>
    have hstep : sourceUpdate c d.f d.valid d.now = (c, none, []) := by
      unfold sourceUpdate
      simp [h]
    unfold updates
    rw [hstep]
    simp [ih]

/-- **The limit bounds the total.** Whatever readings arrive, the total grows by at most `max_power` over
the time between the last changes. -/
theorem growth_limited (c : Counter) (ds : List Dispatch) (hdev : c.integratePower = false) (hscale : 0 < c.scale)
    (hcons : Consistent c) (hmax : 0 < c.maxPower) (hc : c.hasChange = true)
    (htimes : (c.changeTs :: ds.map (·.now)).Pairwise (· ≤ ·)) :
    (updates c ds).1.accum - c.accum ≤ allowance c.maxPower c.changeTs (updates c ds).1.changeTs := by
  cases hdis : c.disabled with
  | false => exact updates_growth c ds ⟨hdev, hdis, hscale⟩ hcons hmax hc htimes
  | true =>
    rw [updates_disabled ds hdis, sub_self]
    exact allowance_nonneg hmax (le_refl _)

/-- A meter with a limit of 3600 W: 1 Wh in a second, a drop to 0 and the way back, and 1 Wh in a second. -/
def limitedCounter : Counter :=
  { resetCounter with
    scale := 1
    maxPower := 3600
    initialized := true
    accum := 100
    lastRead := 100
    hasChange := true }

def limitedDispatches : List Dispatch := [⟨101, true, 1000⟩, ⟨0, true, 2000⟩, ⟨101, true, 2100⟩, ⟨102, true, 3100⟩]

theorem growth_limited_glitch :
    (updates limitedCounter limitedDispatches).1.accum - 100 ≤ allowance 3600 0 3100 := by
  have h := growth_limited limitedCounter limitedDispatches rfl (by decide +kernel) (fun _ => rfl)
    (by decide +kernel) rfl (by decide +kernel)
  rw [show (updates limitedCounter limitedDispatches).1.changeTs = 3100 by decide +kernel] at h
  exact h

end Uvrgw.Counters
