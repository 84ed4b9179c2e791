import Uvrgw.Dispatch.Code
import Uvrgw.Lib.Run

/-!
# The critical sections of one name, step by step

Stores, callbacks and readers as the threads see them: `last_lock` is taken inside of `disp_lock`,
each half of the pair is stored and read in its own step, and each callback is a step.
-/

namespace Uvrgw.Dispatch.Section

open Uvrgw.Lib

abbrev Pair := Double × Bool

/-- Where the holder of `disp_lock` is. -/
inductive Pc where
  /-- `watchdog_check` compares the deadline with its reading. -/
  | test (now : Int)
  | storeValue
  | storeFlag
  /-- Both halves are stored, `last_lock` is still held. -/
  | stored
  /-- The watchdog fields of valid data. -/
  | arm
  /-- `fire_cbs` is at this slot. -/
  | fire (i : Nat)
  deriving DecidableEq, Repr

/-- The holder of `disp_lock`. -/
structure Holder where
  f : Double
  valid : Bool
  /-- `watchdog_check`, not `uvrgw_conf_disp_val`. -/
  watchdog : Bool
  pc : Pc
  deriving DecidableEq, Repr

inductive LastLock where
  | free
  /-- The holder of `disp_lock` has it. -/
  | section
  /-- A thread in `uvrgw_conf_get_val` has it, and may have read the flag already. -/
  | reader (valid : Option Bool)
  deriving DecidableEq, Repr

structure State (V : Type) where
  dp : Dispatcher V
  holder : Option Holder := none
  last : LastLock := .free
  /-- The pairs passed to the section, in the order of the lock. -/
  dispatched : List Pair := []
  /-- The pairs that `last_lock` released. -/
  stored : List Pair := []
  /-- What the callback of each slot received. -/
  got : Nat → List Pair := fun _ => []
  /-- What `uvrgw_conf_get_val` returned. -/
  reads : List Pair := []

inductive Act where
  /-- `uvrgw_conf_disp_val` in any thread: every call site passes the producer's pointer. -/
  | disp (f : Double) (valid : Bool)
  | check (now : Int)
  | startup (now : Int)
  /-- The next step of the holder; the reading is the one that `arm` takes. -/
  | run (now : Int)
  | getLock
  | getFlag
  | getValue
  deriving DecidableEq, Repr

variable {V : Type}

section Machine

variable [DecidableEq V]

def delivered (dp : Dispatcher V) (h : Holder) (i : Nat) : List Pair :=
  match dp.valueCbs[i]?.bind (Dispatcher.slotCall dp.producerVal h.f h.valid) with
  | some call => [(call.f, call.valid)]
  | none => []

def runStep (s : State V) (h : Holder) (now : Int) : Option (State V) :=
  match h.pc with
  | .test reading =>
    if s.dp.expired reading then
      some { s with
        dp := s.dp.disarm
        holder := some { h with pc := .storeValue }
        dispatched := s.dispatched ++ [(h.f, h.valid)] }
    else some { s with holder := none }
  | .storeValue =>
    if s.last = .free then
      some { s with
        dp := { s.dp with lastValue := h.f }
        holder := some { h with pc := .storeFlag }
        last := .section }
    else none
  | .storeFlag =>
    some { s with
      dp := { s.dp with valid := h.valid }
      holder := some { h with pc := .stored } }
  | .stored =>
    some { s with
      holder := some { h with pc := if h.watchdog then .fire 0 else .arm }
      last := .free
      stored := s.stored ++ [s.dp.getVal] }
  | .arm =>
    some { s with
      dp := if h.valid then s.dp.rearm now else s.dp
      holder := some { h with pc := .fire 0 } }
  | .fire i =>
    if i < s.dp.valueCbs.length then
      some { s with
        holder := some { h with pc := .fire (i + 1) }
        got := Function.update s.got i (s.got i ++ delivered s.dp h i) }
    else some { s with holder := none }

def step (s : State V) : Act → Option (State V)
  | .disp f valid =>
    if f.isfinite then
      if s.holder = none then
        some { s with
          holder := some ⟨f, valid, false, .storeValue⟩
          dispatched := s.dispatched ++ [(f, valid)] }
      else none
    else some s
  | .check now =>
    if s.holder = none then
      some { s with holder := some ⟨s.dp.initValue, false, true, .test now⟩ }
    else none
  | .startup now =>
    if s.holder = none then some { s with dp := s.dp.startupArm now } else none
  | .run now =>
    match s.holder with
    | some h => runStep s h now
    | none => none
  | .getLock => if s.last = .free then some { s with last := .reader none } else none
  | .getFlag =>
    if s.last = .reader none then some { s with last := .reader (some s.dp.valid) } else none
  | .getValue =>
    match s.last with
    | .reader (some valid) =>
      some { s with last := .free, reads := (s.dp.lastValue, valid) :: s.reads }
    | _ => none

end Machine

/-- What configuration has to leave behind: a start value that can be stored, and no callback that
delivery leaves out because it belongs to the producer itself. -/
structure Wired (dp : Dispatcher V) : Prop where
  init : dp.initValue.isfinite = true
  others : ∀ v, some v ∈ dp.valueCbs → some v ≠ dp.producerVal

structure Init (s : State V) : Prop where
  wired : Wired s.dp
  holder : s.holder = none
  last : s.last = .free
  dispatched : s.dispatched = []
  stored : s.stored = []
  got : ∀ i, s.got i = []
  reads : s.reads = []
  value : s.dp.getVal = (s.dp.initValue, false)

def Registered (dp : Dispatcher V) (i : Nat) : Prop := ∃ v, dp.valueCbs[i]? = some (some v)

/-! ## Invariant -/

def unstored : Option Holder → List Pair
  | some ⟨f, valid, _, .storeValue⟩ | some ⟨f, valid, _, .storeFlag⟩ | some ⟨f, valid, _, .stored⟩ =>
    [(f, valid)]
  | _ => []

/-- The holder still has to deliver the newest pair to slot `i`. -/
def Waiting (h : Option Holder) (i : Nat) : Prop :=
  match h with
  | some ⟨_, _, _, .arm⟩ => True
  | some ⟨_, _, _, .fire k⟩ => k ≤ i
  | _ => False

/-- What the fields hold where the holder is. -/
def Progress (s : State V) (h : Holder) : Prop :=
  match h.pc with
  | .test _ | .storeValue => s.last ≠ .section
  | .storeFlag => s.last = .section ∧ s.dp.lastValue = h.f
  | .stored => s.last = .section ∧ s.dp.getVal = (h.f, h.valid)
  | .arm | .fire _ => s.last ≠ .section ∧ s.stored.getLast? = some (h.f, h.valid)

/-- The history of a slot: complete, or without the newest pair. -/
def History (s : State V) : Prop :=
  ∀ i, Registered s.dp i →
    (Waiting s.holder i → s.got i = s.stored.dropLast) ∧ (¬ Waiting s.holder i → s.got i = s.stored)

structure Inv (s : State V) : Prop where
  wired : Wired s.dp
  progress : ∀ h, s.holder = some h → h.f.isfinite = true ∧ Progress s h
  unlocked : s.holder = none → s.last ≠ .section
  pair : s.last ≠ .section → s.stored.getLast?.getD (s.dp.initValue, false) = s.dp.getVal
  flag : ∀ b, s.last = .reader (some b) → b = s.dp.valid
  dispatched : s.dispatched = s.stored ++ unstored s.holder
  got : History s
  reads : ∀ p ∈ s.reads, p = (s.dp.initValue, false) ∨ p ∈ s.stored
  finite : ∀ p ∈ s.stored, p.1.isfinite = true

theorem Inv.init {s : State V} (hs : Init s) : Inv s where
  wired := hs.wired
  progress := by simp [hs.holder]
  unlocked := by simp [hs.last]
  pair := by simp [hs.stored, hs.value]
  flag := by simp [hs.last]
  dispatched := by simp [hs.dispatched, hs.stored, hs.holder, unstored]
  got := by simp [History, hs.got, hs.stored]
  reads := by simp [hs.reads]
  finite := by simp [hs.stored]

section Steps

variable {s : State V} {f : Double} {valid : Bool} {now : Int} {h : Holder}

theorem Inv.disp (hi : Inv s) (hf : f.isfinite = true) (hfree : s.holder = none) :
    Inv { s with
      holder := some ⟨f, valid, false, .storeValue⟩
      dispatched := s.dispatched ++ [(f, valid)] } :=
  { hi with
    progress := by
      rintro h ⟨⟩
      exact ⟨hf, hi.unlocked hfree⟩
    unlocked := by simp
    dispatched := by simp [hi.dispatched, hfree, unstored]
    got := by simpa [History, hfree, Waiting] using hi.got }

theorem Inv.check (hi : Inv s) (hfree : s.holder = none) :
    Inv { s with holder := some ⟨s.dp.initValue, false, true, .test now⟩ } :=
  { hi with
    progress := by
      rintro h ⟨⟩
      exact ⟨hi.wired.init, hi.unlocked hfree⟩
    unlocked := by simp
    dispatched := by simp [hi.dispatched, hfree, unstored]
    got := by simpa [History, hfree, Waiting] using hi.got }

theorem Inv.of_watchdog_fields (hi : Inv s) (dp : Dispatcher V) (hc : dp.config = s.dp.config)
    (hv : dp.getVal = s.dp.getVal) : Inv { s with dp := dp } := by
  obtain ⟨-, hinit, -, hprod, hcbs⟩ := Dispatcher.config_fields hc
  simp only [Dispatcher.getVal, Prod.mk.injEq] at hv
  refine
    { hi with
      wired := ⟨hinit ▸ hi.wired.init, by rw [hcbs, hprod]; exact hi.wired.others⟩
      progress := fun h hh => ⟨(hi.progress h hh).1, ?_⟩
      pair := by simpa [Dispatcher.getVal, hinit, hv] using hi.pair
      flag := by simpa [hv] using hi.flag
      got := by simpa [History, Registered, hcbs] using hi.got
      reads := by simpa [hinit] using hi.reads }
  have := (hi.progress h hh).2
  unfold Progress at this ⊢
  split <;> simp_all [Dispatcher.getVal]

/-- The holder leaves, or moves on inside of `disp_lock`, with everything stored and delivered. -/
theorem Inv.of_done (hi : Inv s) (holder : Option Holder) (hlast : s.last ≠ .section)
    (hun : unstored holder = unstored s.holder) (hwait : ∀ i, Waiting holder i ↔ Waiting s.holder i)
    (hpr : ∀ h, holder = some h → h.f.isfinite = true ∧ Progress s h) :
    Inv { s with holder := holder } :=
  { hi with
    progress := hpr
    unlocked := fun _ => hlast
    dispatched := by simp [hi.dispatched, hun]
    got := by simpa [History, hwait] using hi.got }

theorem Inv.test_expired (hi : Inv s) {reading : Int} (hh : s.holder = some h)
    (hpc : h.pc = .test reading) :
    Inv { s with
      dp := s.dp.disarm
      holder := some { h with pc := .storeValue }
      dispatched := s.dispatched ++ [(h.f, h.valid)] } := by
  obtain ⟨hf, hp⟩ := hi.progress h hh
  have hw := hi.of_watchdog_fields s.dp.disarm rfl rfl
  rcases h with ⟨f, valid, wd, pc⟩
  cases hpc
  exact
    { hw with
      progress := by
        rintro h ⟨⟩
        exact ⟨hf, hp⟩
      unlocked := by simp
      dispatched := by simp [hi.dispatched, hh, unstored]
      got := by simpa [History, hh, Waiting] using hw.got }

theorem Inv.storeValue (hi : Inv s) (hh : s.holder = some h) (hpc : h.pc = .storeValue) :
    Inv { s with
      dp := { s.dp with lastValue := h.f }
      holder := some { h with pc := .storeFlag }
      last := .section } := by
  obtain ⟨hf, -⟩ := hi.progress h hh
  rcases h with ⟨f, valid, wd, pc⟩
  cases hpc
  exact
    { wired := ⟨hi.wired.init, hi.wired.others⟩
      progress := by
        rintro h ⟨⟩
        exact ⟨hf, rfl, rfl⟩
      unlocked := by simp
      pair := by simp
      flag := by simp
      dispatched := by simp [hi.dispatched, hh, unstored]
      got := by simpa [History, Registered, hh, Waiting] using hi.got
      reads := hi.reads
      finite := hi.finite }

theorem Inv.storeFlag (hi : Inv s) (hh : s.holder = some h) (hpc : h.pc = .storeFlag) :
    Inv { s with
      dp := { s.dp with valid := h.valid }
      holder := some { h with pc := .stored } } := by
  obtain ⟨hf, hp⟩ := hi.progress h hh
  rcases h with ⟨f, valid, wd, pc⟩
  cases hpc
  obtain ⟨hlast, hv⟩ := hp
  exact
    { wired := ⟨hi.wired.init, hi.wired.others⟩
      progress := by
        rintro h ⟨⟩
        exact ⟨hf, hlast, by simpa [Dispatcher.getVal] using hv⟩
      unlocked := by simp
      pair := fun hne => absurd hlast hne
      flag := by simp [hlast]
      dispatched := by simp [hi.dispatched, hh, unstored]
      got := by simpa [History, Registered, hh, Waiting] using hi.got
      reads := hi.reads
      finite := hi.finite }

theorem Inv.stored (hi : Inv s) (hh : s.holder = some h) (hpc : h.pc = .stored) :
    Inv { s with
      holder := some { h with pc := if h.watchdog then .fire 0 else .arm }
      last := .free
      stored := s.stored ++ [s.dp.getVal] } := by
  obtain ⟨hf, hp⟩ := hi.progress h hh
  rcases h with ⟨f, valid, wd, pc⟩
  cases hpc
  obtain ⟨-, hv⟩ := hp
  simp only at hv hf
  have hwait : ∀ i, Waiting (some ⟨f, valid, wd, if wd then .fire 0 else .arm⟩) i := by
    intro i
    cases wd <;> simp [Waiting]
  have hun : unstored (some ⟨f, valid, wd, if wd then .fire 0 else .arm⟩) = [] := by
    cases wd <;> rfl
  exact
    { wired := hi.wired
      progress := by
        rintro h ⟨⟩
        refine ⟨hf, ?_⟩
        cases wd <;> simp [Progress, hv]
      unlocked := by simp
      pair := by simp [hv]
      flag := by simp
      dispatched := by
        rw [hun]
        simp [hi.dispatched, hh, unstored, hv]
      got := by
        intro i hr
        have := hi.got i hr
        rw [hh] at this
        refine ⟨fun _ => ?_, fun hn => absurd (hwait i) hn⟩
        simpa [Waiting] using this
      reads := fun p hp => (hi.reads p hp).imp_right (List.mem_append_left _)
      finite := by
        intro p hp
        rcases List.mem_append.mp hp with hp | hp
        · exact hi.finite p hp
        · obtain rfl := List.mem_singleton.mp hp
          rw [hv]
          exact hf }

/-- The section is past `last_lock` and its pair is the newest one. -/
theorem Inv.arm (hi : Inv s) (hh : s.holder = some h) (hpc : h.pc = .arm) :
    Inv { s with
      dp := if h.valid then s.dp.rearm now else s.dp
      holder := some { h with pc := .fire 0 } } := by
  have hp := hi.progress h hh
  rcases h with ⟨f, valid, wd, pc⟩
  cases hpc
  have hd := hi.of_done (some ⟨f, valid, wd, .fire 0⟩) hp.2.1 (by simp [hh, unstored])
    (by simp [hh, Waiting]) (by rintro h ⟨⟩; exact hp)
  refine hd.of_watchdog_fields _ ?_ ?_
  · cases valid <;> rfl
  · cases valid <;> rfl

theorem delivered_of_wired [DecidableEq V] {dp : Dispatcher V} {i : Nat} (hw : Wired dp)
    (hr : Registered dp i) : delivered dp h i = [(h.f, h.valid)] := by
  obtain ⟨v, hv⟩ := hr
  have hne := hw.others v (List.mem_of_getElem? hv)
  simp [delivered, hv, Dispatcher.slotCall_call hne]

theorem Inv.fire [DecidableEq V] (hi : Inv s) {k : Nat} (hh : s.holder = some h) (hpc : h.pc = .fire k) :
    Inv { s with
      holder := some { h with pc := .fire (k + 1) }
      got := Function.update s.got k (s.got k ++ delivered s.dp h k) } := by
  have hp := hi.progress h hh
  rcases h with ⟨f, valid, wd, pc⟩
  cases hpc
  obtain ⟨hf, hlast, hnew⟩ := hp
  exact
    { hi with
      progress := by
        rintro h ⟨⟩
        exact ⟨hf, hlast, hnew⟩
      unlocked := by simp
      dispatched := by simp [hi.dispatched, hh, unstored]
      got := by
        intro i hr
        have hg := hi.got i hr
        simp only [hh, Waiting] at hg
        by_cases hik : i = k
        · -- the slot of this step lacks exactly the newest pair
          subst hik
          refine ⟨fun hle => absurd hle (by simp [Waiting]), fun _ => ?_⟩
          simp only [Function.update_self, delivered_of_wired hi.wired hr, hg.1 (Nat.le_refl _)]
          exact List.dropLast_append_getLast? _ hnew
        · simp only [Function.update_of_ne hik, Waiting]
          exact ⟨fun hle => hg.1 (by omega), fun hle => hg.2 (by omega)⟩ }

theorem Inv.unlock (hi : Inv s) {k : Nat} (hh : s.holder = some h) (hpc : h.pc = .fire k)
    (hk : s.dp.valueCbs.length ≤ k) : Inv { s with holder := none } := by
  have hp := hi.progress h hh
  rcases h with ⟨f, valid, wd, pc⟩
  cases hpc
  exact
    { hi with
      progress := by simp
      unlocked := fun _ => hp.2.1
      dispatched := by simp [hi.dispatched, hh, unstored]
      got := by
        intro i hr
        have hg := hi.got i hr
        obtain ⟨v, hv⟩ := hr
        have hlt : i < s.dp.valueCbs.length := (List.getElem?_eq_some_iff.mp hv).1
        simp only [hh, Waiting] at hg
        exact ⟨fun hw => absurd hw (by simp [Waiting]), fun _ => hg.2 (by omega)⟩ }

theorem Inv.runStep [DecidableEq V] {t : State V} (hi : Inv s) (hh : s.holder = some h)
    (hst : runStep s h now = some t) : Inv t := by
  unfold Section.runStep at hst
  split at hst <;> rename_i hpc
  case h_1 reading =>
    split at hst <;> cases hst
    · exact hi.test_expired hh hpc
    · have hp := hi.progress h hh
      rcases h with ⟨f, valid, wd, pc⟩
      cases hpc
      exact hi.of_done none hp.2 (by simp [hh, unstored]) (by simp [hh, Waiting]) (by simp)
  case h_2 =>
    split at hst <;> cases hst
    exact hi.storeValue hh hpc
  case h_3 =>
    cases hst
    exact hi.storeFlag hh hpc
  case h_4 =>
    cases hst
    exact hi.stored hh hpc
  case h_5 =>
    cases hst
    exact hi.arm hh hpc
  case h_6 k =>
    split at hst <;> rename_i hk <;> cases hst
    · exact hi.fire hh hpc
    · exact hi.unlock hh hpc (Nat.le_of_not_lt hk)

theorem Inv.reader (hi : Inv s) {last : LastLock} {reads : List Pair} (hfree : s.last ≠ .section)
    (hlast : last ≠ .section) (hflag : ∀ b, last = .reader (some b) → b = s.dp.valid)
    (hreads : ∀ p ∈ reads, p = (s.dp.initValue, false) ∨ p ∈ s.stored) :
    Inv { s with last := last, reads := reads } :=
  { hi with
    progress := fun h hh => by
      have hp := hi.progress h hh
      unfold Progress at hp ⊢
      split <;> simp_all
    unlocked := fun _ => hlast
    pair := fun _ => hi.pair hfree
    flag := hflag
    reads := hreads }

theorem Inv.getLock (hi : Inv s) (hfree : s.last = .free) : Inv { s with last := .reader none } :=
  hi.reader (by simp [hfree]) (by simp) (by simp) hi.reads

theorem Inv.getFlag (hi : Inv s) (hl : s.last = .reader none) :
    Inv { s with last := .reader (some s.dp.valid) } :=
  hi.reader (by simp [hl]) (by simp) (by simp) hi.reads

theorem Inv.getValue (hi : Inv s) {b : Bool} (hl : s.last = .reader (some b)) :
    Inv { s with last := .free, reads := (s.dp.lastValue, b) :: s.reads } := by
  apply hi.reader (by simp [hl]) (by simp) (by simp)
  intro p hp
  rcases List.mem_cons.mp hp with rfl | hp
  · -- no store comes between the two reads, so they are the newest stored pair
    have hpair := hi.pair (by simp [hl])
    rw [hi.flag b hl]
    change s.dp.getVal = _ ∨ s.dp.getVal ∈ _
    rw [← hpair]
    cases hs : s.stored.getLast? with
    | none => exact .inl rfl
    | some q => exact .inr (List.mem_of_getLast? hs)
  · exact hi.reads p hp

theorem Inv.step [DecidableEq V] {t : State V} (a : Act) (hi : Inv s) (hst : step s a = some t) :
    Inv t := by
  cases a with
  | disp f valid =>
    simp only [Section.step] at hst
    split at hst
    · rename_i hf
      split at hst <;> rename_i hfree <;> cases hst
      exact hi.disp hf hfree
    · cases hst
      exact hi
  | check now =>
    obtain ⟨hfree, rfl⟩ := by simpa [Section.step] using hst
    exact hi.check hfree
  | startup now =>
    obtain ⟨-, rfl⟩ := by simpa [Section.step] using hst
    refine hi.of_watchdog_fields _ (Dispatcher.config_startupArm ..) ?_
    unfold Dispatcher.startupArm Dispatcher.getVal
    split <;> rfl
  | run now =>
    simp only [Section.step] at hst
    split at hst
    · rename_i h hh
      exact hi.runStep hh hst
    · cases hst
  | getLock =>
    obtain ⟨hfree, rfl⟩ := by simpa [Section.step] using hst
    exact hi.getLock hfree
  | getFlag =>
    obtain ⟨hl, rfl⟩ := by simpa [Section.step] using hst
    exact hi.getFlag hl
  | getValue =>
    simp only [Section.step] at hst
    split at hst
    · rename_i b hl
      cases hst
      exact hi.getValue hl
    · cases hst

end Steps

theorem step_config [DecidableEq V] {s t : State V} (a : Act) (hst : step s a = some t) :
    t.dp.config = s.dp.config := by
  cases a with
  | disp f valid =>
    simp only [step] at hst
    split at hst
    · split at hst <;> cases hst
      rfl
    · cases hst
      rfl
  | check now =>
    obtain ⟨-, rfl⟩ := by simpa [step] using hst
    rfl
  | startup now =>
    obtain ⟨-, rfl⟩ := by simpa [step] using hst
    exact Dispatcher.config_startupArm ..
  | run now =>
    simp only [step] at hst
    split at hst
    · unfold runStep at hst
      split at hst
      case h_1 | h_6 => split at hst <;> cases hst <;> rfl
      case h_2 => split at hst <;> cases hst; rfl
      case h_3 | h_4 => cases hst; rfl
      case h_5 =>
        cases hst
        dsimp only
        split <;> rfl
    · cases hst
  | getLock =>
    obtain ⟨-, rfl⟩ := by simpa [step] using hst
    rfl
  | getFlag =>
    obtain ⟨-, rfl⟩ := by simpa [step] using hst
    rfl
  | getValue =>
    simp only [step] at hst
    split at hst <;> cases hst
    rfl

/-! ## What the invariant says -/

section Results

variable {s : State V}

theorem Inv.prefix_got (hi : Inv s) {i : Nat} (hr : Registered s.dp i) :
    s.got i <+: s.stored ∧ s.stored <+: s.dispatched := by
  refine ⟨?_, hi.dispatched ▸ List.prefix_append ..⟩
  by_cases hw : Waiting s.holder i
  · exact (hi.got i hr).1 hw ▸ List.dropLast_prefix _
  · exact (hi.got i hr).2 hw ▸ List.prefix_refl _

theorem Inv.got_all (hi : Inv s) (hfree : s.holder = none) {i : Nat} (hr : Registered s.dp i) :
    s.got i = s.dispatched ∧ s.stored = s.dispatched := by
  have hg := (hi.got i hr).2 (by simp [hfree, Waiting])
  have hd := hi.dispatched
  simp only [hfree, unstored, List.append_nil] at hd
  exact ⟨hg.trans hd.symm, hd.symm⟩

theorem Inv.last_delivered (hi : Inv s) (hfree : s.holder = none) {i : Nat} (hr : Registered s.dp i)
    (hne : s.dispatched ≠ []) : (s.got i).getLast? = some s.dp.getVal := by
  obtain ⟨hg, hs⟩ := hi.got_all hfree hr
  have hp := hi.pair (hi.unlocked hfree)
  rw [hs] at hp
  obtain ⟨p, hlast⟩ := Option.ne_none_iff_exists'.mp (mt List.getLast?_eq_none_iff.mp hne)
  rw [hlast, Option.getD_some] at hp
  rw [hg, hlast, hp]

theorem Inv.unstored_finite (hi : Inv s) : ∀ p ∈ unstored s.holder, p.1.isfinite = true := by
  intro p hp
  cases hh : s.holder with
  | none => simp [hh, unstored] at hp
  | some h =>
    have hf := (hi.progress h hh).1
    rcases h with ⟨f, valid, wd, pc⟩
    rw [hh] at hp
    cases pc <;> simp [unstored] at hp <;> exact hp ▸ hf

theorem Inv.dispatched_finite (hi : Inv s) : ∀ p ∈ s.dispatched, p.1.isfinite = true := by
  intro p hp
  rw [hi.dispatched] at hp
  rcases List.mem_append.mp hp with hp | hp
  · exact hi.finite p hp
  · exact hi.unstored_finite p hp

theorem Inv.got_finite (hi : Inv s) {i : Nat} (hr : Registered s.dp i) :
    ∀ p ∈ s.got i, p.1.isfinite = true :=
  fun p hp => hi.finite p ((hi.prefix_got hr).1.subset hp)

/-- The stored number is finite in every state, also between the two halves of a store. -/
theorem Inv.value_finite (hi : Inv s) : s.dp.lastValue.isfinite = true := by
  by_cases hl : s.last = .section
  · cases hh : s.holder with
    | none => exact absurd hl (hi.unlocked hh)
    | some h =>
      obtain ⟨hf, hp⟩ := hi.progress h hh
      unfold Progress at hp
      split at hp <;> simp_all [Dispatcher.getVal]
  · have hp := congrArg Prod.fst (hi.pair hl)
    simp only [Dispatcher.getVal] at hp
    rw [← hp]
    cases hs : s.stored.getLast? with
    | none => exact hi.wired.init
    | some p => exact hi.finite p (List.mem_of_getLast? hs)

end Results

/-! ## A section without interruption

It is the function of `Code.lean`. -/

section Alone

variable [DecidableEq V] (s : State V) (now : Int)

theorem run_fire (h : Holder) (n k : Nat) (hh : s.holder = some h) (hpc : h.pc = .fire k)
    (hn : k + n = s.dp.valueCbs.length) :
    Run step s (List.replicate (n + 1) (.run now))
      { s with
        holder := none
        got := fun i => if k ≤ i then s.got i ++ delivered s.dp h i else s.got i } := by
  induction n generalizing s h k with
  | zero =>
    have hnone : ∀ i, k ≤ i → delivered s.dp h i = [] := by
      intro i hi
      simp [delivered, List.getElem?_eq_none (show s.dp.valueCbs.length ≤ i by omega)]
    refine (run_cons ..).mpr ⟨_, ?_, (run_nil ..).mpr rfl⟩
    simp only [step, hh, runStep, hpc]
    rw [if_neg (by omega)]
    congr 2
    funext i
    split
    · rw [hnone i (by assumption), List.append_nil]
    · rfl
  | succ n ih =>
    let u : State V :=
      { s with
        holder := some { h with pc := .fire (k + 1) }
        got := Function.update s.got k (s.got k ++ delivered s.dp h k) }
    have hstep : step s (.run now) = some u := by
      simp only [step, hh, runStep, hpc]
      rw [if_pos (by omega)]
    have hrun := ih u { h with pc := .fire (k + 1) } (k + 1) rfl rfl (by simp only [u]; omega)
    refine (run_cons ..).mpr ⟨u, hstep, ?_⟩
    convert hrun using 2
    funext i
    rcases lt_trichotomy i k with hlt | rfl | hgt
    · simp [u, Function.update_of_ne hlt.ne, hlt.not_ge, show ¬ k + 1 ≤ i by omega]
    · simp [u]
    · simp [u, Function.update_of_ne hgt.ne', hgt.le, Nat.succ_le_of_lt hgt, delivered]

/-- `uvrgw_conf_disp_val`, when no other thread is in the way. -/
theorem run_disp (f : Double) (valid : Bool) (hfree : s.holder = none) (hlast : s.last = .free)
    (hf : f.isfinite = true) :
    ∃ t, Run step s (.disp f valid :: List.replicate (s.dp.valueCbs.length + 5) (.run now)) t ∧
      t.holder = none ∧ t.last = .free ∧
      t.dp = (s.dp.dispVal now s.dp.producerVal f valid).1 ∧
      ∀ i, t.got i = s.got i ++
        ((s.dp.valueCbs[i]?.bind (Dispatcher.slotCall s.dp.producerVal f valid)).map
          fun c => (c.f, c.valid)).toList := by
  let dp := if valid then (s.dp.store f valid).rearm now else s.dp.store f valid
  let u : State V :=
    { s with
      dp := dp
      holder := some ⟨f, valid, false, .fire 0⟩
      dispatched := s.dispatched ++ [(f, valid)]
      stored := s.stored ++ [(f, valid)] }
  have hcbs : dp.valueCbs = s.dp.valueCbs ∧ dp.producerVal = s.dp.producerVal := by
    cases valid <;> exact ⟨rfl, rfl⟩
  have hrun : Run step s [.disp f valid, .run now, .run now, .run now, .run now] u := by
    cases valid <;> simp [step, runStep, hf, hfree, hlast, u, dp, Dispatcher.store, Dispatcher.getVal]
  have hfire := run_fire u now ⟨f, valid, false, .fire 0⟩ s.dp.valueCbs.length 0 rfl rfl
    (by simp [u, hcbs])
  refine ⟨_, (run_append s _ _ _).mpr ⟨u, hrun, hfire⟩, rfl, hlast, ?_, fun i => ?_⟩
  · simp [Dispatcher.dispVal, hf, u, dp]
  · simp only [Nat.zero_le, if_true, u, delivered, hcbs]
    cases s.dp.valueCbs[i]?.bind (Dispatcher.slotCall s.dp.producerVal f valid) <;> rfl

end Alone

end Uvrgw.Dispatch.Section
