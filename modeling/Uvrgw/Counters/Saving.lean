import Uvrgw.Counters.State
import Uvrgw.Lib.Files
import Uvrgw.Lib.Lists

/-!
# Saving counters (`counter.c`)

`save_states` among the updates of the counters. The file operations of `save_state` are steps of their own,
and each of them can fail.
-/

namespace Uvrgw.Counters.Saving

open Uvrgw.Lib

/-! ## Machine -/

def statePath (dir : String) (c : Counter) (suffix : String) : String := dir ++ "/" ++ c.name ++ suffix

/-- The next operation of `save_state`. -/
inductive Op where
  /-- The paths, and `fopen` of the temporary file. -/
  | fopen
  /-- `fprintf`, `fflush` and `fsync`. -/
  | write
  | fclose
  | rename
  /-- After an error. -/
  | unlink
  /-- `save_state` has returned -1. -/
  | failed
  deriving DecidableEq, Repr

/-- The locals of `save_state` for counter `idx`. -/
structure Save where
  idx : Nat
  path : String
  tmpPath : String
  accum : ℚ
  lastRead : ℚ
  op : Op := .fopen
  deriving DecidableEq, Repr

/-- Where `save_states` stands. -/
inductive Saver where
  | idle
  /-- At the head of the loop. -/
  | loop (i : Nat)
  | save (x : Save)
  deriving DecidableEq, Repr

structure State where
  counters : List Counter
  fs : Files String
  saver : Saver := .idle
  /-- The numbers of the last successful save of each counter. -/
  saved : Nat → Option (ℚ × ℚ) := fun _ => none

inductive Act where
  | source (i : Nat) (f : ℚ) (valid : Bool) (now : Int)
  | tick (i : Nat) (now : Int)
  /-- `save_states` is called. -/
  | start
  /-- The critical section of the loop. -/
  | take
  /-- The next operation of `save_state`; `left` is what a failed write leaves in the file. -/
  | op (ok : Bool) (left : List Char)
  /-- The critical section after a failed save. -/
  | retry
  deriving DecidableEq, Repr

def take (dir : String) (i : Nat) (s : State) : State :=
  match s.counters[i]? with
  | none => { s with saver := .idle }
  | some c =>
    { s with
      counters := s.counters.modify i fun c => { c with dirty := false }
      saver :=
        if c.dirty then
          .save {
            idx := i
            path := statePath dir c ""
            tmpPath := statePath dir c ".tmp"
            accum := c.accum
            lastRead := c.lastRead }
        else .loop (i + 1) }

/-- `save_state`, one operation. -/
def saveState (x : Save) (ok : Bool) (left : List Char) (s : State) : Option State :=
  match x.op with
  | .fopen =>
    if ok then some { s with fs := s.fs.write x.tmpPath [], saver := .save { x with op := .write } }
    else some { s with saver := .save { x with op := .failed } }
  | .write =>
    if ok then
      some { s with
        fs := s.fs.write x.tmpPath (stateText x.accum x.lastRead)
        saver := .save { x with op := .fclose } }
    else some { s with fs := s.fs.write x.tmpPath left, saver := .save { x with op := .unlink } }
  | .fclose => some { s with saver := .save { x with op := if ok then .rename else .unlink } }
  | .rename =>
    if ok then
      (s.fs.rename x.tmpPath x.path).map fun fs =>
        { s with
          fs := fs
          saver := .loop (x.idx + 1)
          saved := Function.update s.saved x.idx (some (x.accum, x.lastRead)) }
    else some { s with saver := .save { x with op := .unlink } }
  | .unlink =>
    some { s with
      fs := if ok then s.fs.unlink x.tmpPath else s.fs
      saver := .save { x with op := .failed } }
  | .failed => none

def retry (x : Save) (s : State) : Option State :=
  match x.op with
  | .failed =>
    some { s with
      counters := s.counters.modify x.idx fun c => { c with dirty := true }
      saver := .loop (x.idx + 1) }
  | _ => none

def step (dir : String) (s : State) : Act → Option State
  | .source i f valid now =>
    some { s with counters := s.counters.modify i fun c => (sourceUpdate c f valid now).1 }
  | .tick i now => some { s with counters := s.counters.modify i fun c => (Counters.tick c now).1 }
  | .start => if s.saver = .idle then some { s with saver := .loop 0 } else none
  | .take => match s.saver with
    | .loop i => some (take dir i s)
    | _ => none
  | .op ok left => match s.saver with
    | .save x => saveState x ok left s
    | _ => none
  | .retry => match s.saver with
    | .save x => retry x s
    | _ => none

/-- What `fopen` in `load_state` can find. -/
def Opened (fs : Files String) (p : String) (file : StateFile) : Prop :=
  file = .unreadable ∨ file = match fs p with
    | none => .missing
    | some text => .text text

/-- After `counter_startup`, with any files. -/
structure Init (dir : String) (configured : List Counter) (s : State) : Prop where
  counters : List.Forall₂ (fun c₀ c => ∃ file, Opened s.fs (statePath dir c₀ "") file ∧ c = loadState c₀ file)
    configured s.counters
  saver : s.saver = .idle
  saved : ∀ i, s.saved i = none

def Saver.InSave (i : Nat) : Saver → Prop
  | save x => x.idx = i
  | _ => False

instance (i : Nat) : DecidablePred (Saver.InSave i)
  | .save x => inferInstanceAs (Decidable (x.idx = i))
  | .idle | .loop _ => isFalse id

/-- An error of `save_state` lies behind. -/
def Save.Failing (x : Save) : Prop := x.op = .unlink ∨ x.op = .failed

/-- The state file of the one counter is no path of the other. -/
structure Apart (dir : String) (c d : Counter) : Prop where
  path : statePath dir c "" ≠ statePath dir d ""
  tmpPath : statePath dir c "" ≠ statePath dir d ".tmp"

/-! ## Updates -/

/-- A change of the numbers of a counter is marked. -/
structure Marked (c d : Counter) : Prop where
  name : d.name = c.name
  disabled : d.disabled = c.disabled
  clean : d.dirty = false →
    c.dirty = false ∧ d.initialized = c.initialized ∧ d.accum = c.accum ∧ d.lastRead = c.lastRead

theorem Marked.refl (c : Counter) : Marked c c := ⟨rfl, rfl, fun h => ⟨h, rfl, rfl, rfl⟩⟩

theorem Marked.trans {c d e : Counter} (h : Marked c d) (h' : Marked d e) : Marked c e := by
  refine ⟨h'.name.trans h.name, h'.disabled.trans h.disabled, fun hclean => ?_⟩
  obtain ⟨hd, hi, ha, hr⟩ := h'.clean hclean
  obtain ⟨hd', hi', ha', hr'⟩ := h.clean hd
  exact ⟨hd', hi.trans hi', ha.trans ha', hr.trans hr'⟩

theorem Marked.of_dirty {c d : Counter} (hn : d.name = c.name) (hdis : d.disabled = c.disabled)
    (h : d.dirty = true) : Marked c d := ⟨hn, hdis, fun hd => by simp [h] at hd⟩

theorem marked_integrate (c : Counter) (now : Int) : Marked c (integrate c now) := by
  unfold integrate
  split
  · split
    · dsimp only
      split
      · exact .of_dirty rfl rfl rfl
      · exact ⟨rfl, rfl, fun h => ⟨h, rfl, rfl, rfl⟩⟩
    · exact .refl c
  · exact .refl c

theorem marked_powerUpdate (c : Counter) (power : ℚ) (now : Int) : Marked c (powerUpdate c power now) := by
  have hhold : ∀ d : Counter, Marked d { d with hasPower := true, power := power, integratedTs := now } :=
    fun d => ⟨rfl, rfl, fun h => ⟨h, rfl, rfl, rfl⟩⟩
  have hstart : Marked c
      (if c.initialized then c else { c with accum := 0, lastRead := 0, initialized := true, dirty := true }) := by
    split
    · exact .refl c
    · exact .of_dirty rfl rfl rfl
  exact (hstart.trans (marked_integrate _ now)).trans (hhold _)

theorem marked_powerStop (c : Counter) (now : Int) : Marked c (powerStop c now) :=
  (marked_integrate c now).trans ⟨rfl, rfl, fun h => ⟨h, rfl, rfl, rfl⟩⟩

theorem marked_deviceUpdate (c : Counter) (raw : ℚ) (now : Int) : Marked c (deviceUpdate c raw now).1 := by
  unfold deviceUpdate
  split
  · exact .refl c
  · split
    · exact .of_dirty rfl rfl rfl
    · split
      · exact .refl c
      · exact .of_dirty rfl rfl rfl

theorem marked_sourceUpdate (c : Counter) (f : ℚ) (valid : Bool) (now : Int) :
    Marked c (sourceUpdate c f valid now).1 := by
  unfold sourceUpdate
  by_cases hdis : c.disabled = true
  · rw [if_pos hdis]
    exact .refl c
  · rw [if_neg hdis]
    cases valid <;> cases c.integratePower
    · exact .refl c
    · exact marked_powerStop c now
    · exact marked_deviceUpdate c _ now
    · exact marked_powerUpdate c _ now

theorem marked_tick (c : Counter) (now : Int) : Marked c (Counters.tick c now).1 := by
  unfold Counters.tick
  split
  · split
    · exact marked_integrate c now
    · exact .refl c
  · exact .refl c

/-! ## Operations -/

/-- Before it is renamed, the temporary file holds the numbers. -/
def Save.Written (x : Save) (fs : Files String) : Prop :=
  match x.op with
  | .fclose | .rename => fs x.tmpPath = some (stateText x.accum x.lastRead)
  | _ => True

/-- What an operation of `save_state` does. -/
theorem saveState_cases {x : Save} {ok : Bool} {left : List Char} {s t : State}
    (h : saveState x ok left s = some t) (hpaths : x.path ≠ x.tmpPath) (hw : x.Written s.fs) :
    t.counters = s.counters ∧ (∀ p, p ≠ x.path → p ≠ x.tmpPath → t.fs p = s.fs p) ∧
      ((∃ op, t.saver = .save { x with op := op } ∧ Save.Written { x with op := op } t.fs ∧
          t.fs x.path = s.fs x.path ∧ t.saved = s.saved) ∨
        (x.op = .rename ∧ t.saver = .loop (x.idx + 1) ∧ t.fs x.path = some (stateText x.accum x.lastRead) ∧
          t.saved = Function.update s.saved x.idx (some (x.accum, x.lastRead)))) := by
  obtain ⟨idx, path, tmpPath, accum, lastRead, op⟩ := x
  dsimp only at hpaths
  cases op with
  | fopen =>
    cases ok <;> obtain rfl := Option.some.inj h
    · exact ⟨rfl, fun _ _ _ => rfl, .inl ⟨_, rfl, trivial, rfl, rfl⟩⟩
    · exact ⟨rfl, fun p _ hp => Files.write_of_ne _ _ hp,
        .inl ⟨_, rfl, trivial, Files.write_of_ne _ _ hpaths, rfl⟩⟩
  | write =>
    cases ok <;> obtain rfl := Option.some.inj h
    · exact ⟨rfl, fun p _ hp => Files.write_of_ne _ _ hp,
        .inl ⟨_, rfl, trivial, Files.write_of_ne _ _ hpaths, rfl⟩⟩
    · exact ⟨rfl, fun p _ hp => Files.write_of_ne _ _ hp,
        .inl ⟨_, rfl, Files.write_self .., Files.write_of_ne _ _ hpaths, rfl⟩⟩
  | fclose =>
    cases ok <;> obtain rfl := Option.some.inj h
    · exact ⟨rfl, fun _ _ _ => rfl, .inl ⟨_, rfl, trivial, rfl, rfl⟩⟩
    · exact ⟨rfl, fun _ _ _ => rfl, .inl ⟨_, rfl, hw, rfl, rfl⟩⟩
  | rename =>
    cases ok with
    | false =>
      obtain rfl := Option.some.inj h
      exact ⟨rfl, fun _ _ _ => rfl, .inl ⟨_, rfl, trivial, rfl, rfl⟩⟩
    | true =>
      obtain ⟨fs, hfs, rfl⟩ := Option.map_eq_some_iff.mp h
      refine ⟨rfl, fun p hp htmp => Files.rename_of_ne hfs htmp hp, .inr ⟨rfl, rfl, ?_, rfl⟩⟩
      exact (Files.rename_self hfs).trans hw
  | unlink =>
    cases ok <;> obtain rfl := Option.some.inj h
    · exact ⟨rfl, fun _ _ _ => rfl, .inl ⟨_, rfl, trivial, rfl, rfl⟩⟩
    · exact ⟨rfl, fun p _ hp => Files.unlink_of_ne _ hp,
        .inl ⟨_, rfl, trivial, Files.unlink_of_ne _ hpaths, rfl⟩⟩
  | failed => cases h

/-- An error is never taken back. -/
theorem saveState_failing {x y : Save} {ok : Bool} {left : List Char} {s t : State}
    (h : saveState x ok left s = some t) (hy : t.saver = .save y) (hx : ok = false ∨ x.Failing) : y.Failing := by
  obtain ⟨idx, path, tmpPath, accum, lastRead, op⟩ := x
  unfold Save.Failing at hx ⊢
  cases op with
  | failed => cases h
  | unlink =>
    obtain rfl := Option.some.inj h
    obtain rfl := Saver.save.inj hy
    exact .inr rfl
  | fopen | write | fclose | rename =>
    obtain rfl : ok = false := by simpa using hx
    obtain rfl := Option.some.inj h
    obtain rfl := Saver.save.inj hy
    simp

theorem retry_eq_some {x : Save} {s t : State} : retry x s = some t ↔ x.op = .failed ∧
    t = { s with
      counters := s.counters.modify x.idx fun c => { c with dirty := true }
      saver := .loop (x.idx + 1) } := by
  unfold retry
  split
  · rename_i hop
    simp [hop, eq_comm]
  · rename_i hop
    simp only [reduceCtorEq, false_iff, not_and]
    exact fun h => absurd h hop

theorem retry_eq {x : Save} {s t : State} (h : retry x s = some t) :
    t = { s with
      counters := s.counters.modify x.idx fun c => { c with dirty := true }
      saver := .loop (x.idx + 1) } := (retry_eq_some.mp h).2

/-! ## Invariants -/

section Invariants

variable (dir : String) (configured : List Counter)

/-- What holds for all counters and for the save in progress. -/
structure Inv (s : State) : Prop where
  length : s.counters.length = configured.length
  names : ∀ (j : Nat) c, s.counters[j]? = some c → ∃ c₀, configured[j]? = some c₀ ∧ c.name = c₀.name
  saveable : ∀ (j : Nat) c, s.counters[j]? = some c → Restart.Saveable c
  /-- The locals of `save_state`. -/
  save : ∀ x, s.saver = .save x → ∃ c₀, configured[x.idx]? = some c₀ ∧ x.path = statePath dir c₀ "" ∧
    x.tmpPath = statePath dir c₀ ".tmp" ∧ 0 ≤ x.accum ∧ 0 ≤ x.lastRead ∧ x.Written s.fs

/-- A loaded counter has the numbers of `c`, but for rounding to six decimals. -/
structure Near (c loaded : Counter) : Prop where
  initialized : loaded.initialized = true
  enabled : loaded.disabled = false
  accum : |loaded.accum - c.accum| ≤ 1 / 2000000
  lastRead : |loaded.lastRead - c.lastRead| ≤ 1 / 2000000

/-- A save of a counter in progress: the file before it, what has been done since, and where it stands. -/
structure Underway (path : String) (before : Option (List Char)) (l : List Act) (x : Save) (s : State) : Prop where
  kept : s.fs path = before
  failing : ∀ left, .op false left ∈ l → x.Failing
  /-- Whether `unlink` fails or not. -/
  cleanup : x.op = .unlink → ∀ ok left,
    ∃ t, step dir s (.op ok left) = some t ∧ t.saver = .save { x with op := .failed }
  /-- After a failed save the counter is marked again. -/
  marked : x.op = .failed → ∃ t c, step dir s .retry = some t ∧ t.saver = .loop (x.idx + 1) ∧ t.fs path = before ∧
    t.counters[x.idx]? = some c ∧ c.dirty = true
  ends : ∀ a t, step dir s a = some t → ¬ t.saver.InSave x.idx →
    (a = .retry ∧ x.op = .failed) ∨ (x.op = .rename ∧ t.fs path = some (stateText x.accum x.lastRead))

/-- The state file of the counter exists, and is loaded as its numbers. -/
def Stored (c₀ c : Counter) (fs : Files String) : Prop :=
  ∃ text, fs (statePath dir c₀ "") = some text ∧ Near c (loadState c₀ (.text text))

/-- For a counter whose paths are its own. -/
structure Kept (i : Nat) (c₀ : Counter) (s : State) : Prop where
  saved : ∀ accum lastRead, s.saved i = some (accum, lastRead) →
    0 ≤ accum ∧ 0 ≤ lastRead ∧ s.fs (statePath dir c₀ "") = some (stateText accum lastRead)
  /-- The save in progress is of the current numbers, or they are marked. -/
  snapshot : ∀ x c, s.saver = .save x → x.idx = i → s.counters[i]? = some c → c.dirty = false →
    x.accum = c.accum ∧ x.lastRead = c.lastRead
  stored : ∀ c, s.counters[i]? = some c → c.initialized = true → c.disabled = false → c.dirty = false →
    ¬ s.saver.InSave i → Stored dir c₀ c s.fs

end Invariants

section Steps

variable {dir : String} {configured : List Counter} {s t : State}

theorem Inv.modify (h : Inv dir configured s) (j : Nat) {f : Counter → Counter} (hn : ∀ c, (f c).name = c.name)
    (hf : ∀ c, Restart.Saveable c → Restart.Saveable (f c)) :
    Inv dir configured { s with counters := s.counters.modify j f } := by
  refine { length := by simpa using h.length, names := fun k c hc => ?_, saveable := fun k c hc => ?_,
           save := h.save }
  · obtain ⟨b, hb, rfl⟩ := getElem?_modify_eq_some.mp hc
    obtain ⟨c₀, h₀, hname⟩ := h.names k b hb
    refine ⟨c₀, h₀, ?_⟩
    split
    · rw [hn, hname]
    · exact hname
  · obtain ⟨b, hb, rfl⟩ := getElem?_modify_eq_some.mp hc
    split
    · exact hf b (h.saveable k b hb)
    · exact h.saveable k b hb

theorem Inv.leave (h : Inv dir configured s) {saver : Saver} (hs : ∀ x, saver ≠ .save x) :
    Inv dir configured { s with saver := saver } :=
  { h with save := fun x hx => absurd hx (hs x) }

theorem statePath_ne (c : Counter) : statePath dir c "" ≠ statePath dir c ".tmp" := by
  intro h
  have := congrArg String.length h
  simp [statePath] at this

theorem statePath_congr {c d : Counter} (h : c.name = d.name) (suffix : String) :
    statePath dir c suffix = statePath dir d suffix := by
  unfold statePath
  rw [h]

theorem Inv.take (h : Inv dir configured s) (i : Nat) : Inv dir configured (take dir i s) := by
  unfold Saving.take
  split
  · exact h.leave (by simp)
  · rename_i c hc
    have hmod := h.modify i (f := fun c => { c with dirty := false }) (fun _ => rfl) (fun _ hs => hs)
    split
    · refine { hmod with save := ?_ }
      rintro x ⟨⟩
      obtain ⟨c₀, h₀, hname⟩ := h.names i c hc
      obtain ⟨ha, hr⟩ := h.saveable i c hc
      exact ⟨c₀, h₀, statePath_congr hname _, statePath_congr hname _, ha, hr, trivial⟩
    · exact hmod.leave (by simp)

theorem Inv.paths_ne (h : Inv dir configured s) {x : Save} (hx : s.saver = .save x) : x.path ≠ x.tmpPath := by
  obtain ⟨c₀, -, hpath, htmp, -⟩ := h.save x hx
  rw [hpath, htmp]
  exact statePath_ne c₀

theorem Inv.saveState (h : Inv dir configured s) {x : Save} {ok : Bool} {left : List Char}
    (hx : s.saver = .save x) (hst : saveState x ok left s = some t) : Inv dir configured t := by
  obtain ⟨c₀, h₀, hpath, htmp, ha, hr, hw⟩ := h.save x hx
  obtain ⟨hcounters, -, hcases⟩ := saveState_cases hst (h.paths_ne hx) hw
  refine { length := hcounters ▸ h.length, names := hcounters ▸ h.names, saveable := hcounters ▸ h.saveable,
           save := fun y hy => ?_ }
  rcases hcases with ⟨op, hsaver, hw', -⟩ | ⟨-, hsaver, -⟩
  · obtain rfl := Saver.save.inj (hsaver.symm.trans hy)
    exact ⟨c₀, h₀, hpath, htmp, ha, hr, hw'⟩
  · rw [hsaver] at hy
    cases hy

theorem Inv.step (h : Inv dir configured s) {a : Act} (hst : step dir s a = some t) : Inv dir configured t := by
  cases a with
  | source i f valid now =>
    obtain rfl := Option.some.inj hst
    exact h.modify i (fun c => (marked_sourceUpdate c f valid now).name)
      fun c hc => hc.step (a := .source f valid now) rfl
  | tick i now =>
    obtain rfl := Option.some.inj hst
    exact h.modify i (fun c => (marked_tick c now).name) fun c hc => hc.step (a := .tick now) rfl
  | start =>
    simp only [Saving.step, Option.ite_none_right_eq_some, Option.some.injEq] at hst
    obtain ⟨-, rfl⟩ := hst
    exact h.leave (by simp)
  | take =>
    simp only [Saving.step] at hst
    split at hst
    · obtain rfl := Option.some.inj hst
      exact h.take _
    · cases hst
  | op ok left =>
    simp only [Saving.step] at hst
    split at hst
    · rename_i x hx
      exact h.saveState hx hst
    · cases hst
  | retry =>
    simp only [Saving.step] at hst
    split at hst
    · rw [retry_eq hst]
      exact (h.modify _ (f := fun c => { c with dirty := true }) (fun _ => rfl) fun _ hs => hs).leave (by simp)
    · cases hst

variable {i : Nat} {c₀ : Counter}

theorem Kept.update (h : Kept dir i c₀ s) {counters : List Counter}
    (hm : ∀ c, counters[i]? = some c → ∃ b, s.counters[i]? = some b ∧ Marked b c) :
    Kept dir i c₀ { s with counters := counters } := by
  refine { saved := h.saved, snapshot := fun x c hx hi hc hclean => ?_, stored := fun c hc hinit hen hclean hs => ?_ }
  · obtain ⟨b, hb, hbc⟩ := hm c hc
    obtain ⟨hd, -, ha, hr⟩ := hbc.clean hclean
    rw [ha, hr]
    exact h.snapshot x b hx hi hb hd
  · obtain ⟨b, hb, hbc⟩ := hm c hc
    obtain ⟨hd, hinit', ha, hr⟩ := hbc.clean hclean
    obtain ⟨text, htext, hnear⟩ := h.stored b hb (hinit' ▸ hinit) (hbc.disabled ▸ hen) hd hs
    exact ⟨text, htext, hnear.initialized, hnear.enabled, ha ▸ hnear.accum, hr ▸ hnear.lastRead⟩

theorem marked_modify {f : Counter → Counter} (hf : ∀ c, Marked c (f c)) (j : Nat) {l : List Counter} (c : Counter)
    (hc : (l.modify j f)[i]? = some c) : ∃ b, l[i]? = some b ∧ Marked b c := by
  obtain ⟨b, hb, rfl⟩ := getElem?_modify_eq_some.mp hc
  refine ⟨b, hb, ?_⟩
  split
  · exact hf b
  · exact .refl b

/-- `save_states` goes on, not out of a save of this counter and not into one. -/
theorem Kept.leave (h : Kept dir i c₀ s) {saver : Saver} (hs : ¬ s.saver.InSave i) (ht : ¬ saver.InSave i) :
    Kept dir i c₀ { s with saver := saver } := by
  refine { saved := h.saved, snapshot := ?_,
           stored := fun c hc hinit hen hclean _ => h.stored c hc hinit hen hclean hs }
  rintro x c rfl hi
  exact absurd hi ht

theorem Kept.take (h : Kept dir i c₀ s) {j : Nat} (hs : s.saver = .loop j) : Kept dir i c₀ (take dir j s) := by
  have hout : ¬ s.saver.InSave i := by simp [hs, Saver.InSave]
  unfold Saving.take
  split
  · exact h.leave hout (by simp [Saver.InSave])
  · rename_i d hd
    by_cases hj : j = i
    · subst hj
      refine { saved := h.saved, snapshot := fun x c hx _ hc _ => ?_, stored := fun c hc hinit hen _ ht => ?_ }
      · obtain ⟨b, hb, rfl⟩ := getElem?_modify_eq_some.mp hc
        obtain rfl : d = b := Option.some.inj (hd.symm.trans hb)
        rw [if_pos rfl]
        dsimp only at hx
        split at hx <;> cases hx
        exact ⟨rfl, rfl⟩
      · -- Without a save the counter was clean before.
        obtain ⟨b, hb, rfl⟩ := getElem?_modify_eq_some.mp hc
        obtain rfl : d = b := Option.some.inj (hd.symm.trans hb)
        rw [if_pos rfl] at hinit hen ⊢
        cases hdirty : d.dirty with
        | true =>
          rw [hdirty] at ht
          exact absurd rfl ht
        | false =>
          obtain ⟨text, htext, hnear⟩ := h.stored d hb hinit hen hdirty hout
          exact ⟨text, htext, hnear.initialized, hnear.enabled, hnear.accum, hnear.lastRead⟩
    · have hmod : Kept dir i c₀ { s with counters := s.counters.modify j fun c => { c with dirty := false } } := by
        refine h.update fun c hc => ?_
        obtain ⟨b, hb, rfl⟩ := getElem?_modify_eq_some.mp hc
        rw [if_neg hj]
        exact ⟨b, hb, .refl b⟩
      refine hmod.leave hout ?_
      split <;> simp [Saver.InSave, hj]

theorem near_stateText (h₀ : c₀.disabled = false) {c : Counter} (ha : 0 ≤ c.accum) (hr : 0 ≤ c.lastRead) :
    Near c (loadState c₀ (.text (stateText c.accum c.lastRead))) := by
  have hnear := fun q => toFixed_near 6 q
  norm_num at hnear
  rw [loadState_stateText c₀ ha hr]
  exact ⟨rfl, h₀, hnear _, hnear _⟩

theorem Kept.saveOwn (h : Kept dir i c₀ s) (hi : configured[i]? = some c₀) (h₀ : c₀.disabled = false)
    (hinv : Inv dir configured s) {x : Save} {ok : Bool} {left : List Char} (hx : s.saver = .save x)
    (hidx : x.idx = i) (hst : saveState x ok left s = some t) : Kept dir i c₀ t := by
  subst hidx
  obtain ⟨d, hd, hpath, -, ha, hr, hw⟩ := hinv.save x hx
  obtain rfl : d = c₀ := Option.some.inj (hd.symm.trans hi)
  obtain ⟨hcounters, -, hcases⟩ := saveState_cases hst (hinv.paths_ne hx) hw
  rcases hcases with ⟨op, hsaver, -, hfs, hsaved⟩ | ⟨-, hsaver, hfs, hsaved⟩
  · rw [hpath] at hfs
    refine { saved := ?_, snapshot := fun y c hy _ hc hclean => ?_, stored := fun c hc _ _ _ hs => ?_ }
    · rw [hsaved, hfs]
      exact h.saved
    · obtain rfl := Saver.save.inj (hsaver.symm.trans hy)
      exact h.snapshot x c hx rfl (hcounters ▸ hc) hclean
    · rw [hsaver] at hs
      exact absurd rfl hs
  · rw [hpath] at hfs
    refine { saved := fun a r har => ?_, snapshot := fun y c hy _ _ _ => ?_,
             stored := fun c hc _ _ hclean _ => ?_ }
    · rw [hsaved, Function.update_self] at har
      cases har
      exact ⟨ha, hr, hfs⟩
    · rw [hsaver] at hy
      cases hy
    · obtain ⟨hxa, hxr⟩ := h.snapshot x c hx rfl (hcounters ▸ hc) hclean
      rw [hxa] at ha hfs
      rw [hxr] at hr hfs
      exact ⟨_, hfs, near_stateText h₀ ha hr⟩

/-- An operation of a save of another counter, whose paths are not ours. -/
theorem Kept.saveOther (h : Kept dir i c₀ s) (hown : ∀ j d, configured[j]? = some d → j ≠ i → Apart dir c₀ d)
    (hinv : Inv dir configured s) {x : Save} {ok : Bool} {left : List Char} (hx : s.saver = .save x)
    (hidx : x.idx ≠ i) (hst : saveState x ok left s = some t) : Kept dir i c₀ t := by
  obtain ⟨d, hd, hpath, htmp, -, -, hw⟩ := hinv.save x hx
  obtain ⟨hcounters, hframe, hcases⟩ := saveState_cases hst (hinv.paths_ne hx) hw
  have hapart := hown x.idx d hd hidx
  have hfs : t.fs (statePath dir c₀ "") = s.fs (statePath dir c₀ "") := by
    apply hframe
    · rw [hpath]
      exact hapart.path
    · rw [htmp]
      exact hapart.tmpPath
  have hsaved : t.saved i = s.saved i := by
    rcases hcases with ⟨_, _, _, _, hsaved⟩ | ⟨_, _, _, hsaved⟩
    · rw [hsaved]
    · rw [hsaved, Function.update_of_ne (Ne.symm hidx)]
  have hout : ¬ s.saver.InSave i := by
    rw [hx]
    exact hidx
  refine { saved := ?_, snapshot := fun y c hy hyi _ _ => ?_, stored := fun c hc hinit hen hclean _ => ?_ }
  · rw [hsaved, hfs]
    exact h.saved
  · rcases hcases with ⟨op, hsaver, -⟩ | ⟨-, hsaver, -⟩
    · obtain rfl := Saver.save.inj (hsaver.symm.trans hy)
      exact absurd hyi hidx
    · rw [hsaver] at hy
      cases hy
  · unfold Stored
    rw [hfs]
    exact h.stored c (hcounters ▸ hc) hinit hen hclean hout

theorem Kept.retry (h : Kept dir i c₀ s) {x : Save} (hx : s.saver = .save x) (hst : retry x s = some t) :
    Kept dir i c₀ t := by
  rw [retry_eq hst]
  have hmod := h.update
    (marked_modify (f := fun c => { c with dirty := true }) (fun c => .of_dirty rfl rfl rfl) x.idx)
  by_cases hidx : x.idx = i
  · subst hidx
    refine { saved := hmod.saved, snapshot := by simp, stored := fun c hc _ _ hclean _ => ?_ }
    obtain ⟨b, -, rfl⟩ := getElem?_modify_eq_some.mp hc
    rw [if_pos rfl] at hclean
    cases hclean
  · refine hmod.leave ?_ (by simp [Saver.InSave])
    dsimp only
    rw [hx]
    exact hidx

theorem Kept.step (h : Kept dir i c₀ s) (hi : configured[i]? = some c₀) (h₀ : c₀.disabled = false)
    (hown : ∀ j d, configured[j]? = some d → j ≠ i → Apart dir c₀ d) (hinv : Inv dir configured s) {a : Act}
    (hst : step dir s a = some t) : Kept dir i c₀ t := by
  cases a with
  | source j f valid now =>
    obtain rfl := Option.some.inj hst
    exact h.update (marked_modify (fun c => marked_sourceUpdate c f valid now) j)
  | tick j now =>
    obtain rfl := Option.some.inj hst
    exact h.update (marked_modify (fun c => marked_tick c now) j)
  | start =>
    simp only [Saving.step, Option.ite_none_right_eq_some, Option.some.injEq] at hst
    obtain ⟨hidle, rfl⟩ := hst
    exact h.leave (by simp [hidle, Saver.InSave]) (by simp [Saver.InSave])
  | take =>
    simp only [Saving.step] at hst
    split at hst
    · rename_i hs
      obtain rfl := Option.some.inj hst
      exact h.take hs
    · cases hst
  | op ok left =>
    simp only [Saving.step] at hst
    split at hst
    · rename_i x hx
      by_cases hidx : x.idx = i
      · exact h.saveOwn hi h₀ hinv hx hidx hst
      · exact h.saveOther hown hinv hx hidx hst
    · cases hst
  | retry =>
    simp only [Saving.step] at hst
    split at hst
    · rename_i x hx
      exact h.retry hx hst
    · cases hst

/-! ## The start -/

theorem loadState_keeps (c : Counter) (file : StateFile) :
    (loadState c file).name = c.name ∧ (loadState c file).dirty = c.dirty := by
  unfold loadState
  split
  · exact ⟨rfl, rfl⟩
  · exact ⟨rfl, rfl⟩
  · split
    · split <;> exact ⟨rfl, rfl⟩
    · exact ⟨rfl, rfl⟩

variable {cfgs : List CounterConf}

theorem Init.at (h : Init dir configured s) {j : Nat} {c : Counter} (hc : s.counters[j]? = some c) :
    ∃ c₀ file, configured[j]? = some c₀ ∧ Opened s.fs (statePath dir c₀ "") file ∧ c = loadState c₀ file := by
  obtain ⟨c₀, h₀, file, hfile⟩ := getElem?_forall₂ h.counters hc
  exact ⟨c₀, file, h₀, hfile⟩

theorem fresh_of_configured (hcfg : counterConfigure cfgs = some configured) {j : Nat} {c₀ : Counter}
    (h : configured[j]? = some c₀) : Fresh c₀ := by
  obtain ⟨cfg, -, hcfg⟩ := mem_counterConfigure hcfg (List.mem_of_getElem? h)
  exact counterConfigureOne_spec hcfg

theorem Inv.init (hcfg : counterConfigure cfgs = some configured) (h : Init dir configured s) :
    Inv dir configured s := by
  refine { length := h.counters.length_eq.symm, names := fun j c hc => ?_, saveable := fun j c hc => ?_,
           save := by simp [h.saver] }
  · obtain ⟨c₀, file, h₀, -, rfl⟩ := h.at hc
    exact ⟨c₀, h₀, (loadState_keeps c₀ file).1⟩
  · obtain ⟨c₀, file, h₀, -, rfl⟩ := h.at hc
    exact (Restart.saveable_fresh (fresh_of_configured hcfg h₀)).loadState file

theorem Kept.init (hcfg : counterConfigure cfgs = some configured) (h : Init dir configured s)
    (hi : configured[i]? = some c₀) : Kept dir i c₀ s := by
  refine { saved := by simp [h.saved], snapshot := by simp [h.saver], stored := fun c hc hinit hen _ _ => ?_ }
  obtain ⟨d, file, hd, hfile, rfl⟩ := h.at hc
  obtain rfl : c₀ = d := Option.some.inj (hi.symm.trans hd)
  rcases hfile with rfl | rfl
  · cases hen
  · cases htext : s.fs (statePath dir c₀ "") with
    | none =>
      rw [htext] at hinit
      have hnew : c₀.initialized = true := hinit
      rw [(fresh_of_configured hcfg hi).initialized] at hnew
      cases hnew
    | some text =>
      rw [htext] at hinit hen
      exact ⟨text, htext, hinit, hen, by simp, by simp⟩

end Steps

/-! ## Main results -/

section Main

variable {dir : String} {configured : List Counter} {cfgs : List CounterConf} {i : Nat} {c₀ : Counter} {s t : State}

theorem kept_reachable (hcfg : counterConfigure cfgs = some configured) (hi : configured[i]? = some c₀)
    (hown : ∀ j d, configured[j]? = some d → j ≠ i → Apart dir c₀ d)
    (h : Reachable (step dir) (Init dir configured) s) : Inv dir configured s ∧ Kept dir i c₀ s := by
  refine h.invariant (I := fun s => Inv dir configured s ∧ Kept dir i c₀ s) ?_ ?_
  · intro s hs
    exact ⟨.init hcfg hs, .init hcfg hs hi⟩
  · rintro s a t ⟨hinv, hkept⟩ - hst
    exact ⟨hinv.step hst, hkept.step hi (fresh_of_configured hcfg hi).enabled hown hinv hst⟩

theorem inSave_iff {saver : Saver} : saver.InSave i ↔ ∃ x, saver = .save x ∧ x.idx = i := by
  cases saver <;> simp [Saver.InSave]

theorem step_cases {x : Save} (hx : s.saver = .save x) {a : Act} (hst : step dir s a = some t) :
    (t.fs = s.fs ∧ t.saver = s.saver) ∨ (∃ ok left, saveState x ok left s = some t) ∨
      a = .retry ∧ retry x s = some t := by
  cases a with
  | source i f valid now =>
    obtain rfl := Option.some.inj hst
    exact .inl ⟨rfl, rfl⟩
  | tick i now =>
    obtain rfl := Option.some.inj hst
    exact .inl ⟨rfl, rfl⟩
  | start => simp [step, hx] at hst
  | take => simp [step, hx] at hst
  | op ok left =>
    simp only [step, hx] at hst
    exact .inr (.inl ⟨ok, left, hst⟩)
  | retry =>
    simp only [step, hx] at hst
    exact .inr (.inr ⟨rfl, hst⟩)

theorem Inv.frame (h : Inv dir configured s) {x : Save} (hx : s.saver = .save x) {a : Act}
    (hst : Saving.step dir s a = some t) {p : String} (hp : p ≠ x.path) (htmp : p ≠ x.tmpPath) : t.fs p = s.fs p := by
  obtain ⟨-, -, -, -, -, -, hw⟩ := h.save x hx
  rcases step_cases hx hst with ⟨hfs, -⟩ | ⟨ok, left, hsave⟩ | ⟨-, hretry⟩
  · rw [hfs]
  · exact (saveState_cases hsave (h.paths_ne hx) hw).2.1 p hp htmp
  · rw [retry_eq hretry]

theorem Inv.stays (h : Inv dir configured s) (hi : configured[i]? = some c₀) {l : List Act}
    (hrun : Run (Saving.step dir) s l t) (hin : Throughout (Saving.step dir) (·.saver.InSave i) s l) :
    t.fs (statePath dir c₀ "") = s.fs (statePath dir c₀ "") := by
  induction l generalizing s with
  | nil =>
    rw [(run_nil s t).mp hrun]
  | cons a l ih =>
    obtain ⟨u, hu, hrun⟩ := (run_cons s a l t).mp hrun
    rw [ih (h.step hu) hrun (hin.2 u hu)]
    have hs : s.saver.InSave i := hin.1
    have ht : u.saver.InSave i := (hin.2 u hu).head
    unfold Saver.InSave at hs
    split at hs
    · rename_i x hx
      subst hs
      obtain ⟨d, hd, hpath, -, -, -, hw⟩ := h.save x hx
      obtain rfl : d = c₀ := Option.some.inj (hd.symm.trans hi)
      rcases step_cases hx hu with ⟨hfs, -⟩ | ⟨ok, left, hsave⟩ | ⟨-, hretry⟩
      · rw [hfs]
      · rcases (saveState_cases hsave (h.paths_ne hx) hw).2.2 with ⟨_, _, _, hfs, _⟩ | ⟨_, hsaver, _⟩
        · rw [← hpath, hfs]
        · rw [hsaver] at ht
          exact ht.elim
      · rw [retry_eq hretry]
    · exact hs.elim

theorem failing_of_run {l : List Act} (hrun : Run (Saving.step dir) s l t)
    (hin : Throughout (Saving.step dir) (·.saver.InSave i) s l) {y : Save} (hy : t.saver = .save y)
    (h : (∃ x, s.saver = .save x ∧ x.Failing) ∨ ∃ left, .op false left ∈ l) : y.Failing := by
  induction l generalizing s with
  | nil =>
    obtain rfl := (run_nil s t).mp hrun
    rcases h with ⟨x, hx, hfailing⟩ | ⟨left, hleft⟩
    · exact Saver.save.inj (hx.symm.trans hy) ▸ hfailing
    · cases hleft
  | cons a l ih =>
    obtain ⟨u, hu, hrun⟩ := (run_cons s a l t).mp hrun
    apply ih hrun (hin.2 u hu)
    -- only a failure in this step, or before it, is left to see
    suffices hstep : ((∃ x, s.saver = .save x ∧ x.Failing) ∨ ∃ left, a = .op false left) →
        ∃ x, u.saver = .save x ∧ x.Failing by
      rcases h with hs | ⟨left, hleft⟩
      · exact .inl (hstep (.inl hs))
      · rcases List.mem_cons.mp hleft with rfl | hleft
        · exact .inl (hstep (.inr ⟨left, rfl⟩))
        · exact .inr ⟨left, hleft⟩
    intro hfail
    obtain ⟨x, hx, -⟩ := inSave_iff.mp hin.1
    obtain ⟨z, hz, -⟩ := inSave_iff.mp (hin.2 u hu).head
    refine ⟨z, hz, ?_⟩
    have hbefore : ∀ w, s.saver = .save w → w = x := fun w hw => Saver.save.inj (hw.symm.trans hx)
    cases a with
    | op ok left =>
      simp only [Saving.step, hx] at hu
      apply saveState_failing hu hz
      rcases hfail with ⟨w, hw, hfailing⟩ | ⟨_, hop⟩
      · exact .inr (hbefore w hw ▸ hfailing)
      · cases hop
        exact .inl rfl
    | source j f valid now | tick j now =>
      obtain rfl := Option.some.inj hu
      rcases hfail with ⟨w, hw, hfailing⟩ | ⟨_, hop⟩
      · exact Saver.save.inj (hw.symm.trans hz) ▸ hfailing
      · cases hop
    | start | take => simp [Saving.step, hx] at hu
    | retry =>
      simp only [Saving.step, hx] at hu
      rw [retry_eq hu] at hz
      cases hz

theorem Inv.underway (h : Inv dir configured s) (hi : configured[i]? = some c₀) {x : Save} (hx : s.saver = .save x)
    (hidx : x.idx = i) {before : Option (List Char)} (hbefore : s.fs (statePath dir c₀ "") = before) {l : List Act}
    (hfailing : ∀ left, .op false left ∈ l → x.Failing) : Underway dir (statePath dir c₀ "") before l x s := by
  subst hidx
  refine { kept := hbefore, failing := hfailing, cleanup := ?_, marked := ?_, ends := ?_ }
  · intro hop ok left
    simp only [Saving.step, hx, Saving.saveState, hop]
    exact ⟨_, rfl, rfl⟩
  · intro hop
    have hlt : x.idx < s.counters.length := by
      rw [h.length]
      exact (List.getElem?_eq_some_iff.mp hi).1
    have hretry : Saving.step dir s .retry = some { s with
        counters := s.counters.modify x.idx fun c => { c with dirty := true }
        saver := .loop (x.idx + 1) } := by
      simp only [Saving.step, hx]
      exact retry_eq_some.mpr ⟨hop, rfl⟩
    refine ⟨_, { s.counters[x.idx] with dirty := true }, hretry, rfl, hbefore, ?_, rfl⟩
    exact getElem?_modify_eq_some.mpr ⟨_, List.getElem?_eq_getElem hlt, if_pos rfl⟩
  · intro a t ht hout
    obtain ⟨d, hd, hpath, -, -, -, hw⟩ := h.save x hx
    obtain rfl : d = c₀ := Option.some.inj (hd.symm.trans hi)
    rcases step_cases hx ht with ⟨-, hsaver⟩ | ⟨ok, left, hsave⟩ | ⟨ha, hretry⟩
    · rw [hsaver, hx] at hout
      exact absurd rfl hout
    · rcases (saveState_cases hsave (h.paths_ne hx) hw).2.2 with ⟨_, hsaver, -⟩ | ⟨hop, -, hfs, -⟩
      · rw [hsaver] at hout
        exact absurd rfl hout
      · exact .inr ⟨hop, hpath ▸ hfs⟩
    · exact .inl ⟨ha, (retry_eq_some.mp hretry).1⟩

def meterConf : CounterConf := { title := "x", source := some "meter" }

def meter : List Counter := (counterConfigure [meterConf]).get (by decide +kernel)

def start (configured : List Counter) : State := { counters := configured, fs := fun _ => none }

/-- The loop has reached the counter that is dirty. -/
def saveActs : List Act := [.take, .op true [], .op true [], .op true [], .op true []]

def meterActs : List Act := [.source 0 5 true 0, .start] ++ saveActs ++ [.take]

def meterSaved : State := (meterActs.foldlM (step "d") (start meter)).get (by decide +kernel)

theorem start_init (dir : String) (configured : List Counter) : Init dir configured (start configured) := by
  refine ⟨?_, rfl, fun _ => rfl⟩
  unfold start
  rw [List.forall₂_same]
  exact fun c _ => ⟨.missing, .inr rfl, rfl⟩

def nextActs : List Act := [.source 0 8 true 1, .start]

def meterNext : State := (nextActs.foldlM (step "d") meterSaved).get (by decide +kernel)

def meterTaken : State := (step "d" meterNext .take).get (by decide +kernel)

/-- The disk is full, and a reading comes in before the write. -/
def fullActs : List Act := [.op true [], .source 0 9 true 2, .op false ['8'], .op false []]

def meterFull : State := (fullActs.foldlM (step "d") meterTaken).get (by decide +kernel)

/-- A save of another counter leaves the state file of a counter alone, and the file is loaded as it was
last saved. -/
def Isolated (dir : String) (configured : List Counter) : Prop :=
  ∀ s, Reachable (step dir) (Init dir configured) s → ∀ i c₀, configured[i]? = some c₀ →
    (∀ j a t, j ≠ i → s.saver.InSave j → step dir s a = some t →
      t.fs (statePath dir c₀ "") = s.fs (statePath dir c₀ "")) ∧
    ∀ accum lastRead, s.saved i = some (accum, lastRead) →
      ∃ text, s.fs (statePath dir c₀ "") = some text ∧ loadState c₀ (.text text) =
        { c₀ with accum := toFixed 6 accum, lastRead := toFixed 6 lastRead, initialized := true }

theorem statePath_inj {c d : Counter} {suffix suffix' : String} :
    statePath dir c suffix = statePath dir d suffix' ↔ c.name ++ suffix = d.name ++ suffix' := by
  unfold statePath
  simp only [String.append_assoc, String.append_right_inj]

theorem take_clean {j : Nat} (hclean : ∀ k < j, ∃ c, s.counters[k]? = some c ∧ c.dirty = false)
    (hs : s.saver = .loop 0) :
    Run (step dir) s (List.replicate j .take) { s with saver := .loop j } := by
  induction j with
  | zero =>
    rw [List.replicate_zero, run_nil, ← hs]
  | succ j ih =>
    rw [List.replicate_succ', run_append]
    refine ⟨_, ih fun k hk => hclean k (by omega), ?_⟩
    obtain ⟨c, hc, hdirty⟩ := hclean j (by omega)
    have hsame : s.counters.modify j (fun c => { c with dirty := false }) = s.counters := by
      apply List.ext_getElem?
      intro k
      rw [List.getElem?_modify]
      split
      · rename_i hk
        rw [← hk, hc, ← hdirty]
        rfl
      · simp
    simp [step, take, hc, hdirty, hsame]

variable (dir) in
/-- The first reading of a counter is saved. -/
theorem reaches_save (hcfg : counterConfigure cfgs = some configured) {j : Nat} {d : Counter}
    (hd : configured[j]? = some d) :
    ∃ s x, Reachable (step dir) (Init dir configured) s ∧ s.fs = (fun _ => none) ∧ s.saver = .save x ∧ x.idx = j ∧
      x.tmpPath = statePath dir d ".tmp" ∧ x.op = .fopen := by
  have hfresh := fresh_of_configured hcfg hd
  obtain ⟨hdirty, hname⟩ : (sourceUpdate d 0 true 0).1.dirty = true ∧ (sourceUpdate d 0 true 0).1.name = d.name := by
    simp only [sourceUpdate, hfresh.enabled, powerUpdate, deviceUpdate, hfresh.initialized]
    cases d.integratePower <;> simp [integrate, hfresh.power]
  let s₁ : State :=
    { start configured with counters := configured.modify j fun c => (sourceUpdate c 0 true 0).1, saver := .loop 0 }
  have hclean : ∀ k < j, ∃ c, s₁.counters[k]? = some c ∧ c.dirty = false := by
    intro k hk
    have hlt : k < configured.length := hk.trans (List.getElem?_eq_some_iff.mp hd).1
    obtain ⟨cfg, -, hone⟩ := mem_counterConfigure hcfg (List.getElem_mem hlt)
    refine ⟨configured[k], ?_, counterConfigureOne_clean hone⟩
    exact getElem?_modify_eq_some.mpr ⟨_, List.getElem?_eq_getElem hlt, if_neg (by omega)⟩
  have hj : s₁.counters[j]? = some (sourceUpdate d 0 true 0).1 :=
    getElem?_modify_eq_some.mpr ⟨d, hd, if_pos rfl⟩
  have hrun : Run (step dir) (start configured) ([.source j 0 true 0, .start] ++ List.replicate j .take)
      { s₁ with saver := .loop j } := by
    refine (run_append ..).mpr ⟨s₁, ?_, take_clean hclean rfl⟩
    simp [step, start, s₁]
  have hsaver : (take dir j { s₁ with saver := .loop j }).saver =
      .save {
        idx := j
        path := statePath dir d ""
        tmpPath := statePath dir d ".tmp"
        accum := (sourceUpdate d 0 true 0).1.accum
        lastRead := (sourceUpdate d 0 true 0).1.lastRead } := by
    simp only [take, hj, hdirty, if_true, statePath_congr hname]
  refine ⟨_, _, ((Reachable.of_init (start_init dir configured)).run hrun).next (a := .take) rfl, ?_, hsaver,
    rfl, rfl, rfl⟩
  unfold take
  split <;> rfl

/-- **State files are isolated** exactly if no counter is named like the temporary file of another one. -/
theorem state_files_isolated (dir : String) (cfgs : List CounterConf) (configured : List Counter)
    (hcfg : counterConfigure cfgs = some configured) (hnames : (configured.map (·.name)).Nodup) :
    Isolated dir configured ↔ ∀ c ∈ configured, ∀ d ∈ configured, c.name ≠ d.name ++ ".tmp" := by
  constructor
  · intro h c hc d hd heq
    obtain ⟨i, hi⟩ := List.mem_iff_getElem?.mp hc
    obtain ⟨j, hj⟩ := List.mem_iff_getElem?.mp hd
    have hij : j ≠ i := by
      rintro rfl
      obtain rfl : c = d := Option.some.inj (hi.symm.trans hj)
      have := congrArg String.length heq
      simp at this
    obtain ⟨s, x, hs, hfs, hsaver, hidx, htmp, hop⟩ := reaches_save dir hcfg hj
    have hpath : statePath dir c "" = x.tmpPath := by
      rw [htmp, statePath_inj, heq, String.append_empty]
    have hin : s.saver.InSave j := by
      rw [hsaver]
      exact hidx
    have hstep : step dir s (.op true []) =
        some { s with fs := s.fs.write x.tmpPath [], saver := .save { x with op := .write } } := by
      simp [step, hsaver, saveState, hop]
    have hkept := (h s hs i c hi).1 j _ _ hij hin hstep
    rw [hpath, hfs] at hkept
    simp at hkept
  · intro hsuffix s hs i c₀ hi
    have hown : ∀ j d, configured[j]? = some d → j ≠ i → Apart dir c₀ d := by
      intro j d hd hj
      constructor
      · rw [Ne, statePath_inj, String.append_empty, String.append_empty]
        intro heq
        have hlt : j < (configured.map (·.name)).length := by simpa using (List.getElem?_eq_some_iff.mp hd).1
        exact hj ((List.getElem?_inj hlt hnames).mp (by simp [hd, hi, heq]))
      · rw [Ne, statePath_inj, String.append_empty]
        exact hsuffix c₀ (List.mem_of_getElem? hi) d (List.mem_of_getElem? hd)
    obtain ⟨hinv, hkept⟩ := kept_reachable hcfg hi hown hs
    refine ⟨fun j a t hj hin hst => ?_, fun accum lastRead hsaved => ?_⟩
    · unfold Saver.InSave at hin
      split at hin
      · rename_i x hx
        subst hin
        obtain ⟨d, hd, hpath, htmp, -⟩ := hinv.save x hx
        have hapart := hown x.idx d hd hj
        apply hinv.frame hx hst
        · rw [hpath]
          exact hapart.path
        · rw [htmp]
          exact hapart.tmpPath
      · exact hin.elim
    · obtain ⟨ha, hr, hfs⟩ := hkept.saved accum lastRead hsaved
      exact ⟨_, hfs, loadState_stateText c₀ ha hr⟩

end Main

/-! Two counters, one named like the temporary file of the other. -/

def suffixConfs : List CounterConf := [meterConf, { title := "x.tmp", source := some "meter" }]

def apartConfs : List CounterConf := [meterConf, { title := "y", source := some "meter" }]

theorem state_files_isolated_example : Isolated "d" ((counterConfigure apartConfs).get (by decide +kernel)) :=
  (state_files_isolated "d" apartConfs _ (Option.some_get _).symm (by decide +kernel)).mpr (by decide +kernel)

def suffixed : List Counter := (counterConfigure suffixConfs).get (by decide +kernel)

def firstActs : List Act := [.source 1 5 true 0, .start, .take] ++ saveActs ++ [.take]

/-- The counter `x.tmp` has been saved. -/
def first : State := (firstActs.foldlM (step "d") (start suffixed)).get (by decide +kernel)

def secondActs : List Act := [.source 0 7 true 0, .start] ++ saveActs

/-- The counter `x` has been saved after it. -/
def second : State := (secondActs.foldlM (step "d") first).get (by decide +kernel)

/-- Saving `x` removes the state file of `x.tmp`. -/
theorem state_file_lost :
    (suffixed.map (·.name)).Nodup ∧ Init "d" suffixed (start suffixed) ∧
      Run (step "d") (start suffixed) firstActs first ∧ first.fs "d/x.tmp" = some (stateText 5 5) ∧
      first.saver = .idle ∧ Run (step "d") first secondActs second ∧ second.saved 1 = some (5, 5) ∧
      second.fs "d/x.tmp" = none :=
  ⟨by decide +kernel, start_init _ _, (Option.some_get _).symm, by decide +kernel, by decide +kernel,
    (Option.some_get _).symm, by decide +kernel, by decide +kernel⟩

end Uvrgw.Counters.Saving
