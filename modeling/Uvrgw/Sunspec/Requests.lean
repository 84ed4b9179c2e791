import Mathlib.Logic.Function.Basic
import Uvrgw.Sunspec.Image

/-!
# Requests with an invalid source (`update_image`)

`update_image` once more, source by source. What a failed read leaves behind is used until `invalid` is looked
at, after all reads.
-/

namespace Uvrgw.Sunspec

/-! ## Reading -/

/-- The variables of `update_image` that `src_get` sets. -/
structure Locals where
  has : Src → Bool := fun _ => false
  val : Src → ℚ := fun _ => 0
  invalid : Option String := none

section Reading

variable (m : Meter) (read : Src → ℚ × Bool)

/-- A call of `src_get`. -/
def getSource (l : Locals) (s : Src) : Locals :=
  let r := srcGet (m.src s) (read s) 0 l.invalid
  { has := Function.update l.has s r.1, val := Function.update l.val s r.2.1, invalid := r.2.2 }

end Reading

/-- In the order of the loop over the phases. -/
def Src.phases : List Src := (List.finRange 3).flatMap fun ph => Quantity.all.map (.phase ph)

/-- Totals and averages of the phases. -/
def sums (has : Src → Bool) (ph : Fin 3 → PhaseVals) : PhaseVals :=
  let hasV (i : Fin 3) : Bool := has (.phase i .voltage)
  { current := sumPhases fun i => (ph i).current
    voltage := meanPhases hasV fun i => (ph i).voltage
    voltagePp := meanPhases (fun i => hasV i && hasV (i + 1)) fun i => (ph i).voltagePp
    power := sumPhases fun i => (ph i).power
    apparentPower := sumPhases fun i => (ph i).apparentPower
    reactivePower := sumPhases fun i => (ph i).reactivePower
    energyImp := sumPhases fun i => (ph i).energyImp
    energyExp := sumPhases fun i => (ph i).energyExp }

/-- What `update_image` logs. -/
inductive Report where
  | unavailable (meter value : String)
  | available (meter : String)
  deriving DecidableEq, Repr

structure Update where
  meter : Meter
  ret : Int
  reports : List Report

/-- `update_image`. `read s` is what `uvrgw_conf_get_val` gives when source `s` is read. -/
def updateSteps (math : Math) (m : Meter) (read : Src → ℚ × Bool) : Update :=
  let l := Src.phases.foldl (getSource m read) {}
  let ph := phases math l.has l.val
  let tot := sums l.has ph
  let l := getSource m read l .power
  let tot := if l.has .power then { tot with power := l.val .power } else tot
  let l := getSource m read l .energyImp
  let tot := if l.has .energyImp then { tot with energyImp := l.val .energyImp } else tot
  let l := getSource m read l .energyExp
  let tot := if l.has .energyExp then { tot with energyExp := l.val .energyExp } else tot
  let l := getSource m read l .frequency
  let tot := if 0 < tot.apparentPower then { tot with pf := tot.power / tot.apparentPower } else tot
  match l.invalid with
  | some value =>
    { meter := { m with unavailable := true }
      ret := -1
      reports := if m.unavailable then [] else [.unavailable m.name value] }
  | none =>
    { meter := { m with unavailable := false, regs := writeImage math m tot ph (l.val .frequency) m.regs }
      ret := 0
      reports := if m.unavailable then [.available m.name] else [] }

/-! ## The first invalid source -/

/-- Source `s` is configured, and has no valid value when it is read. -/
def Invalid (m : Meter) (read : Src → ℚ × Bool) (s : Src) : Prop := (m.src s).isSome = true ∧ (read s).2 = false

instance (m : Meter) (read : Src → ℚ × Bool) : DecidablePred (Invalid m read) := fun s =>
  inferInstanceAs (Decidable ((m.src s).isSome = true ∧ (read s).2 = false))

/-- Source `s` is the first invalid one in the order of reading. -/
def FirstInvalid (m : Meter) (read : Src → ℚ × Bool) (s : Src) : Prop :=
  ∃ before after, Src.all = before ++ s :: after ∧ Invalid m read s ∧ ∀ s' ∈ before, ¬ Invalid m read s'

section Reads

variable {m : Meter} {read : Src → ℚ × Bool}

theorem getSource_invalid (l : Locals) (s : Src) :
    (getSource m read l s).invalid = if l.invalid = none ∧ Invalid m read s then m.src s else l.invalid := by
  have hget : (getSource m read l s).invalid = (srcGet (m.src s) (read s) 0 l.invalid).2.2 := rfl
  rw [hget]
  unfold srcGet
  by_cases hs : Invalid m read s
  · obtain ⟨name, hname⟩ := Option.isSome_iff_exists.mp hs.1
    cases l.invalid <;> simp [hname, hs, hs.2]
  · rw [if_neg fun h => hs h.2]
    split
    · rfl
    · rename_i name hname
      have hr : (read s).2 = true := by
        by_contra hr
        exact hs ⟨by simp [hname], by simpa using hr⟩
      simp [hr]

theorem foldl_invalid_of_some {l : Locals} {name : String} (h : l.invalid = some name) (srcs : List Src) :
    (srcs.foldl (getSource m read) l).invalid = some name := by
  induction srcs generalizing l with
  | nil => exact h
  | cons s srcs ih =>
    refine ih ?_
    rw [getSource_invalid, h, if_neg (by simp)]

/-- `invalid` is the name of the first invalid source. -/
theorem foldl_invalid {l : Locals} (h : l.invalid = none) (srcs : List Src) :
    (srcs.foldl (getSource m read) l).invalid = (srcs.find? fun s => Invalid m read s).bind m.src := by
  induction srcs generalizing l with
  | nil => exact h
  | cons s srcs ih =>
    have hstep : (getSource m read l s).invalid = _ := getSource_invalid l s
    by_cases hs : Invalid m read s
    · obtain ⟨name, hname⟩ := Option.isSome_iff_exists.mp hs.1
      rw [if_pos ⟨h, hs⟩, hname] at hstep
      rw [List.foldl_cons, foldl_invalid_of_some hstep, List.find?_cons_of_pos (by simpa using hs)]
      exact hname.symm
    · rw [if_neg fun hn => hs hn.2, h] at hstep
      rw [List.foldl_cons, ih hstep, List.find?_cons_of_neg (by simpa using hs)]

theorem foldl_invalidAfter (srcs : List Src) (l : Locals) :
    (srcs.foldl (getSource m read) l).invalid = invalidAfter m read srcs l.invalid := by
  unfold invalidAfter
  induction srcs generalizing l with
  | nil => rfl
  | cons s srcs ih => exact ih (getSource m read l s)

/-- What `src_get` finds does not depend on the reads before. -/
theorem foldl_got (srcs : List Src) (l : Locals) (s : Src) :
    (srcs.foldl (getSource m read) l).has s =
        (if s ∈ srcs then (srcGet (m.src s) (read s) 0 none).1 else l.has s) ∧
      (srcs.foldl (getSource m read) l).val s =
        if s ∈ srcs then (srcGet (m.src s) (read s) 0 none).2.1 else l.val s := by
  have hget : ∀ invalid, (srcGet (m.src s) (read s) 0 invalid).1 = (srcGet (m.src s) (read s) 0 none).1 ∧
      (srcGet (m.src s) (read s) 0 invalid).2.1 = (srcGet (m.src s) (read s) 0 none).2.1 := by
    intro invalid
    unfold srcGet
    split
    · exact ⟨rfl, rfl⟩
    · split <;> exact ⟨rfl, rfl⟩
  induction srcs generalizing l with
  | nil => simp
  | cons s' srcs ih =>
    obtain ⟨hhas, hval⟩ := ih (getSource m read l s')
    rw [List.foldl_cons, hhas, hval]
    by_cases hin : s ∈ srcs
    · simp [hin]
    · by_cases hs : s = s'
      · subst hs
        simp [getSource, hin, hget]
      · simp [getSource, hin, hs]

theorem foldl_has {srcs : List Src} (l : Locals) {s : Src} (hs : s ∈ srcs) :
    (srcs.foldl (getSource m read) l).has s = (srcGet (m.src s) (read s) 0 none).1 := by
  rw [(foldl_got srcs l s).1, if_pos hs]

theorem foldl_val {srcs : List Src} (l : Locals) {s : Src} (hs : s ∈ srcs) :
    (srcs.foldl (getSource m read) l).val s = (srcGet (m.src s) (read s) 0 none).2.1 := by
  rw [(foldl_got srcs l s).2, if_pos hs]

theorem getSource_has (l : Locals) (s : Src) :
    (getSource m read l s).has s = (srcGet (m.src s) (read s) 0 none).1 := foldl_has l (List.mem_singleton_self s)

theorem getSource_val (l : Locals) (s : Src) :
    (getSource m read l s).val s = (srcGet (m.src s) (read s) 0 none).2.1 := foldl_val l (List.mem_singleton_self s)

end Reads

/-! ## The update -/

section Update

variable (math : Math) (m : Meter) (read : Src → ℚ × Bool)

/-- The explicitly given totals override the sums. -/
theorem totals_eq (has : Src → Bool) (val : Src → ℚ) : totals math has val =
    let tot := sums has (phases math has val)
    let tot := if has .power then { tot with power := val .power } else tot
    let tot := if has .energyImp then { tot with energyImp := val .energyImp } else tot
    let tot := if has .energyExp then { tot with energyExp := val .energyExp } else tot
    if 0 < tot.apparentPower then { tot with pf := tot.power / tot.apparentPower } else tot := by
  unfold totals sums
  cases has .power <;> cases has .energyImp <;> cases has .energyExp <;>
    simp only [Bool.false_eq_true, if_true, if_false] <;> split_ifs <;> rfl

/-- All reads of `update_image`. -/
def allReads : Locals := Src.all.foldl (getSource m read) {}

theorem allReads_eq : allReads m read =
    getSource m read (getSource m read (getSource m read (getSource m read
      (Src.phases.foldl (getSource m read) {}) .power) .energyImp) .energyExp) .frequency := by
  have hall : Src.all = Src.phases ++ [.power, .energyImp, .energyExp, .frequency] := rfl
  unfold allReads
  rw [hall, List.foldl_append]
  rfl

theorem mem_phases (i : Fin 3) (q : Quantity) : Src.phase i q ∈ Src.phases := by
  refine List.mem_flatMap.mpr ⟨i, List.mem_finRange i, List.mem_map.mpr ⟨q, ?_, rfl⟩⟩
  cases q <;> decide

theorem phases_congr {has has' : Src → Bool} {val val' : Src → ℚ}
    (hhas : ∀ i q, has (.phase i q) = has' (.phase i q)) (hval : ∀ i q, val (.phase i q) = val' (.phase i q)) :
    phases math has val = phases math has' val' := by
  unfold phases
  simp only [hhas, hval]

theorem sums_congr {has has' : Src → Bool} (hhas : ∀ i q, has (.phase i q) = has' (.phase i q))
    (ph : Fin 3 → PhaseVals) : sums has ph = sums has' ph := by
  unfold sums
  simp only [hhas]

/-- The computation between the reads is that of `updateMapping`. -/
theorem updateSteps_eq : updateSteps math m read =
    match (allReads m read).invalid with
    | some value =>
      { meter := { m with unavailable := true }
        ret := -1
        reports := if m.unavailable then [] else [.unavailable m.name value] }
    | none =>
      { meter := (updateMapping math m read).1
        ret := 0
        reports := if m.unavailable then [.available m.name] else [] } := by
  have hphases : phases math (Src.phases.foldl (getSource m read) {}).has
      (Src.phases.foldl (getSource m read) {}).val =
      phases math (fun s => (srcGet (m.src s) (read s) 0 none).1) fun s => (srcGet (m.src s) (read s) 0 none).2.1 :=
    phases_congr math (fun i q => foldl_has {} (mem_phases i q)) fun i q => foldl_val {} (mem_phases i q)
  have hsums : ∀ ph, sums (Src.phases.foldl (getSource m read) {}).has ph =
      sums (fun s => (srcGet (m.src s) (read s) 0 none).1) ph :=
    sums_congr fun i q => foldl_has {} (mem_phases i q)
  have hafter : (allReads m read).invalid = invalidAfter m read Src.all none := foldl_invalidAfter Src.all {}
  have hfrequency : (allReads m read).val .frequency = (srcGet (m.src .frequency) (read .frequency) 0 none).2.1 :=
    foldl_val {} (Src.mem_all _)
  unfold updateSteps
  dsimp only
  rw [← allReads_eq]
  cases hinv : (allReads m read).invalid with
  | some value => rfl
  | none =>
    have hnone : ¬ (invalidAfter m read Src.all none).isSome = true := by
      rw [← hafter, hinv]
      simp
    unfold updateMapping
    dsimp only
    rw [if_neg hnone, totals_eq, hphases, hsums, hfrequency]
    simp only [getSource_has, getSource_val]

end Update

/-! ## Main result -/

/-- **A request fails as a whole.** It fails exactly if a configured source is invalid; the log names the first one
in the order of reading, and the registers stay. -/
theorem update_atomic (math : Math) (m : Meter) (read : Src → ℚ × Bool) :
    ((updateSteps math m read).ret = -1 ↔ ∃ s, Invalid m read s) ∧
      ((updateSteps math m read).ret = -1 → (updateSteps math m read).meter.regs = m.regs ∧
        ∃ s name, FirstInvalid m read s ∧ m.src s = some name ∧
          (updateSteps math m read).reports = if m.unavailable then [] else [.unavailable m.name name]) := by
  have hfirst : (allReads m read).invalid = (Src.all.find? fun s => Invalid m read s).bind m.src :=
      foldl_invalid rfl _
  rw [updateSteps_eq]
  cases hfind : Src.all.find? fun s => Invalid m read s with
  | none =>
    have hnone : ¬ ∃ s, Invalid m read s := by
      rintro ⟨s, hs⟩
      have := List.find?_eq_none.mp hfind s s.mem_all
      exact this (by simpa using hs)
    rw [hfirst, hfind]
    simp [hnone]
  | some s =>
    obtain ⟨hs, before, after, hsplit, hbefore⟩ := List.find?_eq_some_iff_append.mp hfind
    have hinvalid : Invalid m read s := by simpa using hs
    obtain ⟨name, hname⟩ := Option.isSome_iff_exists.mp hinvalid.1
    rw [hfirst, hfind, Option.bind_some, hname]
    refine ⟨iff_of_true rfl ⟨s, hinvalid⟩, fun _ => ⟨rfl, s, name, ⟨before, after, hsplit, hinvalid, ?_⟩, hname, rfl⟩⟩
    intro s' hs'
    simpa using hbefore s' hs'

end Uvrgw.Sunspec
