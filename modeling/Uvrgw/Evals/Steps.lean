import Uvrgw.Evals.Triggers

/-!
# An evaluation in steps

The thread reads one input after the other, and the sources do not wait for it.
-/

namespace Uvrgw.Evals

open Uvrgw.Lib

/-- One turn of the first loop of `evaluate`: input number `k`. -/
def Eval.refreshOne (e : Eval) (k : Nat) (i : EvalIn) (read : Double × Bool) : Eval :=
  { e with
    slots := e.slots.set i.slot read.1
    ins := e.ins.set k { i with valid := read.2 } }

/-- The second loop of `evaluate`. -/
def Eval.compute (e : Eval) (now : Int) : Eval :=
  let (values, slots) := evalValues now e.ins e.values e.slots
  { e with values := values, slots := slots }

/-- The numbers and flags that an evaluation works with. -/
def Eval.snapshot (e : Eval) : List (Double × Bool) :=
  e.ins.map fun i => (e.slots.getD i.slot .nan, i.valid)

/-- What configuration decides and no step changes. -/
def Eval.config (e : Eval) : List String × Bool × Int × List (String × Nat) × List (Option String × Nat) × Nat :=
  (e.triggers, e.explicitTriggers, e.period, e.ins.map fun i => (i.disp, i.slot),
    e.values.map fun v => (v.disp, v.slot), e.slots.length)

/-! ## The steps alone are `evaluate` -/

theorem refresh_steps (reads : String → Double × Bool) (ins : List EvalIn) (done : List EvalIn) (e : Eval)
    (h : e.ins = done ++ ins) :
    (ins.zipIdx done.length).foldl (fun e x => e.refreshOne x.2 x.1 (reads x.1.disp)) e =
      { e with
        ins := done ++ (refresh reads ins e.slots).1
        slots := (refresh reads ins e.slots).2 } := by
  induction ins generalizing done e with
  | nil =>
    rw [List.append_nil] at h
    simp [refresh, ← h]
  | cons i ins ih =>
    rw [List.zipIdx_cons, List.foldl_cons]
    have hins : (e.refreshOne done.length i (reads i.disp)).ins =
        (done ++ [{ i with valid := (reads i.disp).2 }]) ++ ins := by
      simp [Eval.refreshOne, h]
    have hrest := ih (done ++ [{ i with valid := (reads i.disp).2 }]) (e.refreshOne done.length i (reads i.disp)) hins
    rw [List.length_append, List.length_singleton] at hrest
    rw [hrest]
    simp [Eval.refreshOne, refresh]

theorem evaluate_steps (e : Eval) (now : Int) (reads : String → Double × Bool) :
    evaluate e now reads =
      (e.ins.zipIdx.foldl (fun e x => e.refreshOne x.2 x.1 (reads x.1.disp)) e).compute now := by
  have hrefresh := refresh_steps reads e.ins [] e rfl
  rw [List.length_nil] at hrefresh
  rw [hrefresh]
  rfl

/-! ## Slots -/

/-- No two inputs share a slot, and no own value writes one of theirs. -/
structure Eval.Fit (e : Eval) : Prop where
  bound : ∀ i ∈ e.ins, i.slot < e.slots.length ∧ i.slot ≠ 0
  own : ∀ v ∈ e.values, ∀ i ∈ e.ins, v.slot ≠ i.slot
  distinct : (e.ins.map (·.slot)).Nodup

theorem Configured.fit {names : List String} {e₀ e : Eval} (h : Configured names e₀ e) : e.Fit where
  bound := fun i hi => by
    obtain ⟨hn, hc, -⟩ := h.inputs.outside i hi
    have hlt := (List.getElem?_eq_some_iff.mp hc).1
    have hlen := h.slots
    exact ⟨by omega, by omega⟩
  own := fun v hv i hi => by
    obtain ⟨k, hk⟩ := List.mem_iff_getElem?.mp hv
    have hslot := (h.compiled.walked k v hk).slot
    have hlt := (List.getElem?_eq_some_iff.mp hk).1
    have hn := (h.inputs.outside i hi).1
    omega
  distinct := by
    rw [List.nodup_iff_injective_get]
    intro a b hab
    simp only [List.get_eq_getElem, List.getElem_map] at hab
    have ha := a.isLt
    have hb := b.isLt
    simp only [List.length_map] at ha hb
    exact Fin.ext (h.inputs.distinct a b _ _ (List.getElem?_eq_getElem ha) (List.getElem?_eq_getElem hb) hab)

theorem Eval.Fit.of_config {e e' : Eval} (h : e.Fit) (hc : e'.config = e.config) : e'.Fit := by
  simp only [Eval.config, Prod.mk.injEq] at hc
  obtain ⟨-, -, -, hins, hvals, hlen⟩ := hc
  have hin : ∀ i ∈ e'.ins, ∃ j ∈ e.ins, j.slot = i.slot := by
    intro i hi
    have hmem : (i.disp, i.slot) ∈ e.ins.map fun i => (i.disp, i.slot) := hins ▸ List.mem_map.mpr ⟨i, hi, rfl⟩
    obtain ⟨j, hj, heq⟩ := List.mem_map.mp hmem
    exact ⟨j, hj, (Prod.mk.inj heq).2⟩
  have hval : ∀ v ∈ e'.values, ∃ w ∈ e.values, w.slot = v.slot := by
    intro v hv
    have hmem : (v.disp, v.slot) ∈ e.values.map fun v => (v.disp, v.slot) := hvals ▸ List.mem_map.mpr ⟨v, hv, rfl⟩
    obtain ⟨w, hw, heq⟩ := List.mem_map.mp hmem
    exact ⟨w, hw, (Prod.mk.inj heq).2⟩
  refine ⟨fun i hi => ?_, fun v hv i hi => ?_, ?_⟩
  · obtain ⟨j, hj, heq⟩ := hin i hi
    rw [hlen, ← heq]
    exact h.bound j hj
  · obtain ⟨j, hj, heq⟩ := hin i hi
    obtain ⟨w, hw, heq'⟩ := hval v hv
    rw [← heq, ← heq']
    exact h.own w hw j hj
  · have hslots : e'.ins.map (·.slot) = e.ins.map (·.slot) := by
      simpa [Function.comp_def] using congrArg (List.map Prod.snd) hins
    exact hslots ▸ h.distinct

/-! ## What the steps do to the snapshot -/

theorem evalValues_slots (now : Int) (ins : List EvalIn) (vs : List EvalVal) (slots : List Double) :
    (evalValues now ins vs slots).2.length = slots.length ∧
      ∀ slot, slot ≠ 0 → (∀ v ∈ vs, v.slot ≠ slot) →
        (evalValues now ins vs slots).2.getD slot .nan = slots.getD slot .nan := by
  induction vs generalizing slots with
  | nil => exact ⟨rfl, fun _ _ _ => rfl⟩
  | cons v vs ih =>
    obtain ⟨hlen, hget⟩ := ih (evalValue now ins slots v).2
    simp only [evalValues]
    refine ⟨hlen.trans ?_, fun slot h0 hv => (hget slot h0 fun w hw => hv w (List.mem_cons_of_mem _ hw)).trans ?_⟩
    · simp only [evalValue]
      split <;> simp
    · have hne := hv v List.mem_cons_self
      simp only [evalValue, List.getD_eq_getElem?_getD]
      split <;> simp [Ne.symm h0, hne]

theorem refreshOne_config (e : Eval) {k : Nat} {i : EvalIn} (read : Double × Bool) (hk : e.ins[k]? = some i) :
    (e.refreshOne k i read).config = e.config := by
  have hins : (e.ins.set k { i with valid := read.2 }).map (fun i => (i.disp, i.slot)) =
      e.ins.map fun i => (i.disp, i.slot) := by
    obtain ⟨hlt, rfl⟩ := List.getElem?_eq_some_iff.mp hk
    rw [List.map_set]
    refine List.ext_getElem (by simp) fun j hj hj' => ?_
    rw [List.getElem_set]
    split
    · subst_vars
      simp
    · rfl
  simp only [Eval.config, Eval.refreshOne, hins, List.length_set]

theorem compute_config (e : Eval) (now : Int) : (e.compute now).config = e.config := by
  have hvals : ∀ (vs : List EvalVal) (slots : List Double),
      (evalValues now e.ins vs slots).1.map (fun v => (v.disp, v.slot)) = vs.map fun v => (v.disp, v.slot) := by
    intro vs
    induction vs with
    | nil => intro _; rfl
    | cons v vs ih =>
      intro slots
      simp only [evalValues, List.map_cons, ih]
      rfl
  simp only [Eval.config, Eval.compute, hvals, (evalValues_slots now e.ins e.values e.slots).1]

theorem snapshot_refreshOne {e : Eval} (h : e.Fit) {k : Nat} {i : EvalIn} (read : Double × Bool)
    (hk : e.ins[k]? = some i) (j : Nat) :
    (e.refreshOne k i read).snapshot[j]? = if j = k then some read else e.snapshot[j]? := by
  obtain ⟨hlt, rfl⟩ := List.getElem?_eq_some_iff.mp hk
  have hb := (h.bound _ (List.getElem_mem hlt)).1
  simp only [Eval.snapshot, Eval.refreshOne, List.getElem?_map]
  split
  · subst_vars
    simp [hlt, hb]
  · rename_i hne
    rw [List.getElem?_set_ne (Ne.symm hne)]
    cases hj : e.ins[j]? with
    | none => rfl
    | some i' =>
      obtain ⟨hlt', rfl⟩ := List.getElem?_eq_some_iff.mp hj
      have hslot : e.ins[k].slot ≠ e.ins[j].slot := by
        intro heq
        rw [← List.getElem_map EvalIn.slot (h := by simpa using hlt),
          ← List.getElem_map EvalIn.slot (h := by simpa using hlt')] at heq
        exact hne ((List.Nodup.getElem_inj_iff h.distinct).mp heq).symm
      simp [List.getD_eq_getElem?_getD, List.getElem?_set_ne hslot]

theorem snapshot_compute {e : Eval} (h : e.Fit) (now : Int) : (e.compute now).snapshot = e.snapshot := by
  refine List.map_congr_left fun i hi => ?_
  have hi' : i ∈ e.ins := hi
  obtain ⟨-, hget⟩ := evalValues_slots now e.ins e.values e.slots
  simp only [Eval.compute]
  rw [hget i.slot (h.bound i hi').2 fun v hv => h.own v hv i hi']

end Uvrgw.Evals
