import Uvrgw.Evals.Inputs
import Uvrgw.Lib.Run

/-! # Validity of calculated values -/

namespace Uvrgw.Evals

open Uvrgw.Lib

/-! ## One evaluation -/

/-- A value without the fields that an evaluation changes. -/
def EvalVal.config (v : EvalVal) : EvalVal :=
  { v with valid := false, hasLast := false, lastTs := 0, notFinite := false }

theorem EvalVal.config_fields {v w : EvalVal} (h : v.config = w.config) :
    v.expr = w.expr ∧ v.slot = w.slot ∧ v.ins = w.ins ∧ v.refs = w.refs := by
  simp only [config, EvalVal.mk.injEq] at h
  simp [h]

theorem refresh_ins (reads : String → Double × Bool) (ins : List EvalIn) (slots : List Double) :
    (refresh reads ins slots).1 = ins.map fun i => { i with valid := (reads i.disp).2 } := by
  induction ins generalizing slots with
  | nil => rfl
  | cons i ins ih => simp [refresh, ih]

theorem evalValues_config (now : Int) (ins : List EvalIn) (vs : List EvalVal) (slots : List Double) :
    (evalValues now ins vs slots).1.map (·.config) = vs.map (·.config) := by
  induction vs generalizing slots with
  | nil => rfl
  | cons v vs ih =>
    simp only [evalValues, List.map_cons, ih, List.cons.injEq, and_true]
    rfl

theorem evalValues_valid (now : Int) (ins : List EvalIn) (vs : List EvalVal) (slots : List Double) :
    ∀ v ∈ (evalValues now ins vs slots).1,
      v.valid = (!v.notFinite && v.ins.all fun i => (ins[i]?.map (·.valid)).getD false) := by
  induction vs generalizing slots with
  | nil => simp [evalValues]
  | cons v vs ih =>
    intro w hw
    simp only [evalValues, List.mem_cons] at hw
    rcases hw with rfl | hw
    · simp [evalValue]
    · exact ih _ w hw

section Evaluate

variable (e : Eval) (now : Int) (reads : String → Double × Bool)

@[simp] theorem evaluate_ins :
    (evaluate e now reads).ins = e.ins.map fun i => { i with valid := (reads i.disp).2 } :=
  refresh_ins reads e.ins e.slots

theorem evaluate_config :
    (evaluate e now reads).values.map (·.config) = e.values.map (·.config) :=
  evalValues_config ..

theorem evaluate_get {i : Nat} {v : EvalVal} (h : (evaluate e now reads).values[i]? = some v) :
    ∃ w, e.values[i]? = some w ∧ v.config = w.config := by
  have hc := congrArg (·[i]?) (evaluate_config e now reads)
  simp only [List.getElem?_map, h, Option.map_some] at hc
  obtain ⟨w, hw, hwc⟩ := Option.map_eq_some_iff.mp hc.symm
  exact ⟨w, hw, hwc.symm⟩

theorem evaluate_valid {i : Nat} {v : EvalVal} (h : (evaluate e now reads).values[i]? = some v) :
    v.valid = true ↔ v.notFinite = false ∧
      ∀ k ∈ v.ins, ∃ x, e.ins[k]? = some x ∧ (reads x.disp).2 = true := by
  have hv := evalValues_valid now (evaluate e now reads).ins e.values _ v (List.mem_of_getElem? h)
  rw [hv, Bool.and_eq_true, Bool.not_eq_true', List.all_eq_true]
  refine and_congr_right fun _ => forall₂_congr fun k _ => ?_
  cases hk : e.ins[k]? <;> simp [hk]

theorem Compiled.evaluate {e : Eval} {cands : List String} (h : Compiled e cands) :
    Compiled (evaluate e now reads) cands := by
  have hlen : (Evals.evaluate e now reads).values.length = e.values.length := by
    simpa using congrArg List.length (evaluate_config e now reads)
  constructor
  · intro i v hv
    obtain ⟨w, hw, hc⟩ := evaluate_get e now reads hv
    obtain ⟨hexpr, hslot, hins, hrefs⟩ := EvalVal.config_fields hc
    obtain ⟨hws, hwl, hwi⟩ := h.walked i w hw
    refine ⟨hslot.trans hws, fun slot hs => ?_, by simpa [hins] using hwi⟩
    obtain ⟨hown, hout⟩ := hwl slot (hexpr ▸ hs)
    rw [hlen]
    refine ⟨by simpa [hrefs] using hown, fun hn => ?_⟩
    obtain ⟨k, hk, x, hx, hd⟩ := hout hn
    exact ⟨k, hins ▸ hk, { x with valid := (reads x.disp).2 }, by simp [hx], hd⟩
  · intro i r v w hv hr hw
    obtain ⟨v', hv', hvc⟩ := evaluate_get e now reads hv
    obtain ⟨w', hw', hwc⟩ := evaluate_get e now reads hw
    obtain ⟨-, -, hvi, hvr⟩ := EvalVal.config_fields hvc
    obtain ⟨-, -, hwi, -⟩ := EvalVal.config_fields hwc
    rw [hvi, hwi]
    exact h.closed i r v' w' hv' (hvr ▸ hr) hw'

end Evaluate

/-! ## What a value depends on -/

/-- Own value number `i` reads the outside value `name`, directly or through other own values. -/
inductive DependsOn (e : Eval) (cands : List String) : Nat → String → Prop where
  | outside (i slot : Nat) (v : EvalVal) : e.values[i]? = some v → slot ∈ v.expr.vars →
      e.values.length < slot → DependsOn e cands i (cands.getD (slot - 1 - e.values.length) "")
  | own (i slot : Nat) (v : EvalVal) (name : String) : e.values[i]? = some v → slot ∈ v.expr.vars →
      slot ≠ 0 → slot ≤ e.values.length → DependsOn e cands (slot - 1) name → DependsOn e cands i name

theorem Compiled.dependsOn {e : Eval} {cands : List String} (h : Compiled e cands) {i : Nat}
    {name : String} (hd : DependsOn e cands i name) :
    ∀ v, e.values[i]? = some v → ∃ k ∈ v.ins, ∃ x, e.ins[k]? = some x ∧ x.disp = name := by
  induction hd with
  | outside i slot w hw hslot hn =>
    intro v hv
    obtain rfl := Option.some.inj (hw.symm.trans hv)
    obtain ⟨k, hk, x, hx, hdisp, -⟩ := ((h.walked i w hw).listed slot hslot).2 hn
    exact ⟨k, hk, x, hx, hdisp⟩
  | own i slot w name hw hslot h0 hn _ ih =>
    intro v hv
    obtain rfl := Option.some.inj (hw.symm.trans hv)
    have hlt : slot - 1 < e.values.length := by omega
    obtain ⟨k, hk, hx⟩ := ih _ (List.getElem?_eq_getElem hlt)
    by_cases hself : slot - 1 = i
    · subst hself
      obtain rfl := Option.some.inj ((List.getElem?_eq_getElem hlt).symm.trans hv)
      exact ⟨k, hk, hx⟩
    · have hr := ((h.walked i w hw).listed slot hslot).1 h0 hn hself
      exact ⟨k, h.closed i (slot - 1) w _ hw hr (List.getElem?_eq_getElem hlt) hk, hx⟩

/-! ## Runs -/

/-- One evaluation in the life of an eval: its clock reading and what the names hold. -/
def evalStep (e : Eval) (a : Int × (String → Double × Bool)) : Option Eval :=
  some (evaluate e a.1 a.2)

theorem run_compiled {cfg : EvalConf} {cands : List String} {e₀ e₁ e : Eval}
    {l : List (Int × (String → Double × Bool))} (hconf : evalConfigureOne cfg = some e₀)
    (hcomp : compileEval e₀ cands = some e₁) (hrun : Run evalStep e₁ l e) : Compiled e cands :=
  hrun.invariant (I := fun e => Compiled e cands)
    (fun _ a _ h hst => Option.some.inj hst ▸ h.evaluate a.1 a.2)
    (compileEval_compiled (fun v hv => ((configured_ins hconf).1 v hv).1) hcomp)

/-- **Validity inside an eval.** A value that reads a value above it is valid only if all that the
latter depends on is valid, and only if its own result is finite. So the value above it is valid
too, unless the result of that one was not finite: it keeps its number, and that is not inherited. -/
theorem validity_inherited (cfg : EvalConf) (cands : List String) (e₀ e₁ e : Eval)
    (l : List (Int × (String → Double × Bool))) (hconf : evalConfigureOne cfg = some e₀)
    (hcomp : compileEval e₀ cands = some e₁) (hrun : Run evalStep e₁ l e) (now : Int)
    (reads : String → Double × Bool) (r v : Nat) (x y : EvalVal) (hrv : r < v)
    (hr : (evaluate e now reads).values[r]? = some x) (hv : (evaluate e now reads).values[v]? = some y)
    (hread : 1 + r ∈ y.expr.vars) (hvalid : y.valid = true) :
    y.notFinite = false ∧
    (∀ name, DependsOn (evaluate e now reads) cands r name → (reads name).2 = true) ∧
    (x.valid = true ↔ x.notFinite = false) := by
  have hc := run_compiled hconf hcomp hrun
  have hc' := hc.evaluate now reads
  obtain ⟨hfin, hins⟩ := (evaluate_valid e now reads hv).mp hvalid
  have hlen := (List.getElem?_eq_some_iff.mp hr).1
  have href : r ∈ y.refs := by
    have := ((hc'.walked v y hv).listed (1 + r) hread).1 (by omega) (by omega) (by omega)
    simpa using this
  have hsub := hc'.closed v r y x hv href hr
  refine ⟨hfin, fun name hd => ?_, ?_⟩
  · obtain ⟨k, hk, i, hi, rfl⟩ := hc'.dependsOn hd x hr
    obtain ⟨i', hi', hval⟩ := hins k (hsub hk)
    simp only [evaluate_ins, List.getElem?_map, hi', Option.map_some, Option.some.injEq] at hi
    exact hi ▸ hval
  · rw [evaluate_valid e now reads hr]
    exact and_iff_left fun k hk => hins k (hsub hk)

/-- `value r { expr = "1 / x" }` and `value v { expr = "r + 1" }`. -/
def exampleConf : EvalConf where
  title := "e"
  values :=
    [{ title := "r", expr := some (.binary divide (.const (.fin 1)) (.var "x")) },
      { title := "v", expr := some (.binary add (.var "r") (.const (.fin 1))) }]

theorem validity_inherited_example :
    ∃ e₀ e₁ x, evalConfigureOne exampleConf = some e₀ ∧ compileEval e₀ ["x"] = some e₁ ∧
      (evaluate e₁ 0 fun _ => (.fin 1, true)).values[0]? = some x ∧
      (x.valid = true ↔ x.notFinite = false) := by
  have h := validity_inherited exampleConf ["x"] _ _ _ [] rfl rfl ((run_nil _ _).mpr rfl) 0
    (fun _ => (.fin 1, true)) 0 1 _ _ (by decide) rfl rfl (by decide) rfl
  exact ⟨_, _, _, rfl, rfl, rfl, h.2.2⟩

/-- With `x = 0` the result of `r` is infinite, and `v` is valid. -/
theorem validity_not_inherited :
    ¬ ∀ (cfg : EvalConf) (cands : List String) (e₀ e₁ e : Eval)
      (l : List (Int × (String → Double × Bool))) (now : Int) (reads : String → Double × Bool)
      (r v : Nat) (x y : EvalVal), evalConfigureOne cfg = some e₀ → compileEval e₀ cands = some e₁ →
      Run evalStep e₁ l e → r < v → (evaluate e now reads).values[r]? = some x →
      (evaluate e now reads).values[v]? = some y → 1 + r ∈ y.expr.vars → y.valid = true →
      x.valid = true := by
  intro h
  have := h exampleConf ["x"] _ _ _ [] 0 (fun _ => (.fin 0, true)) 0 1 _ _ rfl rfl
    ((run_nil _ _).mpr rfl) (by decide) rfl rfl (by decide) rfl
  exact absurd this (by decide)

end Uvrgw.Evals
