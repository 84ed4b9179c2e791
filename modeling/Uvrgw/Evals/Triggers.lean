import Mathlib.Data.Option.Basic
import Uvrgw.Evals.Inputs

/-! # Triggers of evals (`eval.c`) -/

namespace Uvrgw.Evals

open Uvrgw.Lib

/-! ## Configuration -/

/-- `setup_triggers`, without the registrations. `triggers` are the configured ones and `names` are
those of all dispatchers. -/
def setupTriggers (e : Eval) (triggers names : List String) : Option Eval := do
  if 0 < e.period then return e
  let explicitTriggers := !triggers.isEmpty
  if explicitTriggers then
    guard (triggers.all fun name => (e.findValue name).isNone && name ∈ names)
    guard triggers.Nodup
    return { e with triggers := triggers, explicitTriggers := explicitTriggers }
  else
    guard (!e.ins.isEmpty)
    return { e with triggers := e.ins.map (·.disp), explicitTriggers := explicitTriggers }

/-- What pass 2 of `eval_configure` does for one eval. -/
def evalConfigureTwo (names : List String) (e : Eval) (triggers : List String) : Option Eval := do
  guard (e.values.all fun v => !(v.isLocal && v.name ∈ names))
  let e ← compileEval e names
  setupTriggers e triggers names

/-! ## Cycles -/

/-- `eval_of`, for the name of the dispatcher. -/
def evalOf (evals : List Eval) (name : String) : Option Nat :=
  evals.findIdx? fun e => e.values.any fun v => v.disp = some name

/-- `triggered_by`: eval `b` by a value of eval `a`. -/
def triggeredBy (evals : List Eval) (b a : Nat) : Bool :=
  match evals[b]? with
  | some e => e.triggers.any fun name => evalOf evals name = some a
  | none => false

inductive Visit where
  | unseen
  | onPath
  | done
  deriving DecidableEq, Repr

/-- `visit`. The error is the cycle from the first eval back to it, or `none` when the recursion is
deeper than `fuel`. -/
def visit (evals : List Eval) : Nat → Nat → List Nat → (Nat → Visit) → Except (Option (List Nat)) (Nat → Visit)
  | 0, _, _, _ => .error none
  | fuel + 1, e, path, marks => do
    let path := path ++ [e]
    let marks ← (List.range evals.length).foldlM
      (fun marks b =>
        if marks b = .done ∨ ¬ triggeredBy evals b e then pure marks
        else if marks b = .unseen then visit evals fuel b path marks
        else throw (some (path.dropWhile (· ≠ b) ++ [b])))
      (Function.update marks e .onPath)
    return Function.update marks e .done

def checkCycles (evals : List Eval) : Except (Option (List Nat)) (Nat → Visit) :=
  (List.range evals.length).foldlM
    (fun marks e => if marks e = .unseen then visit evals (evals.length + 1) e [] marks else pure marks)
    (fun _ => .unseen)

/-! ## What the triggers are -/

theorem setupTriggers_spec {e e' : Eval} {triggers names : List String}
    (h : setupTriggers e triggers names = some e') :
    e' = { e with triggers := e'.triggers, explicitTriggers := e'.explicitTriggers } ∧
      (e.period ≤ 0 → (e'.explicitTriggers = true →
          ∀ name ∈ e'.triggers, e.findValue name = none ∧ name ∈ names) ∧
        (e'.explicitTriggers = false → e'.triggers = e.ins.map (·.disp))) ∧
      (0 < e.period → e' = e) := by
  unfold setupTriggers at h
  split at h
  · cases h
    exact ⟨rfl, fun hp => by omega, fun _ => rfl⟩
  rename_i hp
  dsimp only at h
  split at h
  · rename_i hexp
    simp only [Option.pure_def, Option.bind_eq_bind, Option.bind_eq_some_iff] at h
    obtain ⟨_, hguard, -, -, h⟩ := h
    cases h
    refine ⟨rfl, fun _ => ⟨fun _ name hname => ?_, fun hf => by simp [hexp] at hf⟩, fun h => absurd h hp⟩
    have hall := (Option.guard_eq_some' _).mp hguard
    simpa using List.all_eq_true.mp hall name hname
  · rename_i hexp
    simp only [Option.pure_def, Option.bind_eq_bind, Option.bind_eq_some_iff] at h
    obtain ⟨-, -, h⟩ := h
    cases h
    exact ⟨rfl, fun _ => ⟨fun ht => absurd ht hexp, fun _ => rfl⟩, fun h => absurd h hp⟩

/-- An eval after both passes. -/
structure Configured (names : List String) (e₀ e : Eval) : Prop where
  compiled : Compiled e names
  inputs : Inputs e names
  slots : e.slots.length = 1 + e.values.length + names.length
  values : e.values.map (fun v => (v.name, v.disp, v.isLocal, v.initValue)) =
    e₀.values.map fun v => (v.name, v.disp, v.isLocal, v.initValue)
  name : e.name = e₀.name
  idle : e.period = e₀.period ∧ e.pending = e₀.pending
  period : 0 < e.period → e.triggers = []
  foreign : ∀ name ∈ e.triggers, e.findValue name = none ∧ name ∈ names
  /-- A published value has the name of its dispatcher. -/
  published : ∀ v ∈ e.values, ∀ name, v.disp = some name → name = v.name
  default : e.period ≤ 0 → e.explicitTriggers = false → e.triggers = e.ins.map (·.disp)

theorem configured {cfg : EvalConf} {names triggers : List String} {e₀ e : Eval}
    (h₀ : evalConfigureOne cfg = some e₀) (h : evalConfigureTwo names e₀ triggers = some e) :
    Configured names e₀ e := by
  obtain ⟨hfresh, htrig, -⟩ := configured_ins h₀
  have hins : ∀ v ∈ e₀.values, v.ins = [] := fun v hv => (hfresh v hv).1
  simp only [evalConfigureTwo, Option.bind_eq_bind, Option.bind_eq_some_iff] at h
  obtain ⟨-, -, e₁, hcomp, hset⟩ := h
  obtain ⟨heq, hslots, hvals⟩ := compileEval_values hcomp
  obtain ⟨heq', htrigs, hper⟩ := setupTriggers_spec hset
  have hc := compileEval_compiled hins hcomp
  have hi := compileEval_inputs hcomp
  have hlen : e₁.values.length = e₀.values.length := by simpa using congrArg List.length hvals
  have hperiod : e₁.period = e₀.period := by rw [heq]
  have hname : e₁.name = e₀.name := by rw [heq]
  have hpend : e₁.pending = e₀.pending := by rw [heq]
  have htrig₁ : e₁.triggers = [] := by rw [heq]; exact htrig
  have hforeign : ∀ i ∈ e₁.ins, e₁.findValue i.disp = none ∧ i.disp ∈ names := fun i hm =>
    ⟨(hi.outside i hm).2.2, List.mem_of_getElem? (hi.outside i hm).2.1⟩
  rw [heq']
  refine
    { compiled := ⟨hc.walked, hc.closed⟩
      inputs := ⟨hi.outside, hi.distinct⟩
      slots := hlen ▸ hslots
      values := hvals
      name := hname
      idle := ⟨hperiod, hpend⟩
      period := fun hp => by rw [hper hp]; exact htrig₁
      foreign := fun name hm => ?_
      published := fun v hv name hname => ?_
      default := fun hp => (htrigs hp).2 }
  · by_cases hp : 0 < e₁.period
    · rw [hper hp, htrig₁] at hm
      cases hm
    · obtain ⟨hexp, hdef⟩ := htrigs (by omega)
      cases hx : e.explicitTriggers with
      | true => exact hexp hx name hm
      | false =>
        simp only [hdef hx, List.mem_map] at hm
        obtain ⟨i, hi, rfl⟩ := hm
        exact hforeign i hi
  · -- names and dispatchers of the values are those of the first pass
    have hmem : (v.name, v.disp, v.isLocal, v.initValue) ∈
        e₀.values.map fun v => (v.name, v.disp, v.isLocal, v.initValue) :=
      hvals ▸ List.mem_map.mpr ⟨v, hv, rfl⟩
    obtain ⟨w, hw, heq⟩ := List.mem_map.mp hmem
    simp only [Prod.mk.injEq] at heq
    exact heq.1 ▸ (hfresh w hw).2 name (heq.2.1.trans hname)

/-- The dispatchers of the inputs are different ones. -/
theorem Inputs.nodup {e : Eval} {names : List String} (h : Inputs e names) (hnames : names.Nodup) :
    (e.ins.map (·.disp)).Nodup := by
  rw [List.nodup_iff_getElem?_ne_getElem?]
  intro k k' hlt hk' heq
  rw [List.length_map] at hk'
  rw [List.getElem?_map, List.getElem?_map, List.getElem?_eq_getElem (hlt.trans hk'), List.getElem?_eq_getElem hk',
    Option.map_some, Option.map_some, Option.some.injEq] at heq
  obtain ⟨hslot, hname, -⟩ := h.outside _ (List.getElem_mem (hlt.trans hk'))
  obtain ⟨hslot', hname', -⟩ := h.outside _ (List.getElem_mem hk')
  rw [heq] at hname
  obtain ⟨hidx, hget⟩ := List.getElem?_eq_some_iff.mp hname
  obtain ⟨hidx', hget'⟩ := List.getElem?_eq_some_iff.mp hname'
  have hsame := (hnames.getElem_inj_iff).mp (hget.trans hget'.symm)
  have := h.distinct k k' _ _ (List.getElem?_eq_getElem (hlt.trans hk')) (List.getElem?_eq_getElem hk') (by omega)
  omega

/-- No dispatcher is a trigger of an eval twice. -/
theorem evalConfigureTwo_nodup {names triggers : List String} {e₀ e : Eval} (hnames : names.Nodup)
    (h₀ : e₀.triggers = []) (h : evalConfigureTwo names e₀ triggers = some e) : e.triggers.Nodup := by
  simp only [evalConfigureTwo, Option.bind_eq_bind, Option.bind_eq_some_iff] at h
  obtain ⟨-, -, e₁, hcomp, hset⟩ := h
  unfold setupTriggers at hset
  split at hset
  · cases hset
    rw [(compileEval_values hcomp).1]
    dsimp only
    rw [h₀]
    exact List.nodup_nil
  · dsimp only at hset
    split at hset
    · simp only [Option.pure_def, Option.bind_eq_bind, Option.bind_eq_some_iff, Option.guard_eq_some'] at hset
      obtain ⟨-, -, -, hnodup, hset⟩ := hset
      cases hset
      exact hnodup
    · simp only [Option.pure_def, Option.bind_eq_bind, Option.bind_eq_some_iff] at hset
      obtain ⟨-, -, hset⟩ := hset
      cases hset
      exact (compileEval_inputs hcomp).nodup hnames

theorem Configured.names {names : List String} {e₀ e : Eval} (h : Configured names e₀ e) :
    e.values.map (·.name) = e₀.values.map (·.name) := by
  simpa [Function.comp_def] using congrArg (List.map Prod.fst) h.values

end Uvrgw.Evals
