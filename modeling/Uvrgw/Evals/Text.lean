import Uvrgw.Evals.Functions
import Uvrgw.Evals.Inputs
import Uvrgw.Tinyexpr.Builtin
import Uvrgw.Tinyexpr.Names

/-!
# The text of an expression

What `compile_eval` gets for the text of a value: the tree over bare names, bound to the variables.
-/

namespace Uvrgw.Evals

open Tinyexpr

/-! ## The variable list -/

/-- `functions` of `eval.c`. -/
def evalFunctions : List (String × Callee Function) :=
  [("if", ⟨.user .fnIf, 3, true⟩), ("min", ⟨.user .fnMin, 2, true⟩), ("max", ⟨.user .fnMax, 2, true⟩),
    ("clamp", ⟨.user .fnClamp, 3, true⟩), ("hyst", ⟨.user .fnHyst, 4, true⟩)]

def functionVariables {V : Type} : List (TeVariable V Function) :=
  evalFunctions.map fun x => ⟨x.1.toList, .function x.2⟩

/-- `vars` of `compile_eval`: the variables in lookup order, then the functions. -/
def teVariables (vars : List (String × Nat)) : List (TeVariable Nat Function) :=
  vars.map (fun x => ⟨x.1.toList, .var x.2⟩) ++ functionVariables

/-- Every name that is not a function stands for itself. -/
def bareNames : Find String Function := fun name len =>
  (findName functionVariables name len).or (some (.var (String.ofList (name.take len))))

/-- A tree of tinyexpr. -/
def toTeExpr {V : Type} (C : Doubles Double Function) : Expr Double V Function → TeExpr V
  | .const value => .const value
  | .var bound => .var bound
  | .fn f parameters => .fn f.arity (fun x => C.call f.function (List.ofFn x)) fun i => toTeExpr C (parameters i)

/-- The tree that the grammar reads from a text. -/
def exprTree (C : Doubles Double Function) (text : List Char) : Option (TeExpr String) :=
  (compileWith C bareNames text).toOption.map (toTeExpr C)

section Tree

variable {V : Type} {C : Doubles Double Function}

theorem toTeExpr_eval (slots : V → Double) (e : Expr Double V Function) :
    (toTeExpr C e).eval slots = e.eval C slots := by
  induction e with
  | const value => rfl
  | var bound => rfl
  | fn f parameters ih =>
    change C.call f.function (List.ofFn fun i => (toTeExpr C (parameters i)).eval slots) = _
    rw [funext ih]
    rfl

theorem toTeExpr_vars (e : Expr Double V Function) : (toTeExpr C e).vars = e.vars := by
  induction e with
  | const value => rfl
  | var bound => rfl
  | fn f parameters ih =>
    change ((List.finRange f.arity).flatMap fun i => (toTeExpr C (parameters i)).vars) = _
    rw [funext ih, List.flatMap_def, ← List.ofFn_eq_map]
    rfl

theorem mem_vars_fn {f : Callee Function} {parameters : Fin f.arity → Expr Double V Function} {bound : V} :
    bound ∈ (Expr.fn f parameters).vars ↔ ∃ i, bound ∈ (parameters i).vars := by
  change bound ∈ (List.ofFn fun i => (parameters i).vars).flatten ↔ _
  simp [List.mem_flatten, List.mem_ofFn]

def binding (vars : List (String × Nat)) (name : String) : Option Nat := vars.lookup name

/-- Binding the names of the abstract tree. -/
theorem toTeExpr_compile (vars : List (String × Nat)) (e : Expr Double String Function) :
    (∀ name ∈ e.vars, (binding vars name).isSome = true) ∧
        (toTeExpr C e).compile vars = some (toTeExpr C (e.map (bound (binding vars)))) ∨
      (¬ ∀ name ∈ e.vars, (binding vars name).isSome = true) ∧ (toTeExpr C e).compile vars = none := by
  induction e with
  | const value => exact .inl ⟨by simp [Expr.vars], rfl⟩
  | var name =>
    cases hname : binding vars name with
    | none =>
      refine .inr ⟨fun h => ?_, by rw [toTeExpr, TeExpr.compile]; exact congrArg (Option.map _) hname⟩
      have := h name (List.mem_singleton.mpr rfl)
      rw [hname] at this
      cases this
    | some slot =>
      refine .inl ⟨fun other h => ?_, ?_⟩
      · rw [List.mem_singleton.mp h, hname]
        rfl
      · rw [toTeExpr, TeExpr.compile, Expr.map, bound, hname]
        exact congrArg (Option.map _) hname
  | fn f parameters ih =>
    by_cases hall : ∀ i, ∀ name ∈ (parameters i).vars, (binding vars name).isSome = true
    · left
      refine ⟨fun name hname => ?_, ?_⟩
      · obtain ⟨i, hi⟩ := mem_vars_fn.mp hname
        exact hall i name hi
      · have hparameters : ∀ i, (toTeExpr C (parameters i)).compile vars =
            some (toTeExpr C ((parameters i).map (bound (binding vars)))) := fun i =>
          ((ih i).resolve_right fun h => h.1 (hall i)).2
        rw [toTeExpr, TeExpr.compile, dif_pos fun i => by rw [hparameters i]; rfl]
        simp only [hparameters, Option.get_some]
        rfl
    · right
      refine ⟨fun h => hall fun i name hname => h name (mem_vars_fn.mpr ⟨i, hname⟩), ?_⟩
      rw [not_forall] at hall
      obtain ⟨i, hi⟩ := hall
      have hnone := ((ih i).resolve_left fun h => hi h.1).2
      rw [toTeExpr, TeExpr.compile, dif_neg]
      intro h
      have := h i
      rw [hnone] at this
      cases this

end Tree

/-! ## Names -/

def functionNames : List (List Char) := evalFunctions.map (·.1.toList)

theorem functionVariables_names (V : Type) : (functionVariables (V := V)).map (·.name) = functionNames := rfl

theorem functionNames_cString : ∀ name ∈ functionNames, CString name := by
  have hall : functionNames.all (·.all (0 < ·.toNat)) = true := by decide +kernel
  intro name hname c hc
  simpa using List.all_eq_true.mp (List.all_eq_true.mp hall name hname) c hc

theorem functionVariables_cString {V : Type} {var : TeVariable V Function} (h : var ∈ functionVariables) :
    CString var.name :=
  functionNames_cString _ (functionVariables_names V ▸ List.mem_map_of_mem h)

theorem functions_names : functions.map String.toList = builtinNames Function ++ functionNames := rfl

/-- `is_function`. -/
theorem isFunction_iff (name : List Char) : isFunction (String.ofList name) = true ↔
    name ∈ functionNames ∨ name ∈ builtinNames Function := by
  unfold isFunction
  rw [decide_eq_true_eq, or_comm, ← List.mem_append, ← functions_names, List.mem_map]
  constructor
  · intro h
    exact ⟨_, h, String.toList_ofList⟩
  · rintro ⟨other, hother, rfl⟩
    rwa [String.ofList_toList]

theorem findBuiltin_isSome {name : List Char} {len : Nat} (h : IsName name len) :
    (findBuiltin (U := Function) name len).isSome = true ↔ name.take len ∈ builtinNames Function := by
  simp only [Option.isSome_iff_exists, findBuiltin_name h]
  constructor
  · rintro ⟨f, entry, hentry, heq, -⟩
    exact List.mem_map.mpr ⟨entry, hentry, heq⟩
  · intro hmem
    obtain ⟨entry, hentry, heq⟩ := List.mem_map.mp hmem
    exact ⟨_, entry, hentry, heq, rfl⟩

theorem findLookup_functions {V : Type} {name : List Char} {len : Nat} (h : IsName name len) :
    (findLookup (functionVariables (V := V)) name len).isSome = true ↔ name.take len ∈ functionNames := by
  rw [findLookup_eq h fun var hvar => functionVariables_cString hvar, List.find?_isSome,
    ← functionVariables_names V, List.mem_map]
  simp only [decide_eq_true_eq]

/-- The functions are found, and nothing else is. -/
theorem findName_functions {V : Type} {name : List Char} {len : Nat} (h : IsName name len) :
    (findName (functionVariables (V := V)) name len).isSome = isFunction (String.ofList (name.take len)) := by
  rw [Bool.eq_iff_iff, isFunction_iff, ← findLookup_functions (V := V) h, ← findBuiltin_isSome h]
  unfold findName
  cases findLookup functionVariables name len with
  | none => simp
  | some var => simp

/-- The variable lists of `compile_eval`: no name is a function, and all are C strings. -/
structure Separate (vars : List (String × Nat)) : Prop where
  functions : ∀ x ∈ vars, isFunction x.1 = false
  cString : ∀ x ∈ vars, CString x.1.toList

theorem find_binding (vars : List (String × Nat)) (name : List Char) :
    ((vars.map fun x => (⟨x.1.toList, .var x.2⟩ : TeVariable Nat Function)).find? fun var => var.name = name).map
      (·.address) = (binding vars (String.ofList name)).map .var := by
  unfold binding
  induction vars with
  | nil => rfl
  | cons x vars ih =>
    rw [List.map_cons, List.find?_cons, List.lookup_cons]
    by_cases heq : x.1.toList = name
    · have hname : String.ofList name = x.1 := by rw [← heq, String.ofList_toList]
      simp [heq, hname]
    · have hname : String.ofList name ≠ x.1 := by
        intro h
        rw [← h, String.toList_ofList] at heq
        exact heq rfl
      rw [decide_eq_false heq, beq_eq_false_iff_ne.mpr hname]
      exact ih

/-- The functions are the same whatever the variables are bound to. -/
theorem findName_callee (name : List Char) (len : Nat) : ∃ callee : Option (Callee Function),
    ∀ V, findName (functionVariables (V := V)) name len = callee.map .function := by
  refine ⟨((evalFunctions.find? fun x => strncmp len name x.1.toList = 0 && (x.1.toList[len]?).isNone).map (·.2)).or
    (findBuiltin name len), fun V => ?_⟩
  unfold findName findLookup functionVariables
  rw [List.find?_map, Option.map_or, Option.map_map, Option.map_map]
  rfl

/-- `find_lookup` behind the variables: the functions, and the table of tinyexpr. -/
theorem findName_append {vars : List (String × Nat)} (h : Separate vars) {name : List Char} {len : Nat}
    (hname : IsName name len) : findName (teVariables vars) name len =
      ((binding vars (String.ofList (name.take len))).map .var).or (findName functionVariables name len) := by
  have hcString : ∀ var ∈ teVariables vars, CString var.name := by
    intro var hvar
    rcases List.mem_append.mp hvar with hvar | hvar
    · obtain ⟨x, hx, rfl⟩ := List.mem_map.mp hvar
      exact h.cString x hx
    · exact functionVariables_cString hvar
  unfold findName
  rw [findLookup_eq hname hcString, findLookup_eq hname fun var hvar => functionVariables_cString hvar, teVariables,
    List.find?_append, Option.map_or, find_binding, Option.or_assoc]

theorem not_function_of_binding {vars : List (String × Nat)} (h : Separate vars) {name : String} {slot : Nat}
    (hslot : binding vars name = some slot) : isFunction name = false := by
  obtain ⟨l₁, l₂, rfl, -⟩ := List.lookup_eq_some_iff.mp hslot
  exact h.functions (name, slot) (List.mem_append_right _ List.mem_cons_self)

theorem binds_names {vars : List (String × Nat)} (h : Separate vars) :
    Binds (binding vars) bareNames (findName (teVariables vars)) := by
  intro name len hname
  rw [findName_append h hname, bareNames]
  obtain ⟨callee, hcallee⟩ := findName_callee name len
  have hsome := findName_functions (V := String) hname
  rw [hcallee] at hsome ⊢
  rw [hcallee]
  cases hbinding : binding vars (String.ofList (name.take len)) with
  | none =>
    cases callee with
    | none => exact congrArg (Option.map Address.var) hbinding.symm
    | some f => rfl
  | some slot =>
    rw [not_function_of_binding h hbinding] at hsome
    cases callee with
    | none => exact (congrArg (Option.map Address.var) hbinding).symm
    | some f => cases hsome

/-! ## Compiling a text -/

variable (C : Doubles Double Function)

/-- **Text and tree.** What `te_compile` makes of a text with the variables of an eval is what the tree of the text
becomes when its names are bound; where a name is not bound, or the text is no expression, both fail. -/
theorem teCompile_eq {vars : List (String × Nat)} (h : Separate vars) (text : List Char) :
    (teCompile C (teVariables vars) text).toOption.map (toTeExpr C) =
      (exprTree C text).bind fun tree => tree.compile vars := by
  have hrename := compileWith_rename (C := C) (binds_names h) text
  unfold exprTree teCompile
  cases hbare : compileWith C bareNames text with
  | error pos =>
    cases hvars : compileWith C (findName (teVariables vars)) text with
    | error pos' => rfl
    | ok e' =>
      obtain ⟨e, he, -⟩ := (hrename e').mp hvars
      rw [hbare] at he
      cases he
  | ok e =>
    change _ = (toTeExpr C e).compile vars
    rcases toTeExpr_compile (C := C) vars e with ⟨hbound, htree⟩ | ⟨hbound, htree⟩
    · rw [htree, (hrename _).mpr ⟨e, hbare, hbound, rfl⟩]
      rfl
    · rw [htree]
      cases hvars : compileWith C (findName (teVariables vars)) text with
      | error pos' => rfl
      | ok e' =>
        obtain ⟨e₂, he₂, hbound₂, -⟩ := (hrename e').mp hvars
        rw [hbare] at he₂
        cases he₂
        exact absurd hbound₂ hbound

/-! ## `compile_eval` on texts -/

/-- The second loop of `compile_eval`, with the text of each value. -/
def compileTexts (vars : List (String × Nat)) (valuesCount : Nat) (cands : List String) :
    Nat → List (EvalVal × List Char) → WalkState → Option (List EvalVal × WalkState)
  | _, [], s => some ([], s)
  | own, (v, text) :: vs, s => do
    let expr ← (teCompile C (teVariables vars) text).toOption
    let s := walk valuesCount own cands (toTeExpr C expr) { s with vIns := v.ins, vRefs := v.refs }
    let v := { v with slot := 1 + own, expr := toTeExpr C expr, ins := s.vIns, refs := s.vRefs }
    let (vs, s) ← compileTexts vars valuesCount cands (own + 1) vs s
    return (v :: vs, s)

def compileEvalTexts (e : Eval) (texts : List (List Char)) (cands : List String) : Option Eval := do
  let (values, s) ← compileTexts C (varList e cands) e.values.length cands 0 (e.values.zip texts) {}
  return { e with
    slots := .fin 0 :: e.values.map (·.initValue) ++ List.replicate cands.length (.fin 0)
    ins := s.ins
    values := closeInputs s.ins.length values }

/-- The identifiers of a text that are no functions, in their order. -/
def textNames (text : List Char) : List String := (lex C bareNames text).filterMap Tok.bound?

/-- The tree of each value is the one of its text. -/
def Spells (e : Eval) (texts : List (List Char)) : Prop :=
  List.Forall₂ (fun v text => exprTree C text = some v.exprStr) e.values texts

theorem cString_validName {name : String} (h : validName name = true) : CString name.toList := by
  intro c hc
  by_contra hzero
  obtain rfl : c = Char.ofNat 0 := Char.ext (UInt32.toNat_inj.mp (Nat.eq_zero_of_not_pos hzero))
  unfold validName at h
  cases hname : name.toList with
  | nil =>
    rw [hname] at hc
    cases hc
  | cons d rest =>
    rw [hname] at h hc
    obtain ⟨hletter, hrest⟩ := Bool.and_eq_true_iff.mp h
    rcases List.mem_cons.mp hc with rfl | hc
    · exact absurd hletter (by decide)
    · exact absurd (List.all_eq_true.mp hrest _ hc) (by decide)

/-- What `value_configure` lets through as a name. -/
theorem configured_names {cfg : EvalConf} {e : Eval} (h : evalConfigureOne cfg = some e) :
    ∀ v ∈ e.values, validName v.name = true ∧ isFunction v.name = false := by
  intro v hv
  simp only [evalConfigureOne, Option.pure_def, Option.bind_eq_bind, Option.bind_eq_some_iff] at h
  obtain ⟨-, -, -, -, vs, hvs, -, -, h⟩ := h
  cases h
  obtain ⟨cfg, -, hcfg⟩ := Lib.mem_of_mapM hvs hv
  simp only [valueConfigure, Option.pure_def, Option.bind_eq_bind, Option.bind_eq_some_iff] at hcfg
  obtain ⟨_, hvalid, _, hfunction, _, -, _, -, hcfg⟩ := hcfg
  cases hcfg
  refine ⟨(Option.guard_eq_some' _).mp hvalid, ?_⟩
  simpa using ((Option.guard_eq_some' _).mp hfunction).2

theorem separate_varList {e : Eval} (h : ∀ v ∈ e.values, validName v.name = true ∧ isFunction v.name = false)
    (cands : List String) : Separate (varList e cands) := by
  have hall : ∀ x ∈ varList e cands, x.1 = "dt" ∨ validName x.1 = true ∧ isFunction x.1 = false := by
    intro x hx
    unfold varList at hx
    rcases List.mem_append.mp hx with hx | hx
    · rcases List.mem_cons.mp hx with rfl | hx
      · exact .inl rfl
      · obtain ⟨i, hi, rfl⟩ := List.mem_mapIdx.mp hx
        exact .inr (h _ (List.getElem_mem hi))
    · have hcand := (List.mem_filter.mp hx).2
      simp only [Bool.and_eq_true, Bool.not_eq_true'] at hcand
      exact .inr ⟨hcand.1.1.1, hcand.1.2⟩
  constructor
  · intro x hx
    rcases hall x hx with hdt | hname
    · rw [hdt]
      decide
    · exact hname.2
  · intro x hx
    rcases hall x hx with hdt | hname
    · rw [hdt]
      exact cString_validName (by decide)
    · exact cString_validName hname.1

theorem teCompile_spelled {vars : List (String × Nat)} (h : Separate vars) {text : List Char} {tree : TeExpr String}
    (htree : exprTree C text = some tree) :
    (teCompile C (teVariables vars) text).toOption.map (toTeExpr C) = tree.compile vars := by
  rw [teCompile_eq C h, htree]
  rfl

theorem compileTexts_eq {vars : List (String × Nat)} (h : Separate vars) (n : Nat) (cands : List String)
    {vs : List EvalVal} {texts : List (List Char)}
    (hspells : List.Forall₂ (fun v text => exprTree C text = some v.exprStr) vs texts) (own : Nat) (s : WalkState) :
    compileTexts C vars n cands own (vs.zip texts) s = compileValues vars n cands own vs s := by
  induction hspells generalizing own s with
  | nil => rfl
  | cons htext _ ih =>
    rw [List.zip_cons_cons, compileTexts, compileValues, ← teCompile_spelled C h htext]
    cases teCompile C (teVariables vars) _ with
    | error pos => rfl
    | ok e =>
      simp only [Except.toOption, Option.map_some, Option.bind_eq_bind, Option.bind_some, ih]

/-- The names of a text are the variables of its tree. -/
theorem exprTree_vars {text : List Char} {tree : TeExpr String} (h : exprTree C text = some tree) :
    tree.vars = textNames C text := by
  unfold exprTree at h
  cases hcompile : compileWith C bareNames text with
  | error pos =>
    rw [hcompile] at h
    cases h
  | ok e =>
    rw [hcompile] at h
    cases h
    obtain ⟨ts, a, hlex, hts, rfl⟩ := compileWith_iff.mp hcompile
    rw [toTeExpr_vars, Expr.optimize_vars, sentence_vars hts, textNames, hlex, List.filterMap_append]
    exact (List.append_nil _).symm

theorem compile_binding {vars : List (String × Nat)} {tree : TeExpr String} {expr : TeExpr Nat}
    (h : tree.compile vars = some expr) : expr.vars.map some = tree.vars.map (binding vars) := by
  induction tree generalizing expr with
  | const value =>
    cases h
    rfl
  | var name =>
    obtain ⟨slot, hslot, rfl⟩ := Option.map_eq_some_iff.mp h
    exact congrArg (fun x => [x]) hslot.symm
  | fn arity function parameters ih =>
    simp only [TeExpr.compile, Option.dite_none_right_eq_some, Option.some.injEq] at h
    obtain ⟨hall, rfl⟩ := h
    simp only [TeExpr.vars, List.map_flatMap]
    exact List.flatMap_congr fun i _ => ih i (Option.some_get (hall i)).symm

theorem compileValues_exprs {vars : List (String × Nat)} {n : Nat} {cands : List String} (vs : List EvalVal)
    (own : Nat) (s : WalkState) (vs' : List EvalVal) (s' : WalkState)
    (h : compileValues vars n cands own vs s = some (vs', s')) :
    List.Forall₂ (fun v v' => v.exprStr.compile vars = some v'.expr) vs vs' := by
  induction vs generalizing own s vs' with
  | nil =>
    cases h
    exact .nil
  | cons v vs ih =>
    simp only [compileValues, Option.pure_def, Option.bind_eq_bind, Option.bind_eq_some_iff] at h
    obtain ⟨expr, hexpr, ⟨vs₁, s₁⟩, hrest, heq⟩ := h
    cases heq
    exact .cons hexpr (ih _ _ _ hrest)

theorem compileEval_exprs {e e' : Eval} {cands : List String} (h : compileEval e cands = some e') :
    List.Forall₂ (fun v v' => v.exprStr.compile (varList e cands) = some v'.expr) e.values e'.values := by
  simp only [compileEval, Option.pure_def, Option.bind_eq_bind, Option.bind_eq_some_iff] at h
  obtain ⟨⟨vs, s⟩, hvs, heq⟩ := h
  cases heq
  obtain ⟨hlen, hget⟩ := List.forall₂_iff_get.mp (compileValues_exprs _ _ _ _ _ hvs)
  refine List.forall₂_iff_get.mpr ⟨by simpa [closeInputs] using hlen, fun i h₁ h₂ => ?_⟩
  have := hget i h₁ (hlen ▸ h₁)
  simpa [closeInputs] using this

/-- **`compile_eval` on texts.** On the texts of the values `compile_eval` does what it does on their trees, and
a compiled value reads the slots that the names of its text are bound to, in their order, and makes of them what
`te_eval` makes of its compiled text. -/
theorem compileEval_texts (cfg : EvalConf) (e₀ : Eval) (texts : List (List Char)) (cands : List String)
    (hconf : evalConfigureOne cfg = some e₀) (hspells : Spells C e₀ texts) :
    compileEvalTexts C e₀ texts cands = compileEval e₀ cands ∧
      ∀ e, compileEval e₀ cands = some e →
        List.Forall₂ (fun v text => v.expr.vars.map some = (textNames C text).map (binding (varList e₀ cands)) ∧
          ∃ n, teCompile C (teVariables (varList e₀ cands)) text = .ok n ∧
            ∀ slots, v.expr.eval slots = n.eval C slots)
          e.values texts := by
  have hsep := separate_varList (configured_names hconf) cands
  refine ⟨?_, fun e he => ?_⟩
  · unfold compileEvalTexts compileEval
    rw [compileTexts_eq C hsep _ _ hspells]
  · obtain ⟨hlen₁, hget₁⟩ := List.forall₂_iff_get.mp hspells
    obtain ⟨hlen₂, hget₂⟩ := List.forall₂_iff_get.mp (compileEval_exprs he)
    refine List.forall₂_iff_get.mpr ⟨hlen₂.symm.trans hlen₁, fun i h₁ h₂ => ?_⟩
    have htree := hget₁ i (hlen₂ ▸ h₁) h₂
    have hexpr := hget₂ i (hlen₂ ▸ h₁) h₁
    have hspelled := (teCompile_spelled C hsep htree).trans hexpr
    obtain ⟨n, hn, hexpr'⟩ := Option.map_eq_some_iff.mp hspelled
    have hok : teCompile C (teVariables (varList e₀ cands)) texts[i] = .ok n := by
      cases hcompile : teCompile C (teVariables (varList e₀ cands)) texts[i] with
      | error pos => simp [hcompile, Except.toOption] at hn
      | ok n' => simpa [hcompile, Except.toOption] using hn
    refine ⟨by rw [compile_binding hexpr, exprTree_vars C htree], n, hok, fun slots => ?_⟩
    rw [← hexpr', toTeExpr_eval]

/-- `value v { expr = "x" }`. -/
def copyConf : EvalConf where
  title := "e"
  values := [{ title := "v", expr := some (.var "x") }]

theorem compileEval_texts_example :
    ∃ e₀ e, evalConfigureOne copyConf = some e₀ ∧ compileEvalTexts bareDoubles e₀ ["x".toList] ["x"] = some e ∧
      List.Forall₂ (fun v text =>
        v.expr.vars.map some = (textNames bareDoubles text).map (binding (varList e₀ ["x"])) ∧
        ∃ n, teCompile bareDoubles (teVariables (varList e₀ ["x"])) text = .ok n ∧
          ∀ slots, v.expr.eval slots = n.eval bareDoubles slots) e.values ["x".toList] := by
  obtain ⟨htexts, hvars⟩ := compileEval_texts bareDoubles copyConf _ ["x".toList] ["x"] rfl (.cons rfl .nil)
  exact ⟨_, _, rfl, htexts.trans rfl, hvars _ rfl⟩

end Uvrgw.Evals
