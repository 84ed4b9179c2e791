import Mathlib.Data.Fin.VecNotation
import Mathlib.Data.List.FinRange
import Mathlib.Data.List.OfFn
import Mathlib.Logic.Function.Basic
import Uvrgw.Lib.Saturate
import Uvrgw.Number

/-!
# Calculated values (`eval.c`)

An expression is the tree that the tinyexpr grammar reads from its text; only the meaning of its
names is resolved here. Names of dispatchers stand for the dispatchers.
-/

namespace Uvrgw.Evals

open Uvrgw.Lib

/-! ## Expressions -/

/-- `te_expr`, with `α` for what a variable is bound to. -/
inductive TeExpr (α : Type) where
  | const (value : Double)
  | var (bound : α)
  | fn (arity : Nat) (function : (Fin arity → Double) → Double) (parameters : Fin arity → TeExpr α)

namespace TeExpr

/-- A function of two parameters, as the operators are. -/
def binary {α : Type} (function : Double → Double → Double) (a b : TeExpr α) : TeExpr α :=
  fn 2 (fun x => function (x 0) (x 1)) ![a, b]

/-- `te_eval`. -/
def eval {α : Type} (slots : α → Double) : TeExpr α → Double
  | const value => value
  | var bound => slots bound
  | fn _ function parameters => function fun i => (parameters i).eval slots

def vars {α : Type} : TeExpr α → List α
  | const _ => []
  | var bound => [bound]
  | fn arity _ parameters => (List.finRange arity).flatMap fun i => (parameters i).vars

/-- `te_compile`, with the variable list in lookup order. -/
def compile (vars : List (String × Nat)) : TeExpr String → Option (TeExpr Nat)
  | const value => some (const value)
  | var name => (vars.lookup name).map var
  | fn arity function parameters =>
    if h : ∀ i, ((parameters i).compile vars).isSome then
      some (fn arity function fun i => ((parameters i).compile vars).get (h i))
    else none

end TeExpr

/-- `divide` of tinyexpr. -/
def divide : Double → Double → Double
  | .nan, _ | _, .nan | .inf _, .inf _ => .nan
  | .inf s, .fin b => .inf (s ^^ b < 0)
  | .fin _, .inf _ => .fin 0
  | .fin a, .fin b => if b ≠ 0 then .fin (a / b) else if a = 0 then .nan else .inf (a < 0)

/-- `add` of tinyexpr. -/
def add : Double → Double → Double
  | .nan, _ | _, .nan => .nan
  | .inf s, .inf t => if s = t then .inf s else .nan
  | .inf s, .fin _ | .fin _, .inf s => .inf s
  | .fin a, .fin b => .fin (a + b)

/-- The names that `is_function` knows: the built-in ones of tinyexpr, then those of `eval.c`. -/
def functions : List String :=
  ["abs", "acos", "asin", "atan", "atan2", "ceil", "cos", "cosh", "e", "exp", "fac", "floor", "ln",
    "log", "log10", "ncr", "npr", "pi", "pow", "sin", "sinh", "sqrt", "tan", "tanh",
    "if", "min", "max", "clamp", "hyst"]

def isFunction (name : String) : Bool := name ∈ functions

def isLetter (c : Char) : Bool := ('A' ≤ c && c ≤ 'Z') || ('a' ≤ c && c ≤ 'z')

def validName (name : String) : Bool :=
  match name.toList with
  | [] => false
  | c :: rest => isLetter c && rest.all fun c => isLetter c || ('0' ≤ c && c ≤ '9') || c == '_'

/-! ## Data -/

structure EvalVal where
  name : String
  /-- `expr_str`, read by the grammar of tinyexpr. -/
  exprStr : TeExpr String
  isLocal : Bool := false
  initValue : Double := .fin 0
  /-- NULL before `compile_eval`, which `te_eval` reads as NaN. -/
  expr : TeExpr Nat := .const .nan
  slot : Nat := 0
  /-- The dispatcher, if the value is not local. -/
  disp : Option String := none
  ins : List Nat := []
  refs : List Nat := []
  valid : Bool := false
  hasLast : Bool := false
  lastTs : Int := 0
  notFinite : Bool := false

structure EvalIn where
  disp : String
  slot : Nat
  valid : Bool := false
  deriving DecidableEq, Repr

structure Eval where
  name : String
  /-- 0 is triggered. -/
  period : Int := 0
  values : List EvalVal
  ins : List EvalIn := []
  triggers : List String := []
  explicitTriggers : Bool := false
  slots : List Double := []
  pending : Bool := false
  next : Int := 0

def Eval.findValue (e : Eval) (name : String) : Option EvalVal := e.values.find? (·.name = name)

/-! ## Configuration -/

structure EvalValConf where
  title : String
  expr : Option (TeExpr String) := none
  isLocal : Bool := false
  initValue : Double := .fin 0

structure EvalConf where
  title : String
  period : Option Int := none
  triggers : List String := []
  values : List EvalValConf := []

/-- `value_configure`, without the registration of the dispatcher. -/
def valueConfigure (cfg : EvalValConf) : Option EvalVal := do
  guard (validName cfg.title)
  guard (cfg.title ≠ "dt" ∧ ¬ isFunction cfg.title)
  let exprStr ← cfg.expr
  guard cfg.initValue.isfinite
  return {
    name := cfg.title
    exprStr := exprStr
    isLocal := cfg.isLocal
    initValue := cfg.initValue
    disp := if cfg.isLocal then none else some cfg.title }

/-- `eval_configure_one`, with the values that `value_configure` made. -/
def evalConfigureOne (cfg : EvalConf) : Option Eval := do
  guard (cfg.period.all (0 < ·))
  guard (cfg.period.isSome → cfg.triggers = [])
  let values ← cfg.values.mapM valueConfigure
  guard (¬ values.isEmpty)
  return { name := cfg.title, period := cfg.period.getD 0, values := values }

/-! ## Dependencies -/

def addIndex (list : List Nat) (idx : Nat) : List Nat := if idx ∈ list then list else list ++ [idx]

/-- What `walk` writes: the fields of `DEP_CTX_T` and of the eval and the value it points to. -/
structure WalkState where
  candIns : Nat → Option Nat := fun _ => none
  ins : List EvalIn := []
  vIns : List Nat := []
  vRefs : List Nat := []

/-- `walk` at a variable, for value number `own` of an eval with `valuesCount` values. -/
def walkVar (valuesCount own : Nat) (cands : List String) (slot : Nat) (s : WalkState) : WalkState :=
  if slot = 0 then s
  else if slot ≤ valuesCount then
    if slot - 1 = own then s else { s with vRefs := addIndex s.vRefs (slot - 1) }
  else
    let cand := slot - 1 - valuesCount
    match s.candIns cand with
    | some k => { s with vIns := addIndex s.vIns k }
    | none =>
      { s with
        candIns := Function.update s.candIns cand (some s.ins.length)
        ins := s.ins ++ [{ disp := cands.getD cand "", slot := slot }]
        vIns := addIndex s.vIns s.ins.length }

def walk (valuesCount own : Nat) (cands : List String) : TeExpr Nat → WalkState → WalkState
  | .const _, s => s
  | .var slot, s => walkVar valuesCount own cands slot s
  | .fn arity _ parameters, s =>
    (List.finRange arity).foldl (fun s i => walk valuesCount own cands (parameters i) s) s

/-- The lists `v->ins` while `close_inputs` fills them, and its flag `changed`. -/
abbrev Closing := (Nat → List Nat) × Bool

/-- The innermost statement of `close_inputs`. -/
def closeIndex (v : Nat) (s : Closing) (j : Nat) : Closing :=
  let list := addIndex (s.1 v) j
  (Function.update s.1 v list, s.2 || (list.length != (s.1 v).length))

/-- One pass of `close_inputs` over all values. -/
def closePass (valuesCount : Nat) (refs : Nat → List Nat) (ins : Nat → List Nat) : Closing :=
  (List.range valuesCount).foldl
    (fun s v => (refs v).foldl (fun s r => (s.1 r).foldl (closeIndex v) s) s) (ins, false)

def insOf (values : List EvalVal) (idx : Nat) : List Nat := (values[idx]?.map (·.ins)).getD []

def refsOf (values : List EvalVal) (idx : Nat) : List Nat := (values[idx]?.map (·.refs)).getD []

/-- `close_inputs`. A pass that changes something adds one of `insCount` indices to one of the
lists, so the number of passes has a bound. -/
def closeInputs (insCount : Nat) (values : List EvalVal) : List EvalVal :=
  let closed :=
    saturate (closePass values.length (refsOf values)) (values.length * insCount) (insOf values)
  values.mapIdx fun idx v => { v with ins := closed idx }

/-! ## Compilation -/

/-- The variable list of `compile_eval`: dt, own values, outside values. -/
def varList (e : Eval) (cands : List String) : List (String × Nat) :=
  ("dt", 0) :: e.values.mapIdx (fun idx v => (v.name, 1 + idx)) ++
    (cands.mapIdx fun idx name => (name, 1 + e.values.length + idx)).filter fun x =>
      validName x.1 && x.1 != "dt" && !isFunction x.1 && (e.findValue x.1).isNone

/-- The second loop of `compile_eval`: compile and walk one value after the other. -/
def compileValues (vars : List (String × Nat)) (valuesCount : Nat) (cands : List String) :
    Nat → List EvalVal → WalkState → Option (List EvalVal × WalkState)
  | _, [], s => some ([], s)
  | own, v :: vs, s => do
    let expr ← v.exprStr.compile vars
    let s := walk valuesCount own cands expr { s with vIns := v.ins, vRefs := v.refs }
    let v := { v with slot := 1 + own, expr := expr, ins := s.vIns, refs := s.vRefs }
    let (vs, s) ← compileValues vars valuesCount cands (own + 1) vs s
    return (v :: vs, s)

/-- `compile_eval`; `cands` are the names of all dispatchers. -/
def compileEval (e : Eval) (cands : List String) : Option Eval := do
  let (values, s) ← compileValues (varList e cands) e.values.length cands 0 e.values {}
  return { e with
    slots := .fin 0 :: e.values.map (·.initValue) ++ List.replicate cands.length (.fin 0)
    ins := s.ins
    values := closeInputs s.ins.length values }

/-! ## Evaluation -/

/-- The first loop of `evaluate`. -/
def refresh (reads : String → Double × Bool) :
    List EvalIn → List Double → List EvalIn × List Double
  | [], slots => ([], slots)
  | i :: ins, slots =>
    let (f, valid) := reads i.disp
    let (ins, slots) := refresh reads ins (slots.set i.slot f)
    ({ i with valid := valid } :: ins, slots)

/-- `dt` of a value. -/
def EvalVal.dt (v : EvalVal) (now : Int) : Double :=
  if v.hasLast then .fin ((now - v.lastTs : ℤ) / 1000) else .fin 0

/-- The body of the second loop of `evaluate`. -/
def evalValue (now : Int) (ins : List EvalIn) (slots : List Double) (v : EvalVal) :
    EvalVal × List Double :=
  let slots := slots.set 0 (v.dt now)
  let r := v.expr.eval fun slot => slots.getD slot .nan
  let finite := r.isfinite
  ({ v with
      notFinite := !finite
      valid := finite && v.ins.all fun i => (ins[i]?.map (·.valid)).getD false
      hasLast := finite
      lastTs := if finite then now else v.lastTs },
    if finite then slots.set v.slot r else slots)

def evalValues (now : Int) (ins : List EvalIn) :
    List EvalVal → List Double → List EvalVal × List Double
  | [], slots => ([], slots)
  | v :: vs, slots =>
    let (v, slots) := evalValue now ins slots v
    let (vs, slots) := evalValues now ins vs slots
    (v :: vs, slots)

/-- `evaluate` up to the last loop; `reads` is what `uvrgw_conf_get_val` gives for each name. -/
def evaluate (e : Eval) (now : Int) (reads : String → Double × Bool) : Eval :=
  let (ins, slots) := refresh reads e.ins e.slots
  let (values, slots) := evalValues now ins e.values slots
  { e with ins := ins, values := values, slots := slots }

/-- The last loop of `evaluate`: the dispatches, in order. -/
def published (e : Eval) : List (String × Double × Bool) :=
  e.values.filterMap fun v => v.disp.map (·, e.slots.getD v.slot .nan, v.valid)

end Uvrgw.Evals
