import Mathlib.Data.Fin.VecNotation
import Uvrgw.Lib.BinSearch
import Uvrgw.Lib.Chain

/-!
# Expressions (`tinyexpr.c`)

The text of an expression is read to its end; behind it stands the NUL. `D` is the type `double`, `V` what
a variable is bound to, `U` the functions that the variable list adds.
-/

namespace Uvrgw.Tinyexpr

open Uvrgw.Lib

/-! ## Data -/

/-- The C functions that a node or a token points to. -/
inductive Fun (U : Type) where
  | add | sub | mul | divide | negate | comma
  | greater | greaterEq | lower | lowerEq | equal | notEqual
  | logicalAnd | logicalOr | logicalNot | logicalNotnot | negateLogicalNot | negateLogicalNotnot
  | pow | fmod | fabs | acos | asin | atan | atan2 | ceil | cos | cosh | e | exp | fac | floor | log | log10
  | ncr | npr | pi | sin | sinh | sqrt | tan | tanh
  | user (f : U)
  deriving DecidableEq

/-- A function with its `type`: the arity and `TE_FLAG_PURE`. -/
structure Callee (U : Type) where
  function : Fun U
  arity : Nat
  pure : Bool
  deriving DecidableEq

/-- What tinyexpr does with a `double`. -/
structure Doubles (D U : Type) where
  ofInt : Int → D
  nan : D
  isZero : D → Bool
  call : Fun U → List D → D

/-- `te_expr`. -/
inductive Expr (D V U : Type) where
  | const (value : D)
  | var (bound : V)
  | fn (f : Callee U) (parameters : Fin f.arity → Expr D V U)

inductive Address (V U : Type) where
  | var (bound : V)
  | function (f : Callee U)

structure TeVariable (V U : Type) where
  name : List Char
  address : Address V U

/-- `type` of the parser state, with the member of its union that belongs to it. -/
inductive Tok (D V U : Type) where
  | tokError
  | tokEnd
  | tokSep
  | tokOpen
  | tokClose
  | tokNumber (value : D)
  | tokVariable (bound : V)
  | tokInfix (function : Fun U)
  | tokFunction (f : Callee U)
  deriving DecidableEq

variable {D V U : Type}

/-- The token for an entry of the variable list. -/
def Address.tok : Address V U → Tok D V U
  | .var bound => .tokVariable bound
  | .function f => .tokFunction f

/-! ## Names -/

/-- `strncmp`; a string ends with its list. -/
def strncmp : Nat → List Char → List Char → Int
  | 0, _, _ => 0
  | _ + 1, [], [] => 0
  | _ + 1, [], b :: _ => -(b.toNat : Int)
  | _ + 1, a :: _, [] => a.toNat
  | n + 1, a :: as, b :: bs => if a = b then strncmp n as bs else (a.toNat : Int) - b.toNat

/-- The table `functions`. -/
def functions : List (String × Fun U × Nat) :=
  [("abs", .fabs, 1), ("acos", .acos, 1), ("asin", .asin, 1), ("atan", .atan, 1), ("atan2", .atan2, 2),
    ("ceil", .ceil, 1), ("cos", .cos, 1), ("cosh", .cosh, 1), ("e", .e, 0), ("exp", .exp, 1), ("fac", .fac, 1),
    ("floor", .floor, 1), ("ln", .log, 1), ("log", .log10, 1), ("log10", .log10, 1), ("ncr", .ncr, 2),
    ("npr", .npr, 2), ("pi", .pi, 0), ("pow", .pow, 2), ("sin", .sin, 1), ("sinh", .sinh, 1), ("sqrt", .sqrt, 1),
    ("tan", .tan, 1), ("tanh", .tanh, 1)]

/-- The comparison of `find_builtin`: `strncmp`, then the length. -/
def compareName (len : Nat) (name entry : List Char) : Int :=
  let c := strncmp len name entry
  if c = 0 then 0 - ((entry[len]?.map fun x => (x.toNat : Int)).getD 0) else c

/-- `functions[i].name`. -/
def builtinName (U : Type) (i : Int) : List Char :=
  ((functions (U := U))[i.toNat]?.map (·.1.toList)).getD []

/-- `find_builtin`: the name is the first `len` characters. -/
def findBuiltin (name : List Char) (len : Nat) : Option (Callee U) := do
  let count := (functions (U := U)).length
  let i ← binSearch (fun i => compareName len name (builtinName U i)) count 0 (count - 1)
  let entry ← functions[i.toNat]?
  return { function := entry.2.1, arity := entry.2.2, pure := true }

def teIsBuiltin (U : Type) (name : List Char) : Bool := (findBuiltin (U := U) name name.length).isSome

def findLookup (lookup : List (TeVariable V U)) (name : List Char) (len : Nat) : Option (TeVariable V U) :=
  lookup.find? fun var => strncmp len name var.name = 0 && (var.name[len]?).isNone

/-- What a name stands for: variables come before the built-in functions. -/
def findName (lookup : List (TeVariable V U)) (name : List Char) (len : Nat) : Option (Address V U) :=
  ((findLookup lookup name len).map (·.address)).or ((findBuiltin name len).map .function)

/-! ## Tokens -/

def isxdigit (c : Char) : Bool := c.isDigit || ('a' ≤ c && c ≤ 'f') || ('A' ≤ c && c ≤ 'F')

def hexDigit (c : Char) : Nat :=
  if c.isDigit then c.toNat - '0'.toNat else if 'a' ≤ c then c.toNat - 'a'.toNat + 10 else c.toNat - 'A'.toNat + 10

def decDigit (c : Char) : Nat := c.toNat - '0'.toNat

def isNameChar (c : Char) : Bool := c.isAlpha || c.isDigit || c == '_'

variable (C : Doubles D U)

/-- `value * base + d` for one digit after the other. -/
def digitsValue (base : Int) (digit : Char → Nat) (value : D) (ds : List Char) : D :=
  ds.foldl (fun value c => C.call .add [C.call .mul [value, C.ofInt base], C.ofInt (digit c)]) value

/-- The exponent digits; the value stops growing at nine of them. -/
def exponentValue (ds : List Char) : Int :=
  ds.foldl (fun e c => if e < 100000000 then e * 10 + decDigit c else e) 0

/-- `esign`. -/
def exponentSign : List Char → Int × List Char
  | '+' :: ep => (1, ep)
  | '-' :: ep => (-1, ep)
  | ep => (1, ep)

/-- The exponent, if digits follow the `e` and its sign, and the rest. -/
def parseExponent : List Char → Int × List Char
  | [] => (0, [])
  | c :: p =>
    if c = 'e' ∨ c = 'E' then
      let (esign, ep) := exponentSign p
      let ds := ep.takeWhile Char.isDigit
      if ds = [] then (0, c :: p) else (esign * exponentValue ds, ep.dropWhile Char.isDigit)
    else (0, c :: p)

/-- The digits behind a '.', and the rest. -/
def parseFraction : List Char → List Char × List Char
  | '.' :: p => (p.takeWhile Char.isDigit, p.dropWhile Char.isDigit)
  | p => ([], p)

def parseHex (p : List Char) : D × List Char :=
  (digitsValue C 16 hexDigit (C.ofInt 0) (p.takeWhile isxdigit), p.dropWhile isxdigit)

/-- The decimal branch; `none` for a lone '.'. -/
def parseDecimal (p : List Char) : Option (D × List Char) :=
  let int := p.takeWhile Char.isDigit
  let p := p.dropWhile Char.isDigit
  let (frac, p) := parseFraction p
  if int.length + frac.length = 0 then none
  else
    let value := digitsValue C 10 decDigit (C.ofInt 0) (int ++ frac)
    let (e, p) := parseExponent p
    let exponent := e - frac.length
    if exponent ≠ 0 ∧ C.isZero value = false then
      some (C.call .mul [value, C.call .pow [C.ofInt 10, C.ofInt exponent]], p)
    else some (value, p)

/-- `parse_number`, at a digit or a '.'. -/
def parseNumber (p : List Char) : Option (D × List Char) :=
  match p with
  | '0' :: x :: c :: rest =>
    if (x = 'x' ∨ x = 'X') ∧ isxdigit c then some (parseHex C (c :: rest)) else parseDecimal C p
  | _ => parseDecimal C p

/-- An operator or special character; NULL for a blank. -/
def operator (c : Char) (rest : List Char) : Option (Tok D V U) × List Char :=
  let follows := fun (x : Char) (both single : Tok D V U) =>
    if rest.head? = some x then (some both, rest.tail) else (some single, rest)
  match c with
  | '+' => (some (.tokInfix .add), rest)
  | '-' => (some (.tokInfix .sub), rest)
  | '*' => (some (.tokInfix .mul), rest)
  | '/' => (some (.tokInfix .divide), rest)
  | '^' => (some (.tokInfix .pow), rest)
  | '%' => (some (.tokInfix .fmod), rest)
  | '!' => follows '=' (.tokInfix .notEqual) (.tokInfix .logicalNot)
  | '=' => follows '=' (.tokInfix .equal) .tokError
  | '<' => follows '=' (.tokInfix .lowerEq) (.tokInfix .lower)
  | '>' => follows '=' (.tokInfix .greaterEq) (.tokInfix .greater)
  | '&' => follows '&' (.tokInfix .logicalAnd) .tokError
  | '|' => follows '|' (.tokInfix .logicalOr) .tokError
  | '(' => (some .tokOpen, rest)
  | ')' => (some .tokClose, rest)
  | ',' => (some .tokSep, rest)
  | ' ' | '\t' | '\n' | '\r' => (none, rest)
  | _ => (some .tokError, rest)

/-- How the parser finds the meaning of the name in the first characters of a text. -/
abbrev Find (V U : Type) := List Char → Nat → Option (Address V U)

variable (find : Find V U)

/-- One round of the loop of `next_token`, at a character. -/
def scanToken (c : Char) (rest : List Char) : Option (Tok D V U) × List Char :=
  if c.isDigit ∨ c = '.' then
    match parseNumber C (c :: rest) with
    | some (value, next) => (some (.tokNumber value), next)
    | none => (some .tokError, c :: rest)
  else if c.isAlpha then
    let len := ((c :: rest).takeWhile isNameChar).length
    (some (((find (c :: rest) len).map Address.tok).getD .tokError), (c :: rest).drop len)
  else operator c rest

/-- The loop of `next_token`; only a blank starts another round. -/
def nextToken : List Char → Tok D V U × List Char
  | [] => (.tokEnd, [])
  | c :: rest =>
    match scanToken C find c rest with
    | (some t, next) => (t, next)
    | (none, _) => nextToken rest

/-! ## The parser -/

/-- The `state` of the parser; its `depth` is the argument of `base`. -/
structure State (D V U : Type) where
  next : List Char
  type : Tok D V U
  appliedUnary : Bool := false

abbrev Parser (D V U : Type) := State D V U → Option (Expr D V U × State D V U)

namespace State

def advance (s : State D V U) : State D V U :=
  let (type, next) := nextToken C find s.next
  { s with next := next, type := type }

def fail (s : State D V U) : State D V U := { s with type := .tokError }

end State

def reader : Lib.Reader (State D V U) (Tok D V U) where
  type := State.type
  advance := State.advance C find
  left s := s.next.length + 1

def opNode (function : Fun U) (a b : Expr D V U) : Expr D V U := .fn ⟨function, 2, true⟩ ![a, b]

def unaryNode (function : Fun U) (a : Expr D V U) : Expr D V U := .fn ⟨function, 1, true⟩ ![a]

/-- A parameter that was not read is NULL, which `te_eval` reads as NaN. -/
def callNode (f : Callee U) (parameters : List (Expr D V U)) : Expr D V U :=
  .fn f fun i => parameters.getD i (.const C.nan)

namespace Expr

/-- The node at the end of a path. -/
def get : Expr D V U → List Nat → Expr D V U
  | .fn f parameters, i :: path => if h : i < f.arity then (parameters ⟨i, h⟩).get path else .fn f parameters
  | n, _ => n

/-- Write to the node at the end of a path. -/
def set : Expr D V U → List Nat → Expr D V U → Expr D V U
  | _, [], x => x
  | .fn f parameters, i :: path, x => .fn f fun j => if j.val = i then (parameters j).set path x else parameters j
  | n, _, _ => n

end Expr

/-- The tokens of one level of operators. -/
def infixOp (functions : List (Fun U)) [DecidableEq U] : Tok D V U → Option (Fun U)
  | .tokInfix function => if function ∈ functions then some function else none
  | _ => none

def sepOp : Tok D V U → Option (Fun U)
  | .tokSep => some .comma
  | _ => none

/-- The first loop of `power`. -/
def signLoop : Nat → Int → State D V U → Int × State D V U
  | 0, sign, s => (sign, s)
  | fuel + 1, sign, s =>
    match s.type with
    | .tokInfix .add => signLoop fuel sign (s.advance C find)
    | .tokInfix .sub => signLoop fuel (-sign) (s.advance C find)
    | _ => (sign, s)

/-- The second loop of `power`. -/
def logicalLoop : Nat → Int → State D V U → Int × State D V U
  | 0, logical, s => (logical, s)
  | fuel + 1, logical, s =>
    match s.type with
    | .tokInfix .add | .tokInfix .sub => logicalLoop fuel logical (s.advance C find)
    | .tokInfix .logicalNot => logicalLoop fuel (if logical = 0 then -1 else -logical) (s.advance C find)
    | _ => (logical, s)

/-- The node that `power` puts above its base, if any. -/
def unaryFun (sign logical : Int) : Option (Fun U) :=
  if sign = 1 then
    if logical = 0 then none else if logical = -1 then some .logicalNot else some .logicalNotnot
  else if logical = 0 then some .negate
  else if logical = -1 then some .negateLogicalNot else some .negateLogicalNotnot

def power (base : Parser D V U) : Parser D V U := fun s =>
  let (sign, s) := signLoop C find ((reader C find).left s) 1 s
  let (logical, s) := logicalLoop C find ((reader C find).left s) 0 s
  match base s with
  | none => none
  | some (b, s) =>
    some ((unaryFun sign logical).elim b (unaryNode · b), { s with appliedUnary := sign ≠ 1 ∨ logical ≠ 0 })

/-- The loop of `factor`; `slot` is the path from `ret` to the node that the pointer stands for. -/
def factorLoop (power : Parser D V U) : Nat → List Nat → Expr D V U → State D V U →
    Option (Expr D V U × State D V U)
  | 0, _, ret, s => some (ret, s)
  | fuel + 1, slot, ret, s =>
    match s.type with
    | .tokInfix .pow =>
      match power (s.advance C find) with
      | none => none
      | some (p, s) =>
        let insert := opNode .pow (ret.get slot) p
        factorLoop power fuel (slot ++ if s.appliedUnary then [1, 0] else [1]) (ret.set slot insert) s
    | _ => some (ret, s)

/-- The unary operator left of the first "^", and what it stands above. -/
def hoist (appliedUnary : Bool) : Expr D V U → Option (Fun U) × Expr D V U
  | .fn f parameters =>
    if h : appliedUnary = true ∧ f.arity = 1 ∧ f.pure = true then (some f.function, parameters ⟨0, by omega⟩)
    else (none, .fn f parameters)
  | n => (none, n)

def factor (power : Parser D V U) : Parser D V U := fun s =>
  match power s with
  | none => none
  | some (ret, s) =>
    let (left, ret) := hoist s.appliedUnary ret
    match factorLoop C find power ((reader C find).left s) [] ret s with
    | none => none
    | some (ret, s) => some (left.elim ret (unaryNode · ret), s)

section Levels

variable [DecidableEq U] (base : Parser D V U)

def term : Parser D V U :=
  Lib.chain (reader C find) (infixOp [.mul, .divide, .fmod]) opNode (factor C find (power C find base))

def sumExpr : Parser D V U := Lib.chain (reader C find) (infixOp [.add, .sub]) opNode (term C find base)

def relExpr : Parser D V U :=
  Lib.chain (reader C find) (infixOp [.greater, .greaterEq, .lower, .lowerEq]) opNode (sumExpr C find base)

def eqExpr : Parser D V U :=
  Lib.chain (reader C find) (infixOp [.equal, .notEqual]) opNode (relExpr C find base)

def andExpr : Parser D V U := Lib.chain (reader C find) (infixOp [.logicalAnd]) opNode (eqExpr C find base)

def expr : Parser D V U := Lib.chain (reader C find) (infixOp [.logicalOr]) opNode (andExpr C find base)

def list : Parser D V U := Lib.chain (reader C find) sepOp opNode (expr C find base)

end Levels

/-- The loop over the parameters of a function, with the number of rounds that are left. -/
def parametersLoop (expr : Parser D V U) : Nat → State D V U → Option (List (Expr D V U) × State D V U)
  | 0, s => some ([], s)
  | n + 1, s =>
    match expr (s.advance C find) with
    | none => none
    | some (p, s) =>
      match s.type with
      | .tokSep => (parametersLoop expr n s).map fun (ps, s) => (p :: ps, s)
      | _ => some ([p], s)

/-- `next_token` behind a `)`, an error at anything else. -/
def closing (s : State D V U) : State D V U :=
  match s.type with
  | .tokClose => s.advance C find
  | _ => s.fail

def baseImpl (power expr list : Parser D V U) : Parser D V U := fun s =>
  match s.type with
  | .tokNumber value => some (.const value, s.advance C find)
  | .tokVariable bound => some (.var bound, s.advance C find)
  | .tokFunction f =>
    let s := s.advance C find
    match f.arity with
    | 0 =>
      match s.type with
      | .tokOpen => some (callNode C f [], closing C find (s.advance C find))
      | _ => some (callNode C f [], s)
    | 1 => (power s).map fun (p, s) => (callNode C f [p], s)
    | arity =>
      match s.type with
      | .tokOpen =>
        match parametersLoop C find expr arity s with
        | none => none
        -- a ',' behind the last parameter is no ')' either
        | some (ps, s) => some (callNode C f ps, if ps.length = arity then closing C find s else s.fail)
      | _ => some (callNode C f [], s.fail)
  | .tokOpen => (list (s.advance C find)).map fun (ret, s) => (ret, closing C find s)
  | _ => some (.const C.nan, s.fail)

/-- `TE_MAX_DEPTH`. -/
def teMaxDepth : Nat := 512

/-- `base`, which may still be entered `n` levels deep. -/
def base [DecidableEq U] : Nat → Parser D V U
  | 0, _ => none
  | n + 1, s =>
    baseImpl C find (power C find (base n)) (expr C find (base n)) (list C find (base n)) s

/-! ## Evaluation -/

namespace Expr

/-- `te_eval`. -/
def eval (slots : V → D) : Expr D V U → D
  | .const value => value
  | .var bound => slots bound
  | .fn f parameters => C.call f.function (List.ofFn fun i => (parameters i).eval slots)

def isConst : Expr D V U → Bool
  | .const _ => true
  | _ => false

def optimize : Expr D V U → Expr D V U
  | .const value => .const value
  | .var bound => .var bound
  | .fn f parameters =>
    if f.pure then
      let n := Expr.fn f fun i => (parameters i).optimize
      -- all parameters are constants then, so `te_eval` reads no variable
      if ∀ i, (parameters i).optimize.isConst = true then .const (n.eval C fun _ => C.nan) else n
    else .fn f parameters

end Expr

/-- `te_compile`, with the search for names. -/
def compileWith [DecidableEq U] (text : List Char) : Except Int (Expr D V U) :=
  let (type, next) := nextToken C find text
  match list C find (base C find teMaxDepth) { next := next, type := type } with
  | none => .error (-1)
  | some (root, s) =>
    match s.type with
    | .tokEnd => .ok (root.optimize C)
    | _ =>
      let error := text.length - s.next.length
      .error (if error = 0 then 1 else error)

/-- `te_compile`; the error is the position, -1 for NULL. -/
def teCompile [DecidableEq U] (lookup : List (TeVariable V U)) (text : List Char) : Except Int (Expr D V U) :=
  compileWith C (findName lookup) text

end Uvrgw.Tinyexpr
