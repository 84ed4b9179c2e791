import Uvrgw.Evals.Code
import Uvrgw.Tinyexpr.Compile

/-! # The functions of expressions -/

namespace Uvrgw.Evals

open Tinyexpr

/-! ## Operators on `double` -/

def isnan : Double → Bool
  | .nan => true
  | _ => false

/-- `a == b`. -/
def same : Double → Double → Bool
  | .fin a, .fin b => a = b
  | .inf s, .inf t => s = t
  | _, _ => false

/-- `a < b`. -/
def less : Double → Double → Bool
  | .fin a, .fin b => a < b
  | .inf s, .inf t => s && !t
  | .inf s, .fin _ => s
  | .fin _, .inf t => !t
  | _, _ => false

def lessEq (a b : Double) : Bool := less a b || same a b

/-- A truth value as a number. -/
def truth (b : Bool) : Double := .fin (if b then 1 else 0)

/-- `a != 0.0`. -/
def isTrue (a : Double) : Bool := !same a (.fin 0)

def negate : Double → Double
  | .fin a => .fin (-a)
  | .inf s => .inf (!s)
  | .nan => .nan

def mul : Double → Double → Double
  | .nan, _ | _, .nan => .nan
  | .inf s, .inf t => .inf (s ^^ t)
  | .inf s, .fin a | .fin a, .inf s => if a = 0 then .nan else .inf (s ^^ a < 0)
  | .fin a, .fin b => .fin (a * b)

/-! ## The functions of `eval.c` -/

def fnIf (c a b : Double) : Double := if isnan c then .nan else if isTrue c then a else b

def fnMin (a b : Double) : Double := if isnan a || isnan b then .nan else if less a b then a else b

def fnMax (a b : Double) : Double := if isnan a || isnan b then .nan else if less b a then a else b

def fnClamp (x lo hi : Double) : Double :=
  if isnan x || isnan lo || isnan hi then .nan else if less x lo then lo else if less hi x then hi else x

def fnHyst (prev x on off : Double) : Double :=
  if isnan prev || isnan x || isnan on || isnan off then .nan
  else if lessEq off on then
    if lessEq on x then .fin 1 else if lessEq x off then .fin 0 else truth (isTrue prev)
  else if lessEq x on then .fin 1
  else if lessEq off x then .fin 0
  else truth (isTrue prev)

/-- `functions` of `eval.c`. -/
inductive Function where
  | fnIf
  | fnMin
  | fnMax
  | fnClamp
  | fnHyst
  deriving DecidableEq, Repr

def callFunction : Function → List Double → Double
  | .fnIf, [c, a, b] => fnIf c a b
  | .fnMin, [a, b] => fnMin a b
  | .fnMax, [a, b] => fnMax a b
  | .fnClamp, [x, lo, hi] => fnClamp x lo hi
  | .fnHyst, [prev, x, on, off] => fnHyst prev x on off
  | _, _ => .nan

/-- The arithmetic of expressions; `libm` are the functions of the C library. -/
def doubles (libm : Fun Function → List Double → Double) : Doubles Double Function where
  ofInt n := .fin n
  nan := .nan
  isZero a := same a (.fin 0)
  call f l :=
    match f, l with
    | .add, [a, b] => add a b
    | .sub, [a, b] => add a (negate b)
    | .mul, [a, b] => mul a b
    | .divide, [a, b] => divide a b
    | .negate, [a] => negate a
    | .comma, [_, b] => b
    | .greater, [a, b] => truth (less b a)
    | .greaterEq, [a, b] => truth (lessEq b a)
    | .lower, [a, b] => truth (less a b)
    | .lowerEq, [a, b] => truth (lessEq a b)
    | .equal, [a, b] => truth (same a b)
    | .notEqual, [a, b] => truth (!same a b)
    | .logicalAnd, [a, b] => truth (isTrue a && isTrue b)
    | .logicalOr, [a, b] => truth (isTrue a || isTrue b)
    | .logicalNot, [a] => truth (!isTrue a)
    | .logicalNotnot, [a] => truth (isTrue a)
    | .negateLogicalNot, [a] => negate (truth (!isTrue a))
    | .negateLogicalNotnot, [a] => negate (truth (isTrue a))
    | .user f, l => callFunction f l
    | f, l => libm f l

theorem negate_negate (a : Double) : negate (negate a) = a := by
  cases a with
  | fin q => exact congrArg Double.fin (neg_neg q)
  | inf s => exact congrArg Double.inf (Bool.not_not s)
  | nan => rfl

theorem isTrue_negate (a : Double) : isTrue (negate a) = isTrue a := by
  cases a with
  | fin q => simp [isTrue, same, negate]
  | inf s => rfl
  | nan => rfl

theorem isTrue_truth (b : Bool) : isTrue (truth b) = b := by cases b <;> simp [isTrue, same, truth]

theorem doubles_lawful (libm : Fun Function → List Double → Double) : (doubles libm).Lawful where
  negate_negate := negate_negate
  not_negate v := by
    change truth (!isTrue (negate v)) = truth (!isTrue v)
    rw [isTrue_negate]
  not_not v := by
    change truth (!isTrue (truth (!isTrue v))) = truth (isTrue v)
    rw [isTrue_truth, Bool.not_not]
  not_notnot v := by
    change truth (!isTrue (truth (isTrue v))) = truth (!isTrue v)
    rw [isTrue_truth]
  negate_not _ := rfl
  negate_notnot _ := rfl

/-! A name in 600 parentheses is a sentence, and nests too deep. -/

/-- An arithmetic without a C library. -/
def bareDoubles : Doubles Double Function := doubles fun _ _ => .nan

def findX : Find Nat Function := findName [⟨['x'], .var 0⟩]

def parentheses (n : Nat) : List Char := List.replicate n '(' ++ 'x' :: List.replicate n ')'

def parenthesesTokens (n : Nat) : List (Tok Double Nat Function) :=
  List.replicate n .tokOpen ++ .tokVariable 0 :: List.replicate n .tokClose

theorem sentence_parentheses {A : Type} (alg : Algebra Double Nat Function A) (hunary : ∀ a, alg.unary [] a = a)
    (n : Nat) : Sentence alg (n + 1) (parenthesesTokens n) (alg.var 0) := by
  have hbase : ∀ {m : Nat} {ts : List (Tok Double Nat Function)} {a : A}, Base alg m ts a → Sentence alg m ts a := by
    intro m ts a h
    have hfactor : FactorRule alg (Base alg m) ts a := by
      have hone : FactorRule alg (Base alg m) ([].map Sign.tok ++ ts) (alg.unary [] a) := .one [] h
      rwa [hunary] at hone
    exact .one (.one (.one (.one (.one (.one (.one hfactor))))))
  refine hbase ?_
  induction n with
  | zero => exact .var 0
  | succ n ih =>
    have htokens : parenthesesTokens (n + 1) = .tokOpen :: (parenthesesTokens n ++ [.tokClose]) := by
      unfold parenthesesTokens
      rw [List.replicate_succ, List.replicate_succ']
      simp
    rw [htokens]
    exact .group (hbase ih)

theorem lex_parentheses (n : Nat) : lex bareDoubles findX (parentheses n) = parenthesesTokens n ++ [.tokEnd] := by
  have hclose : ∀ m : Nat,
      lex bareDoubles findX (List.replicate m ')') = List.replicate m .tokClose ++ [.tokEnd] := by
    intro m
    induction m with
    | zero => exact lex_final _ _ rfl
    | succ m ih =>
      rw [List.replicate_succ, lex_step _ _ rfl]
      exact congrArg _ ih
  have hopen : ∀ m : Nat, lex bareDoubles findX (List.replicate m '(' ++ 'x' :: List.replicate n ')') =
      List.replicate m .tokOpen ++ .tokVariable 0 :: (List.replicate n .tokClose ++ [.tokEnd]) := by
    intro m
    induction m with
    | zero =>
      have hnext : nextToken bareDoubles findX ('x' :: List.replicate n ')') =
          (.tokVariable 0, List.replicate n ')') := by
        cases n <;> rfl
      rw [List.replicate_zero, List.nil_append, lex_step _ _ (by rw [hnext]; rfl), hnext, hclose]
      rfl
    | succ m ih =>
      rw [List.replicate_succ, List.cons_append, lex_step _ _ rfl]
      exact congrArg _ ih
  unfold parentheses parenthesesTokens
  rw [hopen, List.append_assoc, List.cons_append]

theorem compileWith_sentence_example : compileWith bareDoubles findX (parentheses 600) = .error (-1) := by
  have hlex := lex_parentheses 600
  have h := compileWith_sentence (sentence_parentheses (tree bareDoubles) (fun _ => rfl) 600) hlex
  refine h.2.2 fun hts => ?_
  have hsplit : parenthesesTokens 600 ++ [.tokEnd] = List.replicate (teMaxDepth + 1) .tokOpen ++
      (List.replicate 87 .tokOpen ++ .tokVariable 0 :: List.replicate 600 .tokClose ++ [.tokEnd]) := by
    unfold parenthesesTokens
    rw [show (600 : Nat) = teMaxDepth + 1 + 87 from rfl, List.replicate_add]
    simp
  have hdeep := compileWith_open (hlex.trans hsplit)
  rw [h.2.1 hts] at hdeep
  cases hdeep

theorem compileWith_eval_example : ∃ e, compileWith bareDoubles findX (parentheses 511) = .ok e ∧
    e.eval bareDoubles (fun _ => .fin 7) = .fin 7 :=
  (compileWith_eval (doubles_lawful _) (fun _ => .fin 7) (parentheses 511) (.fin 7)).mpr
    ⟨_, lex_parentheses 511, sentence_parentheses (value bareDoubles _) (fun _ => rfl) 511⟩

end Uvrgw.Evals
