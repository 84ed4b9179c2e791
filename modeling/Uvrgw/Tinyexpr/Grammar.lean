import Uvrgw.Tinyexpr.Tokens

/-!
# The grammar

The rules in the comments of the parser, with the meaning of "^" and of the unary operators that
`TE_POW_FROM_RIGHT` gives them. An algebra says what is built from a phrase; the number counts how deep
`<base>` may stand in itself.
-/

namespace Uvrgw.Tinyexpr

open Uvrgw.Lib

variable {D V U A : Type}

/-! ## Rules -/

/-- The operators in front of a `<base>`. -/
inductive Sign where
  | plus
  | minus
  | not
  deriving DecidableEq

def Sign.tok : Sign → Tok D V U
  | .plus => .tokInfix .add
  | .minus => .tokInfix .sub
  | .not => .tokInfix .logicalNot

structure Algebra (D V U A : Type) where
  number : D → A
  var : V → A
  call : Callee U → List A → A
  unary : List Sign → A → A
  binary : Fun U → A → A → A

abbrev Phrase (D V U A : Type) := List (Tok D V U) → A → Prop

section Rules

variable (alg : Algebra D V U A)

/-- A `<power>` is a `<base>` behind signs. They apply to all powers of it. -/
inductive FactorRule (base : Phrase D V U A) : Phrase D V U A where
  | one {ts : List (Tok D V U)} {a : A} (signs : List Sign) (h : base ts a) :
      FactorRule base (signs.map Sign.tok ++ ts) (alg.unary signs a)
  | pow {ts us : List (Tok D V U)} {a b : A} (signs : List Sign) (h : base ts a) (hb : FactorRule base us b) :
      FactorRule base (signs.map Sign.tok ++ ts ++ .tokInfix .pow :: us) (alg.unary signs (alg.binary .pow a b))

inductive ParametersRule (expr : Phrase D V U A) : List (Tok D V U) → List A → Prop where
  | one {ts : List (Tok D V U)} {a : A} (h : expr ts a) : ParametersRule expr ts [a]
  | cons {ts us : List (Tok D V U)} {a : A} {l : List A} (h : expr ts a) (hl : ParametersRule expr us l) :
      ParametersRule expr (ts ++ .tokSep :: us) (a :: l)

inductive BaseRule (base expr list : Phrase D V U A) : Phrase D V U A where
  | number (value : D) : BaseRule base expr list [.tokNumber value] (alg.number value)
  | var (bound : V) : BaseRule base expr list [.tokVariable bound] (alg.var bound)
  | constant (f : Callee U) (hf : f.arity = 0) : BaseRule base expr list [.tokFunction f] (alg.call f [])
  | constantCall (f : Callee U) (hf : f.arity = 0) :
      BaseRule base expr list [.tokFunction f, .tokOpen, .tokClose] (alg.call f [])
  | apply {ts : List (Tok D V U)} {a : A} (f : Callee U) (hf : f.arity = 1) (signs : List Sign) (h : base ts a) :
      BaseRule base expr list (.tokFunction f :: (signs.map Sign.tok ++ ts)) (alg.call f [alg.unary signs a])
  | call {ts : List (Tok D V U)} {l : List A} (f : Callee U) (hf : 2 ≤ f.arity) (h : ParametersRule expr ts l)
      (hlength : l.length = f.arity) :
      BaseRule base expr list (.tokFunction f :: .tokOpen :: (ts ++ [.tokClose])) (alg.call f l)
  | group {ts : List (Tok D V U)} {a : A} (h : list ts a) :
      BaseRule base expr list (.tokOpen :: (ts ++ [.tokClose])) a

variable [DecidableEq U] (base : Phrase D V U A)

def Term : Phrase D V U A := Chain (infixOp [.mul, .divide, .fmod]) alg.binary (FactorRule alg base)

def SumExpr : Phrase D V U A := Chain (infixOp [.add, .sub]) alg.binary (Term alg base)

def RelExpr : Phrase D V U A :=
  Chain (infixOp [.greater, .greaterEq, .lower, .lowerEq]) alg.binary (SumExpr alg base)

def EqExpr : Phrase D V U A := Chain (infixOp [.equal, .notEqual]) alg.binary (RelExpr alg base)

def AndExpr : Phrase D V U A := Chain (infixOp [.logicalAnd]) alg.binary (EqExpr alg base)

def ExprPhrase : Phrase D V U A := Chain (infixOp [.logicalOr]) alg.binary (AndExpr alg base)

def ListPhrase : Phrase D V U A := Chain sepOp alg.binary (ExprPhrase alg base)

def Base : Nat → Phrase D V U A
  | 0, _, _ => False
  | n + 1, ts, a => BaseRule alg (Base n) (ExprPhrase alg (Base n)) (ListPhrase alg (Base n)) ts a

/-- An expression that nests at most `n` deep. -/
def Sentence (n : Nat) : Phrase D V U A := ListPhrase alg (Base alg n)

end Rules

/-! ## The tree of a phrase -/

def stepSign (sign : Int) (x : Sign) : Int := if x = .minus then -sign else sign

def stepLogical (logical : Int) (x : Sign) : Int :=
  if x = .not then (if logical = 0 then -1 else -logical) else logical

/-- `sign` behind the operators in front of the first "!". -/
def signOf (signs : List Sign) : Int := (signs.takeWhile (· ≠ .not)).foldl stepSign 1

/-- `logical` behind the other ones. -/
def logicalOf (signs : List Sign) : Int := (signs.dropWhile (· ≠ .not)).foldl stepLogical 0

def unaryOf (U : Type) (signs : List Sign) : Option (Fun U) := unaryFun (signOf signs) (logicalOf signs)

/-- What the parser builds. -/
def tree (C : Doubles D U) : Algebra D V U (Expr D V U) where
  number := .const
  var := .var
  call := callNode C
  unary signs a := (unaryOf U signs).elim a (unaryNode · a)
  binary := opNode

/-! ## Operators -/

theorem infixOp_eq_some [DecidableEq U] {functions : List (Fun U)} {t : Tok D V U} {f : Fun U} :
    infixOp functions t = some f ↔ t = .tokInfix f ∧ f ∈ functions := by
  unfold infixOp
  split
  · rename_i g
    split
    · constructor
      · intro h
        obtain rfl := Option.some.inj h
        exact ⟨rfl, by assumption⟩
      · rintro ⟨h, -⟩
        rw [Tok.tokInfix.inj h]
    · constructor
      · intro h
        cases h
      · rintro ⟨h, hf⟩
        rw [← Tok.tokInfix.inj h] at hf
        contradiction
  · rename_i hne
    constructor
    · intro h
      cases h
    · rintro ⟨h, -⟩
      exact absurd h (hne f)

theorem sepOp_eq_some {t : Tok D V U} {f : Fun U} : sepOp t = some f ↔ t = .tokSep ∧ f = .comma := by
  cases t <;> simp [sepOp, eq_comm]

end Uvrgw.Tinyexpr
