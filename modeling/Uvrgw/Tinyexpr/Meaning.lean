import Uvrgw.Tinyexpr.Parser

/-!
# What an expression means

The value of a phrase is built from the values of its parts, with every sign applied on its own; the compiled
expression gives this value.
-/

namespace Uvrgw.Tinyexpr

open Uvrgw.Lib

variable {D V U A B : Type}

/-! ## Maps between algebras -/

structure Algebra.Hom (alg : Algebra D V U A) (alg' : Algebra D V U B) (h : A → B) : Prop where
  number : ∀ value, h (alg.number value) = alg'.number value
  var : ∀ bound, h (alg.var bound) = alg'.var bound
  call : ∀ f l, l.length = f.arity → h (alg.call f l) = alg'.call f (l.map h)
  unary : ∀ signs a, h (alg.unary signs a) = alg'.unary signs (h a)
  binary : ∀ f a b, h (alg.binary f a b) = alg'.binary f (h a) (h b)

section Hom

variable {alg : Algebra D V U A} {alg' : Algebra D V U B} {h : A → B} (hom : alg.Hom alg' h)

include hom

theorem image_factor {G : Phrase D V U A} {G' : Phrase D V U B} (hG : Image h G G') :
    Image h (FactorRule alg G) (FactorRule alg' G') := by
  intro ts b
  constructor
  · intro hb
    induction hb with
    | one signs hb =>
      obtain ⟨a, ha, rfl⟩ := (hG _ _).mp hb
      exact ⟨_, .one signs ha, hom.unary signs a⟩
    | pow signs hb _ ih =>
      obtain ⟨a, ha, rfl⟩ := (hG _ _).mp hb
      obtain ⟨c, hc, rfl⟩ := ih
      exact ⟨_, .pow signs ha hc, by rw [hom.unary, hom.binary]⟩
  · rintro ⟨a, ha, rfl⟩
    induction ha with
    | one signs ha =>
      rw [hom.unary]
      exact .one signs ((hG _ _).mpr ⟨_, ha, rfl⟩)
    | pow signs ha _ ih =>
      rw [hom.unary, hom.binary]
      exact .pow signs ((hG _ _).mpr ⟨_, ha, rfl⟩) ih

omit hom in
theorem image_parameters {G : Phrase D V U A} {G' : Phrase D V U B} (hG : Image h G G')
    (ts : List (Tok D V U)) (m : List B) :
    ParametersRule G' ts m ↔ ∃ l, ParametersRule G ts l ∧ l.map h = m := by
  constructor
  · intro hm
    induction hm with
    | one hb =>
      obtain ⟨a, ha, rfl⟩ := (hG _ _).mp hb
      exact ⟨_, .one ha, rfl⟩
    | cons hb _ ih =>
      obtain ⟨a, ha, rfl⟩ := (hG _ _).mp hb
      obtain ⟨l, hl, rfl⟩ := ih
      exact ⟨_, .cons ha hl, rfl⟩
  · rintro ⟨l, hl, rfl⟩
    induction hl with
    | one ha => exact .one ((hG _ _).mpr ⟨_, ha, rfl⟩)
    | cons ha _ ih => exact .cons ((hG _ _).mpr ⟨_, ha, rfl⟩) ih

theorem image_baseRule {G Ge Gl : Phrase D V U A} {G' Ge' Gl' : Phrase D V U B} (hG : Image h G G')
    (hGe : Image h Ge Ge') (hGl : Image h Gl Gl') : Image h (BaseRule alg G Ge Gl) (BaseRule alg' G' Ge' Gl') := by
  intro ts b
  constructor
  · intro hb
    cases hb with
    | number value => exact ⟨_, .number value, hom.number value⟩
    | var bound => exact ⟨_, .var bound, hom.var bound⟩
    | constant f hf => exact ⟨_, .constant f hf, hom.call f [] hf.symm⟩
    | constantCall f hf => exact ⟨_, .constantCall f hf, hom.call f [] hf.symm⟩
    | apply f hf signs hb =>
      obtain ⟨a, ha, rfl⟩ := (hG _ _).mp hb
      refine ⟨_, .apply f hf signs ha, ?_⟩
      rw [hom.call f [_] hf.symm, List.map_singleton, hom.unary]
    | call f hf hm hlength =>
      obtain ⟨l, hl, rfl⟩ := (image_parameters hGe _ _).mp hm
      rw [List.length_map] at hlength
      exact ⟨_, .call f hf hl hlength, hom.call f l hlength⟩
    | group hb =>
      obtain ⟨a, ha, rfl⟩ := (hGl _ _).mp hb
      exact ⟨_, .group ha, rfl⟩
  · rintro ⟨a, ha, rfl⟩
    cases ha with
    | number value =>
      rw [hom.number]
      exact .number value
    | var bound =>
      rw [hom.var]
      exact .var bound
    | constant f hf =>
      rw [hom.call f [] hf.symm]
      exact .constant f hf
    | constantCall f hf =>
      rw [hom.call f [] hf.symm]
      exact .constantCall f hf
    | apply f hf signs ha =>
      rw [hom.call f [_] hf.symm, List.map_singleton, hom.unary]
      exact .apply f hf signs ((hG _ _).mpr ⟨_, ha, rfl⟩)
    | call f hf hl hlength =>
      rw [hom.call f _ hlength]
      exact .call f hf ((image_parameters hGe _ _).mpr ⟨_, hl, rfl⟩) (by rw [List.length_map]; exact hlength)
    | group ha => exact .group ((hGl _ _).mpr ⟨_, ha, rfl⟩)

variable [DecidableEq U]

theorem image_expr {G : Phrase D V U A} {G' : Phrase D V U B} (hG : Image h G G') :
    Image h (ExprPhrase alg G) (ExprPhrase alg' G') :=
  have hterm := (image_factor hom hG).chain hom.binary
  have hsum := hterm.chain hom.binary
  have hrel := hsum.chain hom.binary
  have heq := hrel.chain hom.binary
  have hand := heq.chain hom.binary
  hand.chain hom.binary

theorem image_list {G : Phrase D V U A} {G' : Phrase D V U B} (hG : Image h G G') :
    Image h (ListPhrase alg G) (ListPhrase alg' G') :=
  (image_expr hom hG).chain hom.binary

theorem image_base (n : Nat) : Image h (Base alg n) (Base alg' n) := by
  induction n with
  | zero => exact fun ts b => ⟨False.elim, fun ⟨_, ha, _⟩ => ha⟩
  | succ n ih => exact image_baseRule hom ih (image_expr hom ih) (image_list hom ih)

/-- What an algebra builds from a sentence comes from what another one builds. -/
theorem sentence_image (n : Nat) : Image h (Sentence alg n) (Sentence alg' n) := image_list hom (image_base hom n)

end Hom

/-! ## Values -/

/-- The laws of negation, which let one node stand for all signs of a `<power>`. -/
structure Doubles.Lawful (C : Doubles D U) : Prop where
  negate_negate : ∀ v, C.call .negate [C.call .negate [v]] = v
  not_negate : ∀ v, C.call .logicalNot [C.call .negate [v]] = C.call .logicalNot [v]
  not_not : ∀ v, C.call .logicalNot [C.call .logicalNot [v]] = C.call .logicalNotnot [v]
  not_notnot : ∀ v, C.call .logicalNot [C.call .logicalNotnot [v]] = C.call .logicalNot [v]
  negate_not : ∀ v, C.call .negate [C.call .logicalNot [v]] = C.call .negateLogicalNot [v]
  negate_notnot : ∀ v, C.call .negate [C.call .logicalNotnot [v]] = C.call .negateLogicalNotnot [v]

variable (C : Doubles D U)

def Sign.apply : Sign → D → D
  | .plus, v => v
  | .minus, v => C.call .negate [v]
  | .not, v => C.call .logicalNot [v]

/-- The value of a phrase, where a variable has the number of its slot. -/
def value (slots : V → D) : Algebra D V U D where
  number v := v
  var := slots
  call f l := C.call f.function l
  unary signs v := signs.foldr (Sign.apply C) v
  binary f a b := C.call f [a, b]

/-- What one node does to a number; none leaves it alone. -/
def unaryValue (f : Option (Fun U)) (v : D) : D := f.elim v fun f => C.call f [v]

theorem foldl_stepLogical {signs : List Sign} {logical : Int} (h : logical = 1 ∨ logical = -1) :
    signs.foldl stepLogical logical = 1 ∨ signs.foldl stepLogical logical = -1 := by
  induction signs generalizing logical with
  | nil => exact h
  | cons x signs ih =>
    apply ih
    unfold stepLogical
    split
    · rcases h with rfl | rfl
      · exact .inr (by decide)
      · exact .inl (by decide)
    · exact h

variable {C}

section Lawful

variable (hC : C.Lawful)

include hC

/-- A "!" sees of the signs behind it only whether an even number of "!" is among them. -/
theorem not_foldr (signs : List Sign) (v : D) :
    C.call .logicalNot [signs.foldr (Sign.apply C) v] =
        unaryValue C (unaryFun 1 (signs.foldl stepLogical (-1))) v ∧
      C.call .logicalNotnot [signs.foldr (Sign.apply C) v] =
        unaryValue C (unaryFun 1 (signs.foldl stepLogical 1)) v := by
  induction signs with
  | nil => exact ⟨rfl, rfl⟩
  | cons x signs ih =>
    rw [List.foldr_cons, List.foldl_cons, List.foldl_cons]
    cases x with
    | plus => exact ih
    | minus =>
      have hnot := hC.not_negate (signs.foldr (Sign.apply C) v)
      refine ⟨hnot.trans ih.1, ?_⟩
      rw [← hC.not_not]
      exact (congrArg (fun w => C.call .logicalNot [w]) hnot).trans ((hC.not_not _).trans ih.2)
    | not =>
      refine ⟨(hC.not_not _).trans ih.2, ?_⟩
      rw [← hC.not_not]
      exact (congrArg (fun w => C.call .logicalNot [w]) (hC.not_not _)).trans ((hC.not_notnot _).trans ih.1)

/-- Signs without a "!" negate or do nothing. -/
theorem foldr_sign {signs : List Sign} (h : ∀ x ∈ signs, x ≠ .not) :
    (∀ sign, signs.foldl stepSign sign = sign) ∧ (∀ v, signs.foldr (Sign.apply C) v = v) ∨
      (∀ sign, signs.foldl stepSign sign = -sign) ∧ ∀ v, signs.foldr (Sign.apply C) v = C.call .negate [v] := by
  induction signs with
  | nil => exact .inl ⟨fun _ => rfl, fun _ => rfl⟩
  | cons x signs ih =>
    have ih := ih fun y hy => h y (List.mem_cons_of_mem x hy)
    cases x with
    | plus => exact ih
    | minus =>
      rcases ih with ⟨hsign, hv⟩ | ⟨hsign, hv⟩
      · refine .inr ⟨fun sign => hsign (-sign), fun v => ?_⟩
        rw [List.foldr_cons, hv]
        rfl
      · refine .inl ⟨fun sign => (hsign (-sign)).trans (Int.neg_neg sign), fun v => ?_⟩
        rw [List.foldr_cons, hv]
        exact hC.negate_negate v
    | not => exact absurd rfl (h .not List.mem_cons_self)

theorem unaryValue_negate {logical : Int} (h : logical = 0 ∨ logical = 1 ∨ logical = -1) (v : D) :
    unaryValue C (unaryFun (-1) logical) v = C.call .negate [unaryValue C (unaryFun 1 logical) v] := by
  rcases h with rfl | rfl | rfl
  · rfl
  · exact (hC.negate_notnot v).symm
  · exact (hC.negate_not v).symm

/-- The node of `power` does what the signs do one after the other. -/
theorem unaryOf_value (signs : List Sign) (v : D) :
    unaryValue C (unaryOf U signs) v = signs.foldr (Sign.apply C) v := by
  have hsplit := List.takeWhile_append_dropWhile (p := fun x : Sign => decide (x ≠ .not)) (l := signs)
  have hpre : ∀ x ∈ signs.takeWhile (fun x => decide (x ≠ .not)), x ≠ Sign.not := fun x hx =>
    of_decide_eq_true (List.all_eq_true.mp List.all_takeWhile x hx)
  have hlogical : (logicalOf signs = 0 ∨ logicalOf signs = 1 ∨ logicalOf signs = -1) ∧
      (signs.dropWhile fun x => decide (x ≠ .not)).foldr (Sign.apply C) v =
        unaryValue C (unaryFun 1 (logicalOf signs)) v := by
    unfold logicalOf
    cases hpost : signs.dropWhile fun x => decide (x ≠ .not) with
    | nil => exact ⟨.inl rfl, rfl⟩
    | cons x post =>
      have hx : x = .not := by
        have hhead := List.head?_dropWhile_not (fun x => decide (x ≠ .not)) signs
        rw [hpost] at hhead
        simpa using hhead
      subst hx
      have hstart : post.foldl stepLogical (-1) = 1 ∨ post.foldl stepLogical (-1) = -1 := foldl_stepLogical (.inr rfl)
      exact ⟨.inr hstart, (not_foldr hC post v).1⟩
  have hsign : unaryValue C (unaryOf U signs) v =
      (signs.takeWhile fun x => decide (x ≠ .not)).foldr (Sign.apply C)
        (unaryValue C (unaryFun 1 (logicalOf signs)) v) := by
    unfold unaryOf signOf
    rcases foldr_sign hC hpre with ⟨hsign, hv⟩ | ⟨hsign, hv⟩
    · rw [hsign, hv]
    · rw [hsign, hv]
      exact unaryValue_negate hC hlogical.1 v
  rw [hsign, ← hlogical.2, ← List.foldr_append, hsplit]

end Lawful

theorem ofFn_getD (f : Callee U) (l : List (Expr D V U)) (d : Expr D V U) (h : Expr D V U → A)
    (hlength : l.length = f.arity) : (List.ofFn fun i : Fin f.arity => h (l.getD i d)) = l.map h := by
  apply List.ext_getElem
  · rw [List.length_ofFn, List.length_map, hlength]
  · intro i hi hl
    rw [List.length_map] at hl
    rw [List.getElem_ofFn, List.getElem_map, List.getD_eq_getElem?_getD, List.getElem?_eq_getElem hl]
    rfl

/-- `te_eval` of a tree is the value of the phrase. -/
theorem eval_hom (hC : C.Lawful) (slots : V → D) : (tree C).Hom (value C slots) (Expr.eval C slots) where
  number _ := rfl
  var _ := rfl
  call f l h := congrArg (C.call f.function) (ofFn_getD f l _ (Expr.eval C slots) h)
  unary signs a := by
    change Expr.eval C slots ((unaryOf U signs).elim a (unaryNode · a)) = signs.foldr (Sign.apply C) (a.eval C slots)
    rw [← unaryOf_value hC]
    cases unaryOf U signs with
    | none => rfl
    | some f => rfl
  binary _ _ _ := rfl

/-! ## Variables -/

def Expr.vars : Expr D V U → List V
  | .const _ => []
  | .var bound => [bound]
  | .fn _ parameters => (List.ofFn fun i => (parameters i).vars).flatten

/-- The variables of a phrase, from the left to the right. -/
def boundVars : Algebra D V U (List V) where
  number _ := []
  var bound := [bound]
  call _ l := l.flatten
  unary _ l := l
  binary _ l m := l ++ m

theorem vars_hom : (tree C).Hom boundVars (Expr.vars (D := D) (V := V)) where
  number _ := rfl
  var _ := rfl
  call f l h := congrArg List.flatten (ofFn_getD f l _ Expr.vars h)
  unary signs a := by
    change Expr.vars ((unaryOf U signs).elim a (unaryNode · a)) = a.vars
    cases unaryOf U signs with
    | none => rfl
    | some f => simp [unaryNode, Expr.vars]
  binary _ a b := by simp [tree, opNode, Expr.vars, boundVars]

/-! ## Constant folding -/

namespace Expr

theorem eval_of_isConst {e : Expr D V U} (h : e.isConst = true) (slots slots' : V → D) :
    e.eval C slots = e.eval C slots' := by
  cases e with
  | const value => rfl
  | var bound => cases h
  | fn f parameters => cases h

theorem vars_of_isConst {e : Expr D V U} (h : e.isConst = true) : e.vars = [] := by
  cases e with
  | const value => rfl
  | var bound => cases h
  | fn f parameters => cases h

variable (C)

theorem optimize_eval (slots : V → D) (e : Expr D V U) : (e.optimize C).eval C slots = e.eval C slots := by
  induction e with
  | const value => rfl
  | var bound => rfl
  | fn f parameters ih =>
    unfold optimize
    split
    · dsimp only
      have hparameters : (fun i => ((parameters i).optimize C).eval C slots) = fun i => (parameters i).eval C slots :=
        funext ih
      split
      · rename_i hconst
        have hslots : (fun i => ((parameters i).optimize C).eval C fun _ => C.nan) =
            fun i => ((parameters i).optimize C).eval C slots :=
          funext fun i => eval_of_isConst (hconst i) _ _
        change C.call f.function (List.ofFn fun i => ((parameters i).optimize C).eval C fun _ => C.nan) = _
        rw [hslots, hparameters]
        rfl
      · unfold eval
        rw [hparameters]
    · rfl

theorem optimize_vars (e : Expr D V U) : (e.optimize C).vars = e.vars := by
  induction e with
  | const value => rfl
  | var bound => rfl
  | fn f parameters ih =>
    unfold optimize
    split
    · dsimp only
      split
      · rename_i hconst
        have hnil : (fun i => (parameters i).vars) = fun _ => [] :=
          funext fun i => (ih i).symm.trans (vars_of_isConst (hconst i))
        unfold vars
        rw [hnil]
        simp
      · unfold vars
        rw [funext ih]
    · rfl

/-- Nothing is left to fold; `optimize` does not look below a function that is not pure. -/
inductive Folded : Expr D V U → Prop where
  | const (value : D) : Folded (.const value)
  | var (bound : V) : Folded (.var bound)
  | pure {f : Callee U} {parameters : Fin f.arity → Expr D V U} (hf : f.pure = true)
      (h : ∀ i, Folded (parameters i)) (hvar : ∃ i, (parameters i).isConst = false) : Folded (.fn f parameters)
  | impure {f : Callee U} {parameters : Fin f.arity → Expr D V U} (hf : f.pure = false) : Folded (.fn f parameters)

theorem optimize_folded (e : Expr D V U) : (e.optimize C).Folded := by
  induction e with
  | const value => exact .const value
  | var bound => exact .var bound
  | fn f parameters ih =>
    unfold optimize
    split
    · rename_i hf
      dsimp only
      split
      · exact .const _
      · rename_i hconst
        rw [not_forall] at hconst
        obtain ⟨i, hi⟩ := hconst
        exact .pure hf ih ⟨i, eq_false_of_ne_true hi⟩
    · rename_i hf
      exact .impure (eq_false_of_ne_true hf)

theorem optimize_eq_self {e : Expr D V U} (h : e.Folded) : e.optimize C = e := by
  induction h with
  | const value => rfl
  | var bound => rfl
  | @pure f parameters hf _ hvar ih =>
    obtain ⟨i, hi⟩ := hvar
    unfold optimize
    rw [if_pos hf]
    dsimp only
    rw [if_neg, funext ih]
    intro hconst
    have := hconst i
    rw [ih, hi] at this
    cases this
  | impure hf =>
    unfold optimize
    rw [if_neg (by rw [hf]; decide)]

/-- **Constant folding.** It changes neither the value nor the variables, and a second pass finds nothing. -/
theorem optimize_spec (e : Expr D V U) : (∀ slots, (e.optimize C).eval C slots = e.eval C slots) ∧
    (e.optimize C).vars = e.vars ∧ (e.optimize C).Folded ∧ (e.optimize C).optimize C = e.optimize C :=
  ⟨fun slots => optimize_eval C slots e, optimize_vars C e, optimize_folded C e,
    optimize_eq_self C (optimize_folded C e)⟩

end Expr

end Uvrgw.Tinyexpr
