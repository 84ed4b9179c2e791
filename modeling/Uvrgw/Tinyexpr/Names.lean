import Uvrgw.Tinyexpr.Compile

/-!
# Names

The same text, with two ways to find what a name stands for: once the variables are their names, once they
are what `rename` binds the names to.
-/

namespace Uvrgw.Tinyexpr

open Uvrgw.Lib

variable {D V W U A : Type}

/-! ## Renaming -/

def Tok.map (r : V → W) : Tok D V U → Tok D W U
  | .tokError => .tokError
  | .tokEnd => .tokEnd
  | .tokSep => .tokSep
  | .tokOpen => .tokOpen
  | .tokClose => .tokClose
  | .tokNumber value => .tokNumber value
  | .tokVariable bound => .tokVariable (r bound)
  | .tokInfix function => .tokInfix function
  | .tokFunction f => .tokFunction f

def Expr.map (r : V → W) : Expr D V U → Expr D W U
  | .const value => .const value
  | .var bound => .var (r bound)
  | .fn f parameters => .fn f fun i => (parameters i).map r

def Algebra.comap (r : V → W) (alg : Algebra D W U A) : Algebra D V U A where
  number := alg.number
  var bound := alg.var (r bound)
  call := alg.call
  unary := alg.unary
  binary := alg.binary

section Map

variable (r : V → W)

theorem map_sign (x : Sign) : Tok.map r (x.tok : Tok D V U) = x.tok := by cases x <;> rfl

theorem map_signs (signs : List Sign) :
    (signs.map (Sign.tok (D := D) (U := U))).map (Tok.map r) = signs.map Sign.tok := by
  rw [List.map_map]
  exact List.map_congr_left fun x _ => map_sign r x

theorem map_eq_sign {t : Tok D V U} {x : Sign} : Tok.map r t = x.tok ↔ t = x.tok := by
  cases t <;> cases x <;> simp [Tok.map, Sign.tok]

theorem map_eq_signs {ts : List (Tok D V U)} {signs : List Sign} :
    ts.map (Tok.map r) = signs.map Sign.tok ↔ ts = signs.map Sign.tok := by
  constructor
  · intro h
    induction signs generalizing ts with
    | nil => exact List.map_eq_nil_iff.mp h
    | cons x signs ih =>
      obtain ⟨t, ts, rfl, ht, hts⟩ := List.map_eq_cons_iff.mp h
      rw [ih hts, (map_eq_sign r).mp ht, List.map_cons]
  · rintro rfl
    exact map_signs r signs

theorem map_eq_operator {t : Tok D V U} {f : Fun U} : Tok.map r t = .tokInfix f ↔ t = .tokInfix f := by
  cases t <;> simp [Tok.map]

theorem map_eq_open {t : Tok D V U} : Tok.map r t = .tokOpen ↔ t = .tokOpen := by cases t <;> simp [Tok.map]

theorem map_eq_close {t : Tok D V U} : Tok.map r t = .tokClose ↔ t = .tokClose := by cases t <;> simp [Tok.map]

theorem map_eq_sep {t : Tok D V U} : Tok.map r t = .tokSep ↔ t = .tokSep := by cases t <;> simp [Tok.map]

theorem map_eq_function {t : Tok D V U} {f : Callee U} : Tok.map r t = .tokFunction f ↔ t = .tokFunction f := by
  cases t <;> simp [Tok.map]

/-- The phrases over the tokens with the one meaning of names are those with the other one. -/
def Renamed (G : Phrase D W U A) (G' : Phrase D V U A) : Prop := ∀ ts a, G (ts.map (Tok.map r)) a ↔ G' ts a

variable {alg : Algebra D W U A} {G Ge Gl : Phrase D W U A} {G' Ge' Gl' : Phrase D V U A}

theorem renamed_factor (hG : Renamed r G G') : Renamed r (FactorRule alg G) (FactorRule (alg.comap r) G') := by
  intro ts a
  constructor
  · intro h
    generalize hus : ts.map (Tok.map r) = us at h
    induction h generalizing ts with
    | one signs h =>
      obtain ⟨ts₁, ts₂, rfl, h₁, rfl⟩ := List.map_eq_append_iff.mp hus
      obtain rfl := (map_eq_signs r).mp h₁
      exact .one signs ((hG _ _).mp h)
    | pow signs h _ ih =>
      obtain ⟨ts₁, ts₂, rfl, h₁, h₂⟩ := List.map_eq_append_iff.mp hus
      obtain ⟨ts₀, ts₃, rfl, h₀, rfl⟩ := List.map_eq_append_iff.mp h₁
      obtain ⟨t, ts₄, rfl, ht, h₄⟩ := List.map_eq_cons_iff.mp h₂
      obtain rfl := (map_eq_signs r).mp h₀
      obtain rfl := (map_eq_operator r).mp ht
      exact .pow signs ((hG _ _).mp h) (ih ts₄ h₄)
  · intro h
    induction h with
    | one signs h =>
      rw [List.map_append, map_signs]
      exact .one signs ((hG _ _).mpr h)
    | pow signs h _ ih =>
      rw [List.map_append, List.map_append, map_signs, List.map_cons]
      exact .pow signs ((hG _ _).mpr h) ih

theorem renamed_parameters (hG : Renamed r G G') (ts : List (Tok D V U)) (l : List A) :
    ParametersRule G (ts.map (Tok.map r)) l ↔ ParametersRule G' ts l := by
  constructor
  · intro h
    generalize hus : ts.map (Tok.map r) = us at h
    induction h generalizing ts with
    | one h =>
      subst hus
      exact .one ((hG _ _).mp h)
    | cons h _ ih =>
      obtain ⟨ts₁, ts₂, rfl, rfl, h₂⟩ := List.map_eq_append_iff.mp hus
      obtain ⟨t, ts₃, rfl, ht, h₃⟩ := List.map_eq_cons_iff.mp h₂
      obtain rfl := (map_eq_sep r).mp ht
      exact .cons ((hG _ _).mp h) (ih ts₃ h₃)
  · intro h
    induction h with
    | one h => exact .one ((hG _ _).mpr h)
    | cons h _ ih =>
      rw [List.map_append, List.map_cons]
      exact .cons ((hG _ _).mpr h) ih

theorem renamed_baseRule (hG : Renamed r G G') (hGe : Renamed r Ge Ge') (hGl : Renamed r Gl Gl') :
    Renamed r (BaseRule alg G Ge Gl) (BaseRule (alg.comap r) G' Ge' Gl') := by
  intro ts a
  constructor
  · intro h
    generalize hus : ts.map (Tok.map r) = us at h
    cases h with
    | number value =>
      obtain ⟨t, ts', rfl, ht, h'⟩ := List.map_eq_cons_iff.mp hus
      obtain rfl := List.map_eq_nil_iff.mp h'
      cases t <;> cases ht
      exact .number value
    | var bound =>
      obtain ⟨t, ts', rfl, ht, h'⟩ := List.map_eq_cons_iff.mp hus
      obtain rfl := List.map_eq_nil_iff.mp h'
      cases t <;> cases ht
      exact .var _
    | constant f hf =>
      obtain ⟨t, ts', rfl, ht, h'⟩ := List.map_eq_cons_iff.mp hus
      obtain rfl := List.map_eq_nil_iff.mp h'
      obtain rfl := (map_eq_function r).mp ht
      exact .constant f hf
    | constantCall f hf =>
      obtain ⟨t, ts', rfl, ht, h'⟩ := List.map_eq_cons_iff.mp hus
      obtain ⟨t₂, ts₂, rfl, ht₂, h₂⟩ := List.map_eq_cons_iff.mp h'
      obtain ⟨t₃, ts₃, rfl, ht₃, h₃⟩ := List.map_eq_cons_iff.mp h₂
      obtain rfl := List.map_eq_nil_iff.mp h₃
      obtain rfl := (map_eq_function r).mp ht
      obtain rfl := (map_eq_open r).mp ht₂
      obtain rfl := (map_eq_close r).mp ht₃
      exact .constantCall f hf
    | apply f hf signs h =>
      obtain ⟨t, ts', rfl, ht, h'⟩ := List.map_eq_cons_iff.mp hus
      obtain ⟨ts₁, ts₂, rfl, h₁, rfl⟩ := List.map_eq_append_iff.mp h'
      obtain rfl := (map_eq_function r).mp ht
      obtain rfl := (map_eq_signs r).mp h₁
      exact .apply f hf signs ((hG _ _).mp h)
    | call f hf h hlength =>
      obtain ⟨t, ts', rfl, ht, h'⟩ := List.map_eq_cons_iff.mp hus
      obtain ⟨t₂, ts₂, rfl, ht₂, h₂⟩ := List.map_eq_cons_iff.mp h'
      obtain ⟨ts₃, ts₄, rfl, rfl, h₄⟩ := List.map_eq_append_iff.mp h₂
      obtain ⟨t₅, ts₅, rfl, ht₅, h₅⟩ := List.map_eq_cons_iff.mp h₄
      obtain rfl := List.map_eq_nil_iff.mp h₅
      obtain rfl := (map_eq_function r).mp ht
      obtain rfl := (map_eq_open r).mp ht₂
      obtain rfl := (map_eq_close r).mp ht₅
      exact .call f hf ((renamed_parameters r hGe _ _).mp h) hlength
    | group h =>
      obtain ⟨t, ts', rfl, ht, h'⟩ := List.map_eq_cons_iff.mp hus
      obtain ⟨ts₃, ts₄, rfl, rfl, h₄⟩ := List.map_eq_append_iff.mp h'
      obtain ⟨t₅, ts₅, rfl, ht₅, h₅⟩ := List.map_eq_cons_iff.mp h₄
      obtain rfl := List.map_eq_nil_iff.mp h₅
      obtain rfl := (map_eq_open r).mp ht
      obtain rfl := (map_eq_close r).mp ht₅
      exact .group ((hGl _ _).mp h)
  · intro h
    cases h with
    | number value => exact .number value
    | var bound => exact .var (r bound)
    | constant f hf => exact .constant f hf
    | constantCall f hf => exact .constantCall f hf
    | apply f hf signs h =>
      rw [List.map_cons, List.map_append, map_signs]
      exact .apply f hf signs ((hG _ _).mpr h)
    | call f hf h hlength =>
      rw [List.map_cons, List.map_cons, List.map_append]
      exact .call f hf ((renamed_parameters r hGe _ _).mpr h) hlength
    | group h =>
      rw [List.map_cons, List.map_append]
      exact .group ((hGl _ _).mpr h)

theorem infixOp_map [DecidableEq U] (functions : List (Fun U)) :
    (fun t : Tok D V U => infixOp functions (t.map r)) = infixOp functions := by
  funext t
  cases t <;> rfl

theorem sepOp_map : (fun t : Tok D V U => sepOp (t.map r)) = sepOp := by
  funext t
  cases t <;> rfl

variable [DecidableEq U]

theorem renamed_level {functions : List (Fun U)} {node : Fun U → A → A → A} (hG : Renamed r G G') :
    Renamed r (Chain (infixOp functions) node G) (Chain (infixOp functions) node G') := by
  intro ts a
  rw [Chain.map_iff hG, infixOp_map]

theorem renamed_expr (hG : Renamed r G G') : Renamed r (ExprPhrase alg G) (ExprPhrase (alg.comap r) G') :=
  have hterm := renamed_level r (renamed_factor r hG)
  renamed_level r (renamed_level r (renamed_level r (renamed_level r (renamed_level r hterm))))

theorem renamed_list (hG : Renamed r G G') : Renamed r (ListPhrase alg G) (ListPhrase (alg.comap r) G') := by
  intro ts a
  unfold ListPhrase
  rw [Chain.map_iff (renamed_expr r hG), sepOp_map]
  rfl

theorem renamed_base (n : Nat) : Renamed r (Base alg n) (Base (alg.comap r) n) := by
  induction n with
  | zero => exact fun ts a => Iff.rfl
  | succ n ih => exact renamed_baseRule r ih (renamed_expr r ih) (renamed_list r ih)

theorem renamed_sentence (n : Nat) : Renamed r (Sentence alg n) (Sentence (alg.comap r) n) :=
  renamed_list r (renamed_base r n)

end Map

/-! ## Variables -/

def Tok.bound? : Tok D V U → Option V
  | .tokVariable bound => some bound
  | _ => none

/-- The variables of a phrase are those of its tokens. -/
def Reads (G : Phrase D V U (List V)) : Prop := ∀ ts l, G ts l → l = ts.filterMap Tok.bound?

theorem filterMap_signs (signs : List Sign) :
    (signs.map (Sign.tok (D := D) (V := V) (U := U))).filterMap Tok.bound? = [] := by
  rw [List.filterMap_map, List.filterMap_eq_nil_iff]
  intro x _
  cases x <;> rfl

section Reads

variable {G Ge Gl : Phrase D V U (List V)}

theorem reads_factor (hG : Reads G) : Reads (FactorRule boundVars G) := by
  intro ts l h
  induction h with
  | one signs h =>
    rw [List.filterMap_append, filterMap_signs, ← hG _ _ h]
    rfl
  | pow signs h _ ih =>
    rw [List.filterMap_append, List.filterMap_append, filterMap_signs, ← hG _ _ h,
      List.filterMap_cons_none rfl, ← ih]
    rfl

theorem reads_parameters (hG : Reads G) {ts : List (Tok D V U)} {l : List (List V)} (h : ParametersRule G ts l) :
    l.flatten = ts.filterMap Tok.bound? := by
  induction h with
  | one h =>
    rw [← hG _ _ h]
    simp
  | cons h _ ih => rw [List.filterMap_append, List.filterMap_cons_none rfl, ← hG _ _ h, ← ih, List.flatten_cons]

theorem reads_baseRule (hG : Reads G) (hGe : Reads Ge) (hGl : Reads Gl) : Reads (BaseRule boundVars G Ge Gl) := by
  intro ts l h
  cases h with
  | number value => rfl
  | var bound => rfl
  | constant f hf => rfl
  | constantCall f hf => rfl
  | apply f hf signs h =>
    rw [List.filterMap_cons_none rfl, List.filterMap_append, filterMap_signs, ← hG _ _ h]
    simp [boundVars]
  | call f hf h hlength =>
    rw [List.filterMap_cons_none rfl, List.filterMap_cons_none rfl, List.filterMap_append, ← reads_parameters hGe h]
    simp [boundVars, Tok.bound?]
  | group h =>
    rw [List.filterMap_cons_none rfl, List.filterMap_append, ← hGl _ _ h]
    simp [Tok.bound?]

theorem reads_chain {op : Tok D V U → Option (Fun U)} (hG : Reads G) (hop : ∀ t f, op t = some f → t.bound? = none) :
    Reads (Chain op (fun _ l m => l ++ m) G) := by
  intro ts l h
  induction h with
  | one h => exact hG _ _ h
  | snoc _ ht hu ih =>
    rw [List.filterMap_append, List.filterMap_cons_none (hop _ _ ht), ← hG _ _ hu, ← ih]

variable [DecidableEq U]

theorem reads_level {functions : List (Fun U)} (hG : Reads G) :
    Reads (Chain (infixOp functions) (fun _ l m => l ++ m) G) := by
  refine reads_chain hG fun t f h => ?_
  rw [(infixOp_eq_some.mp h).1]
  rfl

theorem reads_expr (hG : Reads G) : Reads (ExprPhrase boundVars G) :=
  have hterm := reads_level (reads_factor hG)
  reads_level (reads_level (reads_level (reads_level (reads_level hterm))))

theorem reads_list (hG : Reads G) : Reads (ListPhrase boundVars G) := by
  refine reads_chain (reads_expr hG) fun t f h => ?_
  rw [(sepOp_eq_some.mp h).1]
  rfl

theorem reads_base (n : Nat) : Reads (Base (boundVars : Algebra D V U (List V)) n) := by
  induction n with
  | zero => exact fun ts l h => h.elim
  | succ n ih => exact reads_baseRule ih (reads_expr ih) (reads_list ih)

end Reads

/-- The variables of a tree are those of the tokens, in their order. -/
theorem sentence_vars [DecidableEq U] {C : Doubles D U} {n : Nat} {ts : List (Tok D V U)} {a : Expr D V U}
    (h : Sentence (tree C) n ts a) : a.vars = ts.filterMap Tok.bound? :=
  reads_list (reads_base n) ts _ ((sentence_image vars_hom n ts _).mpr ⟨a, h, rfl⟩)

/-! ## Two searches -/

section Searches

/-- The search `find'` binds what `find` finds. -/
def Binds (rename : V → Option W) (find : Find V U) (find' : Find W U) : Prop :=
  ∀ name len, IsName name len → find' name len = (find name len).bind fun
    | .var bound => (rename bound).map .var
    | .function f => some (.function f)

def Tok.bind (rename : V → Option W) : Tok D V U → Tok D W U
  | .tokVariable bound => ((rename bound).map .tokVariable).getD .tokError
  | .tokError => .tokError
  | .tokEnd => .tokEnd
  | .tokSep => .tokSep
  | .tokOpen => .tokOpen
  | .tokClose => .tokClose
  | .tokNumber value => .tokNumber value
  | .tokInfix function => .tokInfix function
  | .tokFunction f => .tokFunction f

variable {C : Doubles D U} {rename : V → Option W} {find : Find V U} {find' : Find W U}

theorem operator_bind (c : Char) (rest : List Char) : operator (D := D) (V := W) (U := U) c rest =
    ((operator c rest).1.map (Tok.bind (V := V) rename), (operator (D := D) (V := V) (U := U) c rest).2) := by
  unfold operator
  dsimp only
  split <;> first | rfl | (split <;> rfl)

theorem scanToken_bind (h : Binds rename find find') (c : Char) (rest : List Char) :
    scanToken C find' c rest = ((scanToken C find c rest).1.map (Tok.bind rename), (scanToken C find c rest).2) := by
  unfold scanToken
  split
  · cases parseNumber C (c :: rest) with
    | none => rfl
    | some r => rfl
  · split
    · dsimp only
      rw [h _ _ (isName_takeWhile (c :: rest))]
      cases find (c :: rest) ((c :: rest).takeWhile isNameChar).length with
      | none => rfl
      | some address =>
        cases address with
        | var bound =>
          cases hbound : rename bound with
          | none => simp [Address.tok, Tok.bind, hbound]
          | some w => simp [Address.tok, Tok.bind, hbound]
        | function f => rfl
    · exact operator_bind c rest

theorem nextToken_bind (h : Binds rename find find') (text : List Char) :
    nextToken C find' text = ((nextToken C find text).1.bind rename, (nextToken C find text).2) := by
  induction text with
  | nil => rfl
  | cons c rest ih =>
    unfold nextToken
    rw [scanToken_bind h]
    cases hscan : scanToken C find c rest with
    | mk t next =>
      cases t with
      | none => exact ih
      | some t => rfl

/-- All names of the tokens are bound. -/
def Bound (rename : V → Option W) (ts : List (Tok D V U)) : Prop :=
  ∀ bound ∈ ts.filterMap Tok.bound?, (rename bound).isSome = true

theorem bind_final (t : Tok D V U) : (t.bind rename).final = true ↔
    t.final = true ∨ ∃ bound, t = .tokVariable bound ∧ rename bound = none := by
  cases t with
  | tokVariable bound => cases h : rename bound <;> simp [Tok.bind, Tok.final, h]
  | _ => simp [Tok.bind, Tok.final]

theorem bind_eq_end (t : Tok D V U) : t.bind rename = .tokEnd ↔ t = .tokEnd := by
  cases t with
  | tokVariable bound => cases h : rename bound <;> simp [Tok.bind, h]
  | _ => simp [Tok.bind]

theorem bound_cons (t : Tok D V U) (ts : List (Tok D V U)) : Bound rename (t :: ts) ↔
    (∀ bound, t = .tokVariable bound → (rename bound).isSome = true) ∧ Bound rename ts := by
  cases t with
  | tokVariable bound => simp [Bound, Tok.bound?]
  | _ => simp [Bound, Tok.bound?]

theorem lex_bind (h : Binds rename find find') (text : List Char) (ts' : List (Tok D W U)) :
    lex C find' text = ts' ++ [.tokEnd] ↔
      ∃ ts, lex C find text = ts ++ [.tokEnd] ∧ Bound rename ts ∧ ts' = ts.map (Tok.bind rename) := by
  induction hn : text.length using Nat.strong_induction_on generalizing text ts' with
  | _ n ih =>
    have hnext := nextToken_bind (C := C) h text
    by_cases hfinal' : (nextToken C find' text).1.final = true
    · rw [lex_final C find' hfinal', hnext]
      rw [hnext, bind_final] at hfinal'
      rcases hfinal' with hfinal | ⟨bound, hbound, hnone⟩
      · rw [lex_final C find hfinal]
        constructor
        · intro heq
          cases ts' with
          | nil =>
            have hend := (List.cons.inj heq).1
            refine ⟨[], ?_, by simp [Bound], rfl⟩
            rw [(bind_eq_end _).mp hend]
            rfl
          | cons t ts' => simp at heq
        · rintro ⟨ts, heq, -, rfl⟩
          cases ts with
          | nil =>
            rw [List.nil_append] at heq
            rw [(List.cons.inj heq).1]
            rfl
          | cons t ts => simp at heq
      · have hfinal : (nextToken C find text).1.final = false := by rw [hbound]; rfl
        rw [lex_step C find hfinal, hbound]
        constructor
        · intro heq
          rw [Tok.bind, hnone] at heq
          cases ts' with
          | nil => simp at heq
          | cons t ts' => simp at heq
        · rintro ⟨ts, heq, hts, -⟩
          exfalso
          cases ts with
          | nil => simp at heq
          | cons t ts =>
            obtain ⟨rfl, -⟩ := List.cons.inj heq
            have := ((bound_cons _ _).mp hts).1 bound rfl
            rw [hnone] at this
            cases this
    · have hfinal' := eq_false_of_ne_true hfinal'
      have hfinal : (nextToken C find text).1.final = false := by
        by_contra htrue
        rw [hnext] at hfinal'
        rw [(bind_final _).mpr (.inl (by simpa using htrue))] at hfinal'
        cases hfinal'
      have hbound : ∀ bound, (nextToken C find text).1 = .tokVariable bound → (rename bound).isSome = true := by
        intro bound hbound
        by_contra hnone
        rw [hnext, (bind_final _).mpr (.inr ⟨bound, hbound, by simpa using hnone⟩)] at hfinal'
        cases hfinal'
      have hlt := (nextToken_suffix C find text).2 hfinal
      rw [lex_step C find' hfinal', lex_step C find hfinal, hnext]
      dsimp only
      constructor
      · intro heq
        cases ts' with
        | nil =>
          have hend := (bind_eq_end _).mp (List.cons.inj heq).1
          rw [hend] at hfinal
          cases hfinal
        | cons t ts' =>
          obtain ⟨rfl, hrest⟩ := List.cons.inj heq
          obtain ⟨ts, hlex, hts, rfl⟩ := (ih _ (by omega) _ ts' rfl).mp hrest
          exact ⟨_ :: ts, by rw [hlex]; rfl, (bound_cons _ _).mpr ⟨hbound, hts⟩, rfl⟩
      · rintro ⟨ts, heq, hts, rfl⟩
        cases ts with
        | nil =>
          rw [List.nil_append] at heq
          rw [(List.cons.inj heq).1] at hfinal
          cases hfinal
        | cons t ts =>
          obtain ⟨rfl, hrest⟩ := List.cons.inj heq
          have hlex := (ih _ (by omega) (nextToken C find text).2 _ rfl).mpr ⟨ts, hrest,
              ((bound_cons _ _).mp hts).2, rfl⟩
          rw [hlex]
          rfl

end Searches

/-! ## Compiling under another search -/

namespace Expr

variable {C : Doubles D U} (r : V → W)

theorem eval_map (slots : W → D) (e : Expr D V U) : (e.map r).eval C slots = e.eval C fun v => slots (r v) := by
  induction e with
  | const value => rfl
  | var bound => rfl
  | fn f parameters ih =>
    change C.call f.function (List.ofFn fun i => ((parameters i).map r).eval C slots) = _
    rw [funext ih]
    rfl

theorem isConst_map (e : Expr D V U) : (e.map r).isConst = e.isConst := by cases e <;> rfl

theorem optimize_map (e : Expr D V U) : (e.map r).optimize C = (e.optimize C).map r := by
  induction e with
  | const value => rfl
  | var bound => rfl
  | fn f parameters ih =>
    rw [map, optimize, optimize]
    split
    · dsimp only
      have hconst : (∀ i, (((parameters i).map r).optimize C).isConst = true) ↔
          ∀ i, ((parameters i).optimize C).isConst = true := by
        simp only [ih, isConst_map]
      by_cases h : ∀ i, ((parameters i).optimize C).isConst = true
      · rw [if_pos (hconst.mpr h), if_pos h, funext ih, map]
        congr 1
        exact eval_map r _ (.fn f fun i => (parameters i).optimize C)
      · rw [if_neg (mt hconst.mp h), if_neg h, funext ih]
        rfl
    · rfl

end Expr

theorem map_hom {C : Doubles D U} (r : V → W) : (tree C).Hom ((tree C).comap r) (Expr.map r) where
  number _ := rfl
  var _ := rfl
  call f l h := by
    change Expr.fn f (fun i => (l.getD i (.const C.nan)).map r) =
      Expr.fn f fun i => (l.map (Expr.map r)).getD i (.const C.nan)
    congr 1
    funext i
    simp only [List.getD_eq_getElem?_getD, List.getElem?_map]
    cases l[i.val]? <;> rfl
  unary signs a := by
    change Expr.map r ((unaryOf U signs).elim a (unaryNode · a)) =
      (unaryOf U signs).elim (a.map r) (unaryNode · (a.map r))
    cases unaryOf U signs with
    | none => rfl
    | some f =>
      change Expr.fn _ _ = Expr.fn _ _
      congr 1
      funext i
      match i with
      | ⟨0, _⟩ => rfl
  binary f a b := by
    change Expr.fn _ _ = Expr.fn _ _
    congr 1
    funext i
    match i with
    | ⟨0, _⟩ => rfl
    | ⟨1, _⟩ => rfl

theorem map_bind {rename : V → Option W} {r : V → W} {ts : List (Tok D V U)}
    (h : ∀ bound ∈ ts.filterMap Tok.bound?, rename bound = some (r bound)) :
    ts.map (Tok.bind rename) = ts.map (Tok.map r) := by
  refine List.map_congr_left fun t ht => ?_
  cases t with
  | tokVariable bound =>
    have hbound := h bound (List.mem_filterMap.mpr ⟨_, ht, rfl⟩)
    simp [Tok.bind, Tok.map, hbound]
  | _ => rfl

/-- Bind a name; one that has no binding does not matter. -/
def bound [Inhabited W] (rename : V → Option W) (name : V) : W := (rename name).getD default

theorem rename_eq_bound [Inhabited W] {rename : V → Option W} {name : V} (h : (rename name).isSome = true) :
    rename name = some (bound rename name) := by
  obtain ⟨w, hw⟩ := Option.isSome_iff_exists.mp h
  unfold bound
  rw [hw]
  rfl

/-- **Names.** Compiling with the variables of a list gives what compiling with bare names gives, with the names
bound to the variables; it fails where a name is not bound. -/
theorem compileWith_rename [DecidableEq U] [Inhabited W] {C : Doubles D U} {rename : V → Option W} {find : Find V U}
    {find' : Find W U} (h : Binds rename find find') (text : List Char) (e' : Expr D W U) :
    compileWith C find' text = .ok e' ↔ ∃ e, compileWith C find text = .ok e ∧
      (∀ name ∈ e.vars, (rename name).isSome = true) ∧ e' = e.map (bound rename) := by
  simp only [compileWith_iff]
  constructor
  · rintro ⟨ts', a', hlex', hts', rfl⟩
    obtain ⟨ts, hlex, hbound, rfl⟩ := (lex_bind h text ts').mp hlex'
    rw [map_bind fun name hmem => rename_eq_bound (hbound name hmem)] at hts'
    obtain ⟨a, ha, rfl⟩ := (sentence_image (map_hom _) _ ts a').mp ((renamed_sentence _ _ ts a').mp hts')
    refine ⟨a.optimize C, ⟨ts, a, hlex, ha, rfl⟩, ?_, Expr.optimize_map _ a⟩
    rw [Expr.optimize_vars, sentence_vars ha]
    exact hbound
  · rintro ⟨e, ⟨ts, a, hlex, ha, rfl⟩, hvars, rfl⟩
    rw [Expr.optimize_vars, sentence_vars ha] at hvars
    refine ⟨ts.map (Tok.map (bound rename)), a.map (bound rename), ?_, ?_, (Expr.optimize_map _ a).symm⟩
    · refine (lex_bind h text _).mpr ⟨ts, hlex, hvars, ?_⟩
      exact (map_bind fun name hmem => rename_eq_bound (hvars name hmem)).symm
    · exact (renamed_sentence _ _ ts _).mpr ((sentence_image (map_hom _) _ ts _).mpr ⟨a, ha, rfl⟩)

end Uvrgw.Tinyexpr
