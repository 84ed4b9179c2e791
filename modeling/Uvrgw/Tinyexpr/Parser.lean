import Uvrgw.Tinyexpr.Grammar

/-!
# The parser reads the grammar

One lemma for each function of the parser: what it reads without an error is a phrase, and it reads every
phrase in front of a token that does not continue it.
-/

namespace Uvrgw.Tinyexpr

open Uvrgw.Lib

variable {D V U : Type} (C : Doubles D U) (find : Find V U)

/-! ## The state -/

namespace State

variable {s : State D V U} {t u : Tok D V U} {rest : List (Tok D V U)}

theorem type_eq (h : s.tokens C find = t :: rest) : s.type = t := (stream C find).type_eq h

theorem tokens_advance (h : s.tokens C find = t :: u :: rest) : (s.advance C find).tokens C find = u :: rest :=
  (stream C find).tokens_advance h

theorem tokens_advance_append {ts : List (Tok D V U)} (h : s.tokens C find = t :: (ts ++ u :: rest)) :
    (s.advance C find).tokens C find = ts ++ u :: rest := by
  cases ts with
  | nil => exact tokens_advance C find h
  | cons v ts => exact tokens_advance C find h

theorem exists_tokens (s : State D V U) : ∃ rest, s.tokens C find = s.type :: rest :=
  (stream C find).exists_tokens s

theorem tokens_pos (s : State D V U) : 0 < (s.tokens C find).length :=
  List.length_pos_iff.mpr ((stream C find).tokens_ne_nil s)

theorem tokens_mono (h : s.type.final = false) :
    ((s.advance C find).tokens C find).length < (s.tokens C find).length := by
  rw [tokens_step C find h, List.length_cons]
  exact Nat.lt_succ_self _

/-- Where at most one token is left, it is a final one. -/
theorem final_of_length (h : (s.tokens C find).length ≤ 1) : s.type.final = true := by
  by_contra hfinal
  have hmono := tokens_mono C find (eq_false_of_ne_true hfinal)
  have hpos := tokens_pos C find (s.advance C find)
  omega

end State

theorem left_le (s : State D V U) : (s.tokens C find).length ≤ (reader C find).left s + 1 :=
  (stream C find).length_le s

/-! ## The signs of `power` -/

theorem Sign.tok_final (x : Sign) : (x.tok : Tok D V U).final = false := by cases x <;> rfl

theorem signLoop_spec (fuel : Nat) (sign : Int) (s : State D V U) (hfuel : (s.tokens C find).length ≤ fuel + 1) :
    ∃ (signs : List Sign) (s' : State D V U), signLoop C find fuel sign s = (signs.foldl stepSign sign, s') ∧
      (∀ x ∈ signs, x ≠ .not) ∧ s.tokens C find = signs.map Sign.tok ++ s'.tokens C find ∧
      ∀ x : Sign, s'.type = x.tok → x = .not := by
  induction fuel generalizing sign s with
  | zero =>
    have hfinal := State.final_of_length C find hfuel
    refine ⟨[], s, rfl, by simp, rfl, fun x h => ?_⟩
    rw [h, x.tok_final] at hfinal
    cases hfinal
  | succ fuel ih =>
    by_cases hx : ∃ x : Sign, x ≠ .not ∧ s.type = x.tok
    · obtain ⟨x, hne, htype⟩ := hx
      have hfinal : s.type.final = false := by rw [htype]; exact x.tok_final
      have hmono := State.tokens_mono C find hfinal
      obtain ⟨signs, s', hsigns, hnot, htokens, hend⟩ := ih (stepSign sign x) (s.advance C find) (by omega)
      refine ⟨x :: signs, s', ?_, by simpa using ⟨hne, hnot⟩, ?_, hend⟩
      · rw [List.foldl_cons, ← hsigns, signLoop, htype]
        cases x with
        | plus => rfl
        | minus => rfl
        | not => contradiction
      · rw [State.tokens_step C find hfinal, htokens, htype]
        rfl
    · have hend : ∀ x : Sign, s.type = x.tok → x = .not := fun x h => by_contra fun hne => hx ⟨x, hne, h⟩
      refine ⟨[], s, ?_, by simp, rfl, hend⟩
      unfold signLoop
      split
      · cases hend .plus (by assumption)
      · cases hend .minus (by assumption)
      · rfl

theorem logicalLoop_spec (fuel : Nat) (logical : Int) (s : State D V U)
    (hfuel : (s.tokens C find).length ≤ fuel + 1) :
    ∃ (signs : List Sign) (s' : State D V U),
      logicalLoop C find fuel logical s = (signs.foldl stepLogical logical, s') ∧
      s.tokens C find = signs.map Sign.tok ++ s'.tokens C find ∧ ∀ x : Sign, s'.type ≠ x.tok := by
  induction fuel generalizing logical s with
  | zero =>
    have hfinal := State.final_of_length C find hfuel
    refine ⟨[], s, rfl, rfl, fun x h => ?_⟩
    rw [h, x.tok_final] at hfinal
    cases hfinal
  | succ fuel ih =>
    by_cases hx : ∃ x : Sign, s.type = x.tok
    · obtain ⟨x, htype⟩ := hx
      have hfinal : s.type.final = false := by rw [htype]; exact x.tok_final
      have hmono := State.tokens_mono C find hfinal
      obtain ⟨signs, s', hsigns, htokens, hend⟩ := ih (stepLogical logical x) (s.advance C find) (by omega)
      refine ⟨x :: signs, s', ?_, ?_, hend⟩
      · rw [List.foldl_cons, ← hsigns, logicalLoop, htype]
        cases x <;> rfl
      · rw [State.tokens_step C find hfinal, htokens, htype]
        rfl
    · have hend : ∀ x : Sign, s.type ≠ x.tok := fun x h => hx ⟨x, h⟩
      refine ⟨[], s, ?_, rfl, hend⟩
      unfold logicalLoop
      split
      · exact absurd (by assumption) (hend .plus)
      · exact absurd (by assumption) (hend .minus)
      · exact absurd (by assumption) (hend .not)
      · rfl

theorem takeWhile_signs {pre post : List Sign} (hpre : ∀ x ∈ pre, x ≠ .not) (hpost : ∀ x ∈ post.head?, x = .not) :
    (pre ++ post).takeWhile (· ≠ .not) = pre ∧ (pre ++ post).dropWhile (· ≠ .not) = post := by
  have hpos : ∀ x ∈ pre, decide (x ≠ Sign.not) = true := fun x hx => decide_eq_true (hpre x hx)
  rw [List.takeWhile_append_of_pos hpos, List.dropWhile_append_of_pos hpos]
  cases post with
  | nil => exact ⟨List.append_nil pre, rfl⟩
  | cons x post =>
    obtain rfl := hpost x rfl
    exact ⟨List.append_nil pre, rfl⟩

theorem unaryFun_isSome (sign logical : Int) :
    decide (sign ≠ 1 ∨ logical ≠ 0) = (unaryFun sign logical : Option (Fun U)).isSome := by
  unfold unaryFun
  split <;> split <;> simp [*] <;> split <;> rfl

/-- `power` reads all signs, and then a `<base>`. -/
theorem power_eq (base : Parser D V U) (s : State D V U) : ∃ (signs : List Sign) (s' : State D V U),
    s.tokens C find = signs.map Sign.tok ++ s'.tokens C find ∧ (∀ x : Sign, s'.type ≠ x.tok) ∧
      power C find base s = (base s').map fun (b, s) =>
        ((tree C).unary signs b, { s with appliedUnary := (unaryOf U signs).isSome }) := by
  obtain ⟨pre, s₁, hsign, hpre, hs₁, hend₁⟩ := signLoop_spec C find _ 1 s (left_le C find s)
  obtain ⟨post, s₂, hlogical, hs₂, hend⟩ := logicalLoop_spec C find _ 0 s₁ (left_le C find s₁)
  have hpost : ∀ x ∈ post.head?, x = Sign.not := by
    intro x hx
    obtain ⟨post', rfl⟩ : ∃ post', post = x :: post' := by
      cases post with
      | nil => cases hx
      | cons y post' => exact ⟨post', by rw [Option.some.inj hx]⟩
    exact hend₁ x (State.type_eq C find hs₂)
  obtain ⟨htake, hdrop⟩ := takeWhile_signs hpre hpost
  refine ⟨pre ++ post, s₂, by rw [hs₁, hs₂]; simp, hend, ?_⟩
  have hunary : unaryOf U (pre ++ post) = unaryFun (pre.foldl stepSign 1) (post.foldl stepLogical 0) := by
    unfold unaryOf signOf logicalOf
    rw [htake, hdrop]
  unfold power
  rw [hsign]
  dsimp only
  rw [hlogical]
  dsimp only [tree]
  rw [hunary]
  cases hbase : base s₂ with
  | none => rfl
  | some r =>
    dsimp only [Option.map]
    rw [unaryFun_isSome (U := U)]

variable {C find}

/-- A phrase starts with a token that is not a sign. -/
def Headed (G : Phrase D V U (Expr D V U)) : Prop :=
  ∀ ts a, G ts a → ∃ t us, ts = t :: us ∧ ∀ x : Sign, t ≠ x.tok

theorem signs_unique {signs signs' : List Sign} {t t' : Tok D V U} {rest rest' : List (Tok D V U)}
    (h : signs.map Sign.tok ++ t :: rest = signs'.map Sign.tok ++ t' :: rest') (ht : ∀ x : Sign, t ≠ x.tok)
    (ht' : ∀ x : Sign, t' ≠ x.tok) : signs = signs' ∧ t :: rest = t' :: rest' := by
  induction signs generalizing signs' with
  | nil =>
    cases signs' with
    | nil => exact ⟨rfl, h⟩
    | cons x signs' => exact absurd (List.cons.inj h).1 (ht x)
  | cons x signs ih =>
    cases signs' with
    | nil => exact absurd (List.cons.inj h).1.symm (ht' x)
    | cons y signs' =>
      obtain ⟨hxy, hrest⟩ := List.cons.inj h
      obtain ⟨hsigns, htail⟩ := ih hrest
      have : x = y := by cases x <;> cases y <;> first | rfl | cases hxy
      exact ⟨by rw [this, hsigns], htail⟩

section Power

variable {stop : Tok D V U → Prop} {G : Phrase D V U (Expr D V U)} {base : Parser D V U}

theorem power_sound (hbase : (stream C find).Parses .tokError stop G base) {s s' : State D V U} {e : Expr D V U}
    (h : power C find base s = some (e, s')) (hs' : s'.type ≠ .tokError) :
    ∃ signs ts a, G ts a ∧ s.tokens C find = signs.map Sign.tok ++ ts ++ s'.tokens C find ∧
      e = (tree C).unary signs a ∧ s'.appliedUnary = (unaryOf U signs).isSome := by
  obtain ⟨signs, s₁, hs₁, -, hpower⟩ := power_eq C find base s
  rw [hpower] at h
  cases hb : base s₁ with
  | none =>
    rw [hb] at h
    cases h
  | some r =>
    rw [hb] at h
    cases h
    obtain ⟨ts, hts, htokens⟩ := hbase.sound hb hs'
    refine ⟨signs, ts, r.1, hts, ?_, rfl, rfl⟩
    have htokens : s₁.tokens C find = ts ++ r.2.tokens C find := htokens
    rw [hs₁, htokens, List.append_assoc]
    rfl

theorem power_complete (hbase : (stream C find).Parses .tokError stop G base) (hhead : Headed G)
    {s : State D V U} {signs : List Sign} {ts rest : List (Tok D V U)} {t : Tok D V U} {a : Expr D V U} (h : G ts a)
    (htokens : s.tokens C find = signs.map Sign.tok ++ ts ++ t :: rest) (ht : stop t) :
    ∃ s', power C find base s = some ((tree C).unary signs a, s') ∧ s'.tokens C find = t :: rest ∧
      s'.appliedUnary = (unaryOf U signs).isSome := by
  obtain ⟨signs', s₁, hs₁, hend, hpower⟩ := power_eq C find base s
  obtain ⟨u, us, rfl, hu⟩ := hhead ts a h
  obtain ⟨rest₁, hrest₁⟩ := State.exists_tokens C find s₁
  rw [hs₁, hrest₁, List.append_assoc, List.cons_append] at htokens
  obtain ⟨rfl, htail⟩ := signs_unique htokens hend hu
  obtain ⟨s₂, hb, hs₂⟩ := hbase.complete h (hrest₁.trans htail) ht
  exact ⟨{ s₂ with appliedUnary := (unaryOf U signs').isSome }, by rw [hpower, hb]; rfl, hs₂, rfl⟩

end Power

/-! ## The slot of `factor` -/

namespace Expr

/-- A path that leads to a node. -/
def HasPath : Expr D V U → List Nat → Prop
  | _, [] => True
  | .fn f parameters, i :: path => ∃ h : i < f.arity, (parameters ⟨i, h⟩).HasPath path
  | _, _ => False

@[simp] theorem get_nil (n : Expr D V U) : n.get [] = n := by cases n <;> rfl

@[simp] theorem set_nil (n x : Expr D V U) : n.set [] x = x := by cases n <;> rfl

theorem get_set_append {n x : Expr D V U} {p : List Nat} (h : n.HasPath p) (q : List Nat) :
    (n.set p x).get (p ++ q) = x.get q := by
  induction p generalizing n with
  | nil => rw [set_nil, List.nil_append]
  | cons i p ih =>
    cases n with
    | const value => exact h.elim
    | var bound => exact h.elim
    | fn f parameters =>
      obtain ⟨hi, hp⟩ := h
      rw [set, List.cons_append, get, dif_pos hi, if_pos rfl]
      exact ih hp

theorem set_set_append {n x y : Expr D V U} {p : List Nat} (h : n.HasPath p) (q : List Nat) :
    (n.set p x).set (p ++ q) y = n.set p (x.set q y) := by
  induction p generalizing n with
  | nil => rw [set_nil, set_nil, List.nil_append]
  | cons i p ih =>
    cases n with
    | const value => exact h.elim
    | var bound => exact h.elim
    | fn f parameters =>
      obtain ⟨hi, hp⟩ := h
      rw [set, List.cons_append, set, set]
      congr 1
      funext j
      by_cases hj : j.val = i
      · subst hj
        rw [if_pos rfl, if_pos rfl, if_pos rfl]
        exact ih hp
      · rw [if_neg hj, if_neg hj, if_neg hj]

theorem set_get {n : Expr D V U} {p : List Nat} (h : n.HasPath p) : n.set p (n.get p) = n := by
  induction p generalizing n with
  | nil => rw [get_nil, set_nil]
  | cons i p ih =>
    cases n with
    | const value => exact h.elim
    | var bound => exact h.elim
    | fn f parameters =>
      obtain ⟨hi, hp⟩ := h
      rw [get, dif_pos hi, set]
      congr 1
      funext j
      by_cases hj : j.val = i
      · subst hj
        rw [if_pos rfl]
        exact ih hp
      · rw [if_neg hj]

theorem hasPath_append {n x : Expr D V U} {p q : List Nat} (h : n.HasPath p) (hq : x.HasPath q) :
    (n.set p x).HasPath (p ++ q) := by
  induction p generalizing n with
  | nil => rwa [set_nil, List.nil_append]
  | cons i p ih =>
    cases n with
    | const value => exact h.elim
    | var bound => exact h.elim
    | fn f parameters =>
      obtain ⟨hi, hp⟩ := h
      rw [set, List.cons_append]
      refine ⟨hi, ?_⟩
      dsimp only
      rw [if_pos rfl]
      exact ih hp

theorem hasPath_nil (n : Expr D V U) : n.HasPath [] := by cases n <;> trivial

end Expr

section Nodes

variable (function : Fun U) (a b y : Expr D V U) (path : List Nat)

theorem opNode_get : (opNode function a b).get (1 :: path) = b.get path := by
  rw [opNode, Expr.get, dif_pos (Nat.lt_succ_self 1)]
  rfl

theorem opNode_set : (opNode function a b).set (1 :: path) y = opNode function a (b.set path y) := by
  rw [opNode, Expr.set, opNode]
  congr 1
  funext j
  match j with
  | ⟨0, _⟩ => rfl
  | ⟨1, _⟩ => rfl

theorem unaryNode_get : (unaryNode function a).get (0 :: path) = a.get path := by
  rw [unaryNode, Expr.get, dif_pos Nat.one_pos]
  rfl

theorem unaryNode_set : (unaryNode function a).set (0 :: path) y = unaryNode function (a.set path y) := by
  rw [unaryNode, Expr.set, unaryNode]
  congr 1
  funext j
  match j with
  | ⟨0, _⟩ => rfl

end Nodes

/-- Where the next exponent goes: below the unary operator of the last one. -/
def slotOf (signs : List Sign) : List Nat := if (unaryOf U signs).isSome then [1, 0] else [1]

theorem opNode_slot (C : Doubles D U) (x b : Expr D V U) (signs : List Sign) :
    (opNode .pow x ((tree C).unary signs b)).HasPath (slotOf (U := U) signs) ∧
      (opNode .pow x ((tree C).unary signs b)).get (slotOf (U := U) signs) = b ∧
      ∀ y, (opNode .pow x ((tree C).unary signs b)).set (slotOf (U := U) signs) y =
        opNode .pow x ((tree C).unary signs y) := by
  dsimp only [tree]
  unfold slotOf
  cases unaryOf U signs with
  | none =>
    refine ⟨⟨Nat.lt_succ_self 1, Expr.hasPath_nil b⟩, ?_, fun y => ?_⟩
    · exact (opNode_get _ _ _ []).trans (Expr.get_nil b)
    · exact (opNode_set _ _ _ _ []).trans (by rw [Expr.set_nil]; rfl)
  | some f =>
    refine ⟨⟨Nat.lt_succ_self 1, Nat.one_pos, Expr.hasPath_nil b⟩, ?_, fun y => ?_⟩
    · exact (opNode_get _ _ _ [0]).trans ((unaryNode_get _ _ []).trans (Expr.get_nil b))
    · refine (opNode_set _ _ _ _ [0]).trans ?_
      rw [Option.elim_some, unaryNode_set, Expr.set_nil]
      rfl

/-! ## Powers -/

section Factor

variable {stop : Tok D V U → Prop} {G : Phrase D V U (Expr D V U)} {base : Parser D V U}

/-- What follows the base `x` of a power, and the node that the base ends up in. -/
inductive PowTail (C : Doubles D U) (G : Phrase D V U (Expr D V U)) (x : Expr D V U) : Phrase D V U (Expr D V U) where
  | nil : PowTail C G x [] x
  | pow {us : List (Tok D V U)} {b : Expr D V U} (h : FactorRule (tree C) G us b) :
      PowTail C G x (.tokInfix .pow :: us) (opNode .pow x b)

theorem PowTail.factor {ts us : List (Tok D V U)} {a y : Expr D V U} (h : PowTail C G a us y) (ha : G ts a)
    (signs : List Sign) : FactorRule (tree C) G (signs.map Sign.tok ++ ts ++ us) ((tree C).unary signs y) := by
  cases h with
  | nil =>
    rw [List.append_nil]
    exact .one signs ha
  | pow hb => exact .pow signs ha hb

theorem factorLoop_other {power : Parser D V U} {s : State D V U} (h : s.type ≠ .tokInfix .pow) (fuel : Nat)
    (slot : List Nat) (ret : Expr D V U) : factorLoop C find power fuel slot ret s = some (ret, s) := by
  cases fuel with
  | zero => rfl
  | succ fuel =>
    unfold factorLoop
    split
    · contradiction
    · rfl

/-- The next exponent is written to the slot, and the slot moves to the end of it. -/
theorem factorLoop_pow {power : Parser D V U} {s s' : State D V U} {slot : List Nat} {ret b : Expr D V U}
    {signs : List Sign} (h : s.type = .tokInfix .pow)
    (hpower : power (s.advance C find) = some ((tree C).unary signs b, s'))
    (hunary : s'.appliedUnary = (unaryOf U signs).isSome) (fuel : Nat) :
    factorLoop C find power (fuel + 1) slot ret s =
      factorLoop C find power fuel (slot ++ slotOf (U := U) signs)
        (ret.set slot (opNode .pow (ret.get slot) ((tree C).unary signs b))) s' := by
  rw [factorLoop, h]
  dsimp only
  rw [hpower]
  dsimp only
  rw [hunary]
  rfl

theorem factorLoop_sound (hbase : (stream C find).Parses .tokError stop G base) {fuel : Nat} {slot : List Nat}
    {ret ret' : Expr D V U} {s s' : State D V U} (hpath : ret.HasPath slot)
    (h : factorLoop C find (power C find base) fuel slot ret s = some (ret', s')) (hs' : s'.type ≠ .tokError) :
    ∃ us y, PowTail C G (ret.get slot) us y ∧ s.tokens C find = us ++ s'.tokens C find ∧
      ret' = ret.set slot y := by
  induction fuel generalizing slot ret s with
  | zero =>
    cases h
    exact ⟨[], _, .nil, rfl, (Expr.set_get hpath).symm⟩
  | succ fuel ih =>
    by_cases hpow : s.type = .tokInfix .pow
    · cases hp : power C find base (s.advance C find) with
      | none =>
        rw [factorLoop, hpow] at h
        dsimp only at h
        rw [hp] at h
        cases h
      | some r =>
        obtain ⟨p, s₁⟩ := r
        have hs₁ : s₁.type ≠ .tokError := by
          intro herror
          rw [factorLoop, hpow] at h
          dsimp only at h
          rw [hp] at h
          dsimp only at h
          rw [factorLoop_other (by rw [herror]; intro hpow; cases hpow)] at h
          cases h
          exact hs' herror
        obtain ⟨signs, ts, b, hb, hts, rfl, hunary⟩ := power_sound hbase hp hs₁
        rw [factorLoop_pow hpow hp hunary] at h
        obtain ⟨hslot, hget, hset⟩ := opNode_slot C (ret.get slot) b signs
        obtain ⟨us, y, hy, hus, rfl⟩ := ih (Expr.hasPath_append hpath hslot) h
        rw [Expr.get_set_append hpath, hget] at hy
        refine ⟨_, _, .pow (hy.factor hb signs), ?_, ?_⟩
        · rw [State.tokens_step C find (by rw [hpow]; rfl), hpow, hts, hus]
          simp
        · rw [Expr.set_set_append hpath, hset]
    · rw [factorLoop_other hpow] at h
      cases h
      exact ⟨[], _, .nil, rfl, (Expr.set_get hpath).symm⟩

theorem factorLoop_complete (hbase : (stream C find).Parses .tokError stop G base) (hhead : Headed G)
    (hpow : stop (.tokInfix .pow)) {us : List (Tok D V U)} {b : Expr D V U} (hb : FactorRule (tree C) G us b)
    {slot : List Nat} {ret : Expr D V U} {s : State D V U} {t : Tok D V U} {rest : List (Tok D V U)}
    (hpath : ret.HasPath slot) (htokens : s.tokens C find = .tokInfix .pow :: (us ++ t :: rest)) (ht : stop t)
    (hend : t ≠ .tokInfix .pow) {fuel : Nat} (hfuel : us.length ≤ fuel) :
    ∃ s', factorLoop C find (power C find base) (fuel + 1) slot ret s =
      some (ret.set slot (opNode .pow (ret.get slot) b), s') ∧ s'.tokens C find = t :: rest := by
  induction hb generalizing slot ret s fuel with
  | one signs h =>
    obtain ⟨s₁, hp, hs₁, hunary⟩ := power_complete hbase hhead h (State.tokens_advance_append C find htokens) ht
    refine ⟨s₁, ?_, hs₁⟩
    rw [factorLoop_pow (State.type_eq C find htokens) hp hunary,
      factorLoop_other (by rw [State.type_eq C find hs₁]; exact hend)]
  | @pow ts us a b signs h hb ih =>
    rw [List.append_assoc, List.cons_append] at htokens
    obtain ⟨s₁, hp, hs₁, hunary⟩ := power_complete hbase hhead h (State.tokens_advance_append C find htokens) hpow
    obtain ⟨hslot, hget, hset⟩ := opNode_slot C (ret.get slot) a signs
    obtain ⟨fuel, rfl⟩ : ∃ n, fuel = n + 1 := by
      simp only [List.length_append, List.length_cons] at hfuel
      exact ⟨fuel - 1, by omega⟩
    have hless : us.length ≤ fuel := by
      simp only [List.length_append, List.length_cons] at hfuel
      omega
    obtain ⟨s₂, hloop, hs₂⟩ := ih (Expr.hasPath_append hpath hslot) hs₁ hless
    refine ⟨s₂, ?_, hs₂⟩
    rw [factorLoop_pow (State.type_eq C find htokens) hp hunary, hloop, Expr.get_set_append hpath, hget,
      Expr.set_set_append hpath, hset]
    rfl

theorem hoist_unary (signs : List Sign) (a : Expr D V U) :
    hoist (unaryOf U signs).isSome ((tree C).unary signs a) = (unaryOf U signs, a) := by
  dsimp only [tree]
  cases unaryOf U signs with
  | none =>
    cases a with
    | const value => rfl
    | var bound => rfl
    | fn f parameters =>
      rw [Option.elim_none, hoist, dif_neg]
      rintro ⟨h, -⟩
      cases h
  | some f => rfl

/-- `factor` behind its first `<power>`. -/
theorem factor_eq {power : Parser D V U} {s s₁ : State D V U} {signs : List Sign} {a : Expr D V U}
    (h : power s = some ((tree C).unary signs a, s₁)) (hunary : s₁.appliedUnary = (unaryOf U signs).isSome) :
    factor C find power s = (factorLoop C find power ((reader C find).left s₁) [] a s₁).map fun (y, s) =>
      ((tree C).unary signs y, s) := by
  unfold factor
  rw [h]
  dsimp only
  rw [hunary, hoist_unary]
  dsimp only
  cases factorLoop C find power ((reader C find).left s₁) [] a s₁ with
  | none => rfl
  | some r => rfl

theorem parses_factor (hbase : (stream C find).Parses .tokError stop G base) (hhead : Headed G)
    (hpow : stop (.tokInfix .pow)) :
    (stream C find).Parses .tokError (fun t => stop t ∧ t ≠ .tokInfix .pow) (FactorRule (tree C) G)
      (factor C find (power C find base)) where
  sound := by
    intro s s' e h hs'
    cases hp : power C find base s with
    | none =>
      rw [factor, hp] at h
      cases h
    | some r =>
      obtain ⟨p, s₁⟩ := r
      have hs₁ : s₁.type ≠ .tokError := by
        intro herror
        unfold factor at h
        rw [hp] at h
        dsimp only at h
        rw [factorLoop_other (by rw [herror]; intro hpow; cases hpow)] at h
        cases h
        exact hs' herror
      obtain ⟨signs, ts, a, ha, hts, rfl, hunary⟩ := power_sound hbase hp hs₁
      rw [factor_eq hp hunary] at h
      obtain ⟨⟨y, s₂⟩, hloop, heq⟩ := Option.map_eq_some_iff.mp h
      cases heq
      obtain ⟨us, y', hy, hus, hset⟩ := factorLoop_sound hbase (Expr.hasPath_nil a) hloop hs'
      rw [Expr.set_nil] at hset
      rw [Expr.get_nil] at hy
      subst hset
      refine ⟨_, hy.factor ha signs, ?_⟩
      change s.tokens C find = _ ++ s'.tokens C find
      rw [hts, hus]
      simp
  complete := by
    intro s ts rest t e h htokens ht
    cases h with
    | one signs h =>
      obtain ⟨s₁, hp, hs₁, hunary⟩ := power_complete hbase hhead h htokens ht.1
      refine ⟨s₁, ?_, hs₁⟩
      rw [factor_eq hp hunary, factorLoop_other (by rw [State.type_eq C find hs₁]; exact ht.2)]
      rfl
    | @pow ts us a b signs h hb =>
      have htokens : s.tokens C find = signs.map Sign.tok ++ ts ++ .tokInfix .pow :: (us ++ t :: rest) := by
        rw [← List.cons_append, ← List.append_assoc]
        exact htokens
      obtain ⟨s₁, hp, hs₁, hunary⟩ := power_complete hbase hhead h htokens hpow
      obtain ⟨fuel, hfuel⟩ : ∃ fuel, (reader C find).left s₁ = us.length + fuel + 1 := by
        have hleft := left_le C find s₁
        rw [hs₁] at hleft
        simp only [List.length_cons, List.length_append] at hleft
        exact ⟨(reader C find).left s₁ - us.length - 1, by omega⟩
      obtain ⟨s₂, hloop, hs₂⟩ :=
        factorLoop_complete hbase hhead hpow hb (Expr.hasPath_nil a) hs₁ ht.1 ht.2 (Nat.le_add_right us.length fuel)
      refine ⟨s₂, ?_, hs₂⟩
      rw [factor_eq hp hunary, hfuel, hloop, Expr.set_nil, Expr.get_nil]
      rfl

end Factor

/-! ## The levels of operators -/

section Levels

variable [DecidableEq U] {G : Phrase D V U (Expr D V U)} {base : Parser D V U}

/-- The tokens behind a phrase that has none of these operators at its end. -/
def StopsAt (functions : List (Fun U)) (t : Tok D V U) : Prop := t ≠ .tokOpen ∧ ∀ f ∈ functions, t ≠ .tokInfix f

/-- A level above another one: its operators end the phrases below. -/
theorem parses_level {below : List (Fun U)} (functions : List (Fun U)) {sub : Parser D V U}
    (hsub : (stream C find).Parses .tokError (StopsAt below) G sub) (hnew : ∀ f ∈ functions, f ∉ below) :
    (stream C find).Parses .tokError (StopsAt (functions ++ below)) (Chain (infixOp functions) opNode G)
      (Lib.chain (reader C find) (infixOp functions) opNode sub) := by
  refine (parses_chain hsub rfl (fun t f h => ?_) (fun t f h => ?_)).mono fun t ht => ?_
  · rw [(infixOp_eq_some.mp h).1]
    exact Bool.false_ne_true
  · obtain ⟨rfl, hf⟩ := infixOp_eq_some.mp h
    refine ⟨by simp, fun g hg h => ?_⟩
    rw [Tok.tokInfix.inj h] at hf
    exact hnew g hf hg
  · refine ⟨⟨ht.1, fun f hf => ht.2 f (List.mem_append_right _ hf)⟩, ?_⟩
    rw [Option.eq_none_iff_forall_ne_some]
    intro f h
    obtain ⟨rfl, hf⟩ := infixOp_eq_some.mp h
    exact ht.2 f (List.mem_append_left _ hf) rfl

/-- The tokens that end an expression: all but an open parenthesis and the operators. -/
def Ends (t : Tok D V U) : Prop := t ≠ .tokOpen ∧ ∀ f, t ≠ .tokInfix f

theorem parses_expr (hbase : (stream C find).Parses .tokError (StopsAt []) G base) (hhead : Headed G) :
    (stream C find).Parses .tokError Ends (ExprPhrase (tree C) G) (expr C find base) := by
  have hfactor : (stream C find).Parses .tokError (StopsAt [.pow]) (FactorRule (tree C) G)
      (factor C find (power C find base)) := by
    refine (parses_factor hbase hhead ⟨by simp, by simp⟩).mono fun t ht => ?_
    exact ⟨⟨ht.1, by simp⟩, ht.2 .pow (by simp)⟩
  have hterm := parses_level [.mul, .divide, .fmod] hfactor (by simp)
  have hsum := parses_level [.add, .sub] hterm (by simp)
  have hrel := parses_level [.greater, .greaterEq, .lower, .lowerEq] hsum (by simp)
  have heq := parses_level [.equal, .notEqual] hrel (by simp)
  have hand := parses_level [.logicalAnd] heq (by simp)
  have hor := parses_level [.logicalOr] hand (by simp)
  exact hor.mono fun t ht => ⟨ht.1, fun f _ => ht.2 f⟩

theorem parses_list (hbase : (stream C find).Parses .tokError (StopsAt []) G base) (hhead : Headed G) :
    (stream C find).Parses .tokError (fun t => Ends t ∧ t ≠ .tokSep) (ListPhrase (tree C) G)
      (list C find base) := by
  refine (parses_chain (parses_expr hbase hhead) rfl (fun t f h => ?_) (fun t f h => ?_)).mono fun t ht => ⟨ht.1, ?_⟩
  · rw [(sepOp_eq_some.mp h).1]
    exact Bool.false_ne_true
  · rw [(sepOp_eq_some.mp h).1]
    exact ⟨by simp, fun f => by simp⟩
  · rw [Option.eq_none_iff_forall_ne_some]
    intro f h
    exact ht.2 (sepOp_eq_some.mp h).1

end Levels

/-! ## Parameters -/

section Base

variable {G : Phrase D V U (Expr D V U)} {expr : Parser D V U}

theorem parametersLoop_sound (hexpr : (stream C find).Parses .tokError Ends G expr) {n : Nat} {s s' : State D V U}
    {l : List (Expr D V U)} (h : parametersLoop C find expr n s = some (l, s'))
    (hs : s.type = .tokOpen ∨ s.type = .tokSep) (hs' : s'.type = .tokClose) :
    ∃ ts, ParametersRule G ts l ∧ s.tokens C find = s.type :: (ts ++ s'.tokens C find) := by
  have hfinal : s.type.final = false := by rcases hs with hs | hs <;> rw [hs] <;> rfl
  induction n generalizing s l with
  | zero =>
    cases h
    rw [hs'] at hs
    rcases hs with hs | hs <;> cases hs
  | succ n ih =>
    unfold parametersLoop at h
    cases hp : expr (s.advance C find) with
    | none =>
      rw [hp] at h
      cases h
    | some r =>
      obtain ⟨p, s₁⟩ := r
      rw [hp] at h
      dsimp only at h
      by_cases hsep : s₁.type = .tokSep
      · rw [hsep] at h
        obtain ⟨⟨l, s₂⟩, hloop, heq⟩ := Option.map_eq_some_iff.mp h
        cases heq
        obtain ⟨ts, hts, htokens⟩ := hexpr.sound hp (by change s₁.type ≠ _; rw [hsep]; simp)
        obtain ⟨us, hus, hrest⟩ := ih hloop (.inr hsep) (by rw [hsep]; rfl)
        refine ⟨_, .cons hts hus, ?_⟩
        have htokens : (s.advance C find).tokens C find = ts ++ s₁.tokens C find := htokens
        rw [State.tokens_step C find hfinal, htokens, hrest, hsep]
        simp
      · have hend : some ([p], s₁) = some (l, s') := by
          split at h
          · contradiction
          · exact h
        cases hend
        obtain ⟨ts, hts, htokens⟩ := hexpr.sound hp (by change s'.type ≠ _; rw [hs']; simp)
        have htokens : (s.advance C find).tokens C find = ts ++ s'.tokens C find := htokens
        refine ⟨ts, .one hts, ?_⟩
        rw [State.tokens_step C find hfinal, htokens]

theorem ends_sep : Ends (.tokSep : Tok D V U) := ⟨by simp, fun f => by simp⟩

theorem ends_close : Ends (.tokClose : Tok D V U) := ⟨by simp, fun f => by simp⟩

theorem parametersLoop_complete (hexpr : (stream C find).Parses .tokError Ends G expr) {ts : List (Tok D V U)}
    {l : List (Expr D V U)} (hl : ParametersRule G ts l) {n : Nat} (hn : l.length ≤ n) {s : State D V U}
    {t : Tok D V U} {rest : List (Tok D V U)} (htokens : s.tokens C find = t :: (ts ++ .tokClose :: rest)) :
    ∃ s', parametersLoop C find expr n s = some (l, s') ∧ s'.tokens C find = .tokClose :: rest := by
  induction hl generalizing n s t with
  | one h =>
    obtain ⟨n, rfl⟩ : ∃ m, n = m + 1 := ⟨n - 1, by simp at hn; omega⟩
    obtain ⟨s₁, hp, hs₁⟩ := hexpr.complete h (State.tokens_advance_append C find htokens) ends_close
    refine ⟨s₁, ?_, hs₁⟩
    rw [parametersLoop, hp]
    dsimp only
    rw [State.type_eq C find hs₁]
  | @cons ts us a l h hl ih =>
    obtain ⟨n, rfl⟩ : ∃ m, n = m + 1 := ⟨n - 1, by simp at hn; omega⟩
    rw [List.append_assoc, List.cons_append] at htokens
    obtain ⟨s₁, hp, hs₁⟩ := hexpr.complete h (State.tokens_advance_append C find htokens) ends_sep
    obtain ⟨s₂, hloop, hs₂⟩ := ih (by simpa using hn) hs₁
    refine ⟨s₂, ?_, hs₂⟩
    rw [parametersLoop, hp]
    dsimp only
    rw [State.type_eq C find hs₁]
    dsimp only
    rw [hloop]
    rfl

end Base

/-! ## `base` -/

theorem closing_sound {s : State D V U} (h : (closing C find s).type ≠ .tokError) :
    s.tokens C find = .tokClose :: (closing C find s).tokens C find := by
  unfold closing at h ⊢
  split
  · rename_i hclose
    rw [State.tokens_step C find (by rw [hclose]; rfl), hclose]
  · rename_i hne
    exfalso
    split at h
    · contradiction
    · exact h rfl

theorem closing_complete {s : State D V U} {t : Tok D V U} {rest : List (Tok D V U)}
    (h : s.tokens C find = .tokClose :: t :: rest) : (closing C find s).tokens C find = t :: rest := by
  unfold closing
  rw [State.type_eq C find h]
  exact State.tokens_advance C find h

theorem headed_base (n : Nat) [DecidableEq U] : Headed (Base (tree C : Algebra D V U (Expr D V U)) n) := by
  intro ts a h
  cases n with
  | zero => exact h.elim
  | succ n =>
    cases h with
    | number value => exact ⟨_, _, rfl, fun x => by cases x <;> simp [Sign.tok]⟩
    | var bound => exact ⟨_, _, rfl, fun x => by cases x <;> simp [Sign.tok]⟩
    | constant f hf => exact ⟨_, _, rfl, fun x => by cases x <;> simp [Sign.tok]⟩
    | constantCall f hf => exact ⟨_, _, rfl, fun x => by cases x <;> simp [Sign.tok]⟩
    | apply f hf signs h => exact ⟨_, _, rfl, fun x => by cases x <;> simp [Sign.tok]⟩
    | call f hf h hlength => exact ⟨_, _, rfl, fun x => by cases x <;> simp [Sign.tok]⟩
    | group h => exact ⟨_, _, rfl, fun x => by cases x <;> simp [Sign.tok]⟩

section BaseImpl

variable {G Ge Gl : Phrase D V U (Expr D V U)} {base expr list : Parser D V U}
  (hbase : (stream C find).Parses .tokError (StopsAt []) G base)
  (hexpr : (stream C find).Parses .tokError Ends Ge expr)
  (hlist : (stream C find).Parses .tokError (fun t => Ends t ∧ t ≠ .tokSep) Gl list)

include hbase hexpr hlist

theorem baseImpl_sound {s s' : State D V U} {e : Expr D V U}
    (h : baseImpl C find (power C find base) expr list s = some (e, s')) (hs' : s'.type ≠ .tokError) :
    ∃ ts, BaseRule (tree C) G Ge Gl ts e ∧ s.tokens C find = ts ++ s'.tokens C find := by
  unfold baseImpl at h
  split at h
  · rename_i value htype
    cases h
    exact ⟨_, .number value, by rw [State.tokens_step C find (by rw [htype]; rfl), htype]; rfl⟩
  · rename_i bound htype
    cases h
    exact ⟨_, .var bound, by rw [State.tokens_step C find (by rw [htype]; rfl), htype]; rfl⟩
  · rename_i f htype
    have hs : s.tokens C find = .tokFunction f :: (s.advance C find).tokens C find := by
      rw [State.tokens_step C find (by rw [htype]; rfl), htype]
    generalize s.advance C find = s₁ at hs h
    dsimp only at h
    split at h
    · rename_i hf
      split at h
      · rename_i hopen
        cases h
        refine ⟨_, .constantCall f hf, ?_⟩
        rw [hs, State.tokens_step C find (by rw [hopen]; rfl), hopen, closing_sound hs']
        rfl
      · cases h
        exact ⟨_, .constant f hf, hs⟩
    · rename_i hf
      obtain ⟨⟨p, s₂⟩, hp, heq⟩ := Option.map_eq_some_iff.mp h
      cases heq
      obtain ⟨signs, ts, a, ha, hts, rfl, -⟩ := power_sound hbase hp hs'
      refine ⟨_, .apply f hf signs ha, ?_⟩
      rw [hs, hts]
      rfl
    · rename_i h0 h1
      have hf : 2 ≤ f.arity := by
        have h0 : f.arity ≠ 0 := h0
        have h1 : f.arity ≠ 1 := h1
        omega
      split at h
      · rename_i hopen
        split at h
        · cases h
        · rename_i l s₂ hl
          cases h
          split at hs'
          · rename_i hlength
            rw [if_pos hlength]
            have hclose := closing_sound hs'
            obtain ⟨ts, hts, htokens⟩ := parametersLoop_sound hexpr hl (.inl hopen) (State.type_eq C find hclose)
            refine ⟨_, .call f hf hts hlength, ?_⟩
            rw [hs, htokens, hopen, hclose]
            simp
          · exact absurd rfl hs'
      · cases h
        exact absurd rfl hs'
  · rename_i hopen
    obtain ⟨⟨ret, s₁⟩, hl, heq⟩ := Option.map_eq_some_iff.mp h
    cases heq
    have hclose := closing_sound hs'
    obtain ⟨ts, hts, htokens⟩ := hlist.sound hl (by change s₁.type ≠ _; rw [State.type_eq C find hclose]; simp)
    refine ⟨_, .group hts, ?_⟩
    have htokens : (s.advance C find).tokens C find = ts ++ s₁.tokens C find := htokens
    rw [State.tokens_step C find (by rw [hopen]; rfl), htokens, hopen, hclose]
    simp
  · cases h
    exact absurd rfl hs'

theorem baseImpl_complete (hhead : Headed G) {s : State D V U} {ts rest : List (Tok D V U)} {t : Tok D V U}
    {e : Expr D V U} (h : BaseRule (tree C) G Ge Gl ts e) (htokens : s.tokens C find = ts ++ t :: rest)
    (ht : t ≠ .tokOpen) :
    ∃ s', baseImpl C find (power C find base) expr list s = some (e, s') ∧ s'.tokens C find = t :: rest := by
  cases h with
  | number value =>
    refine ⟨s.advance C find, ?_, State.tokens_advance C find htokens⟩
    rw [baseImpl, State.type_eq C find htokens]
    rfl
  | var bound =>
    refine ⟨s.advance C find, ?_, State.tokens_advance C find htokens⟩
    rw [baseImpl, State.type_eq C find htokens]
    rfl
  | constant f hf =>
    have hs := State.tokens_advance C find htokens
    refine ⟨s.advance C find, ?_, hs⟩
    rw [baseImpl, State.type_eq C find htokens]
    dsimp only
    rw [hf, State.type_eq C find hs]
    cases t <;> first | contradiction | rfl
  | constantCall f hf =>
    have hs := State.tokens_advance C find htokens
    refine ⟨_, ?_, closing_complete (State.tokens_advance C find hs)⟩
    rw [baseImpl, State.type_eq C find htokens]
    dsimp only
    rw [hf, State.type_eq C find hs]
    rfl
  | @apply ts a f hf signs h =>
    have hs : (s.advance C find).tokens C find = signs.map Sign.tok ++ ts ++ t :: rest :=
      State.tokens_advance_append C find htokens
    obtain ⟨s₁, hp, hs₁, -⟩ := power_complete hbase hhead h hs ⟨ht, by simp⟩
    refine ⟨s₁, ?_, hs₁⟩
    rw [baseImpl, State.type_eq C find htokens]
    dsimp only
    rw [hf]
    change (power C find base (s.advance C find)).map _ = _
    rw [hp]
    rfl
  | @call ts l f hf h hlength =>
    have htokens : s.tokens C find = .tokFunction f :: .tokOpen :: (ts ++ .tokClose :: t :: rest) := by
      simpa using htokens
    have hs := State.tokens_advance C find htokens
    obtain ⟨s₁, hl, hs₁⟩ := parametersLoop_complete hexpr h hlength.le hs
    refine ⟨closing C find s₁, ?_, closing_complete hs₁⟩
    rw [baseImpl, State.type_eq C find htokens]
    dsimp only
    split
    · omega
    · omega
    · rw [State.type_eq C find hs]
      dsimp only
      rw [hl]
      dsimp only
      rw [if_pos hlength]
      rfl
  | @group ts a h =>
    have htokens : s.tokens C find = .tokOpen :: (ts ++ .tokClose :: t :: rest) := by simpa using htokens
    obtain ⟨s₁, hl, hs₁⟩ :=
      hlist.complete h (State.tokens_advance_append C find htokens) ⟨ends_close, by simp⟩
    refine ⟨closing C find s₁, ?_, closing_complete hs₁⟩
    rw [baseImpl, State.type_eq C find htokens]
    change (list (s.advance C find)).map _ = _
    rw [hl]
    rfl

end BaseImpl

theorem parses_base [DecidableEq U] (n : Nat) :
    (stream C find).Parses .tokError (StopsAt []) (Base (tree C) n) (base C find n) := by
  induction n with
  | zero =>
    constructor
    · intro s s' e h
      cases h
    · intro s ts rest t e h
      exact h.elim
  | succ n ih =>
    have hexpr := parses_expr ih (headed_base n)
    have hlist := parses_list ih (headed_base n)
    exact ⟨fun h hs' => baseImpl_sound ih hexpr hlist h hs',
      fun h htokens ht => baseImpl_complete ih hexpr hlist (headed_base n) h htokens ht.1⟩

end Uvrgw.Tinyexpr
