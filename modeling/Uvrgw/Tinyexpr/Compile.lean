import Uvrgw.Tinyexpr.Meaning

/-! # `te_compile` -/

namespace Uvrgw.Tinyexpr

open Uvrgw.Lib

variable {D V U : Type} {C : Doubles D U} {find : Find V U}

/-! ## Depth -/

theorem power_mono {base base' : Parser D V U} (h : GivesUpLess base base') :
    GivesUpLess (power C find base) (power C find base') := by
  intro s r hr
  unfold power at hr ⊢
  dsimp only at hr ⊢
  split at hr
  · cases hr
  · rename_i b s' hb
    rw [h _ _ hb]
    exact hr

theorem factorLoop_mono {power power' : Parser D V U} (h : GivesUpLess power power') (fuel : Nat) (slot : List Nat)
    (ret : Expr D V U) :
    GivesUpLess (factorLoop C find power fuel slot ret) (factorLoop C find power' fuel slot ret) := by
  induction fuel generalizing slot ret with
  | zero => exact fun s r hr => hr
  | succ fuel ih =>
    intro s r hr
    unfold factorLoop at hr ⊢
    split at hr
    · rename_i hpow
      split at hr
      · cases hr
      · rename_i p s' hp
        rw [h _ _ hp]
        exact ih _ _ _ _ hr
    · exact hr

theorem factor_mono {power power' : Parser D V U} (h : GivesUpLess power power') :
    GivesUpLess (factor C find power) (factor C find power') := by
  intro s r hr
  unfold factor at hr ⊢
  split at hr
  · cases hr
  · rename_i ret s' hret
    rw [h _ _ hret]
    dsimp only at hr ⊢
    split at hr
    · cases hr
    · rename_i y s₁ hloop
      rw [factorLoop_mono h _ _ _ _ _ hloop]
      exact hr

theorem parametersLoop_mono {expr expr' : Parser D V U} (h : GivesUpLess expr expr') (n : Nat) (s : State D V U)
    (r : List (Expr D V U) × State D V U) (hr : parametersLoop C find expr n s = some r) :
    parametersLoop C find expr' n s = some r := by
  induction n generalizing s r with
  | zero => exact hr
  | succ n ih =>
    unfold parametersLoop at hr ⊢
    split at hr
    · cases hr
    · rename_i p s' hp
      rw [h _ _ hp]
      dsimp only
      split at hr
      · obtain ⟨q, hq, rfl⟩ := Option.map_eq_some_iff.mp hr
        rw [ih _ _ hq]
        rfl
      · exact hr

theorem map_mono {A B : Type} {f : A → B} {x y : Option A} (h : ∀ a, x = some a → y = some a) (b : B)
    (hb : x.map f = some b) : y.map f = some b := by
  obtain ⟨a, ha, rfl⟩ := Option.map_eq_some_iff.mp hb
  rw [h a ha]
  rfl

theorem baseImpl_mono {power power' expr expr' list list' : Parser D V U} (hpower : GivesUpLess power power')
    (hexpr : GivesUpLess expr expr') (hlist : GivesUpLess list list') :
    GivesUpLess (baseImpl C find power expr list) (baseImpl C find power' expr' list') := by
  intro s r hr
  unfold baseImpl at hr ⊢
  split at hr
  · exact hr
  · exact hr
  · dsimp only at hr ⊢
    split at hr
    · exact hr
    · exact map_mono (hpower _) _ hr
    · split at hr
      · split at hr
        · cases hr
        · rename_i l s' hl
          rw [parametersLoop_mono hexpr _ _ _ hl]
          exact hr
      · exact hr
  · exact map_mono (hlist _) _ hr
  · exact hr

section Levels

variable [DecidableEq U] {base base' : Parser D V U} (h : GivesUpLess base base')

include h

theorem expr_mono : GivesUpLess (expr C find base) (expr C find base') :=
  have hterm := chain_mono (factor_mono (power_mono h))
  chain_mono (chain_mono (chain_mono (chain_mono (chain_mono hterm))))

theorem list_mono : GivesUpLess (list C find base) (list C find base') := chain_mono (expr_mono h)

end Levels

theorem base_succ [DecidableEq U] (n : Nat) : GivesUpLess (base C find n) (base C find (n + 1)) := by
  induction n with
  | zero =>
    intro s r hr
    cases hr
  | succ n ih => exact baseImpl_mono (power_mono ih) (expr_mono ih) (list_mono ih)

theorem base_mono [DecidableEq U] {m n : Nat} (h : m ≤ n) : GivesUpLess (base C find m) (base C find n) := by
  induction h with
  | refl => exact fun s r hr => hr
  | step _ ih => exact fun s r hr => base_succ _ _ _ (ih s r hr)

/-! ## Acceptance -/

/-- The state behind the first `next_token`. -/
def start (C : Doubles D U) (find : Find V U) (text : List Char) : State D V U :=
  { next := (nextToken C find text).2, type := (nextToken C find text).1 }

theorem tokens_start (text : List Char) : (start C find text).tokens C find = lex C find text := by
  unfold State.tokens start
  dsimp only
  split
  · rename_i h
    rw [lex_final C find h]
  · rename_i h
    rw [lex_step C find (eq_false_of_ne_true h)]

theorem ends_end : Ends (.tokEnd : Tok D V U) ∧ (.tokEnd : Tok D V U) ≠ .tokSep :=
  ⟨⟨by simp, fun f => by simp⟩, by simp⟩

variable [DecidableEq U]

theorem parses_sentence (n : Nat) :
    (stream C find).Parses .tokError (fun t => Ends t ∧ t ≠ .tokSep) (Sentence (tree C) n)
      (list C find (base C find n)) :=
  parses_list (parses_base n) (headed_base n)

/-- A sentence is read to the end of its text, if the parser may go as deep as the sentence nests. -/
theorem list_sentence {n : Nat} {text : List Char} {ts : List (Tok D V U)} {a : Expr D V U}
    (h : Sentence (tree C) n ts a) (hlex : lex C find text = ts ++ [.tokEnd]) :
    ∃ s, list C find (base C find n) (start C find text) = some (a, s) ∧ s.type = .tokEnd := by
  obtain ⟨s, hs, htokens⟩ := (parses_sentence n).complete h ((tokens_start text).trans hlex) ends_end
  exact ⟨s, hs, State.type_eq C find htokens⟩

theorem compileWith_none {text : List Char}
    (h : list C find (base C find teMaxDepth) (start C find text) = none) :
    compileWith C find text = .error (-1) := by
  unfold start at h
  unfold compileWith
  cases hnext : nextToken C find text with
  | mk type next =>
    rw [hnext] at h
    dsimp only at h ⊢
    rw [h]

theorem compileWith_end {text : List Char} {a : Expr D V U} {s : State D V U}
    (h : list C find (base C find teMaxDepth) (start C find text) = some (a, s)) (hend : s.type = .tokEnd) :
    compileWith C find text = .ok (a.optimize C) := by
  unfold start at h
  unfold compileWith
  cases hnext : nextToken C find text with
  | mk type next =>
    rw [hnext] at h
    dsimp only at h ⊢
    rw [h]
    dsimp only
    rw [hend]

/-- The position of a syntax error. -/
def errorPos (text next : List Char) : Nat := if text.length - next.length = 0 then 1 else text.length - next.length

theorem compileWith_error {text : List Char} {a : Expr D V U} {s : State D V U}
    (h : list C find (base C find teMaxDepth) (start C find text) = some (a, s)) (hend : s.type ≠ .tokEnd) :
    compileWith C find text = .error (errorPos text s.next) := by
  unfold start at h
  unfold compileWith
  cases hnext : nextToken C find text with
  | mk type next =>
    rw [hnext] at h
    dsimp only at h ⊢
    rw [h]
    dsimp only
    split
    · exact absurd ‹_› hend
    · unfold errorPos
      split <;> rfl

theorem compileWith_eq_ok {text : List Char} {e : Expr D V U} : compileWith C find text = .ok e ↔
    ∃ a s, list C find (base C find teMaxDepth) (start C find text) = some (a, s) ∧ s.type = .tokEnd ∧
      e = a.optimize C := by
  constructor
  · intro h
    cases hlist : list C find (base C find teMaxDepth) (start C find text) with
    | none =>
      rw [compileWith_none hlist] at h
      cases h
    | some r =>
      by_cases hend : r.2.type = .tokEnd
      · rw [compileWith_end hlist hend] at h
        cases h
        exact ⟨r.1, r.2, rfl, hend, rfl⟩
      · rw [compileWith_error hlist hend] at h
        cases h
  · rintro ⟨a, s, hlist, hend, rfl⟩
    exact compileWith_end hlist hend

theorem compileWith_iff {text : List Char} {e : Expr D V U} : compileWith C find text = .ok e ↔
    ∃ ts a, lex C find text = ts ++ [.tokEnd] ∧ Sentence (tree C) teMaxDepth ts a ∧ e = a.optimize C := by
  rw [compileWith_eq_ok]
  constructor
  · rintro ⟨a, s, hlist, hend, rfl⟩
    have htype : s.type ≠ .tokError := by
      rw [hend]
      simp
    obtain ⟨ts, hts, htokens⟩ := (parses_sentence teMaxDepth).sound hlist htype
    refine ⟨ts, a, ?_, hts, rfl⟩
    have htokens : (start C find text).tokens C find = ts ++ s.tokens C find := htokens
    rw [← tokens_start, htokens, State.tokens_final C find (by rw [hend]; rfl), hend]
  · rintro ⟨ts, a, hlex, hts, rfl⟩
    obtain ⟨s, hlist, hend⟩ := list_sentence hts hlex
    exact ⟨a, s, hlist, hend, rfl⟩

/-- **Acceptance.** `te_compile` accepts the sentences of the grammar that nest at most 512 deep, and compiles
each one to its tree. -/
theorem teCompile_iff (C : Doubles D U) (lookup : List (TeVariable V U)) (text : List Char) (e : Expr D V U) :
    teCompile C lookup text = .ok e ↔
      ∃ ts a, lex C (findName lookup) text = ts ++ [.tokEnd] ∧ Sentence (tree C) teMaxDepth ts a ∧ e = a.optimize C :=
  compileWith_iff

/-- The grammar is not ambiguous: a text has one tree. -/
theorem sentence_unique {m n : Nat} {text : List Char} {ts : List (Tok D V U)} {a b : Expr D V U}
    (ha : Sentence (tree C) m ts a) (hb : Sentence (tree C) n ts b) (hlex : lex C find text = ts ++ [.tokEnd]) :
    a = b := by
  obtain ⟨s, hs, -⟩ := list_sentence ha hlex
  obtain ⟨s', hs', -⟩ := list_sentence hb hlex
  have hs := list_mono (base_mono (Nat.le_max_left m n)) _ _ hs
  have hs' := list_mono (base_mono (Nat.le_max_right m n)) _ _ hs'
  rw [hs] at hs'
  exact (Prod.mk.inj (Option.some.inj hs')).1

/-- A sentence that nests too deep is not called a syntax error. -/
theorem compileWith_deep {n : Nat} {text : List Char} {ts : List (Tok D V U)} {a : Expr D V U}
    (h : Sentence (tree C) n ts a) (hlex : lex C find text = ts ++ [.tokEnd])
    (hdeep : ¬ Sentence (tree C) teMaxDepth ts a) : compileWith C find text = .error (-1) := by
  cases hlist : list C find (base C find teMaxDepth) (start C find text) with
  | none => exact compileWith_none hlist
  | some r =>
    exfalso
    obtain ⟨s, hs, hend⟩ := list_sentence h hlex
    have hr := list_mono (base_mono (Nat.le_max_left teMaxDepth n)) _ _ hlist
    have hs' := list_mono (base_mono (Nat.le_max_right teMaxDepth n)) _ _ hs
    rw [hs'] at hr
    obtain rfl := Option.some.inj hr
    have hok : compileWith C find text = .ok (a.optimize C) := compileWith_eq_ok.mpr ⟨a, s, hlist, hend, rfl⟩
    obtain ⟨ts', b, hlex', hb, -⟩ := compileWith_iff.mp hok
    obtain rfl := List.append_cancel_right (hlex.symm.trans hlex')
    rw [sentence_unique h hb hlex] at hdeep
    exact hdeep hb

theorem list_none {b : Parser D V U} {s : State D V U} (htype : s.type = .tokOpen) (h : b s = none) :
    list C find b s = none := by
  have hsign : ∀ fuel sign, signLoop C find fuel sign s = (sign, s) := by
    intro fuel sign
    cases fuel <;> simp [signLoop, htype]
  have hlogical : ∀ fuel logical, logicalLoop C find fuel logical s = (logical, s) := by
    intro fuel logical
    cases fuel <;> simp [logicalLoop, htype]
  have hpower : power C find b s = none := by
    unfold power
    rw [hsign]
    dsimp only
    rw [hlogical]
    dsimp only
    rw [h]
  have hfactor : factor C find (power C find b) s = none := by
    unfold factor
    rw [hpower]
  unfold list expr andExpr eqExpr relExpr sumExpr term
  simp only [chain, hfactor]

theorem base_none (n : Nat) {rest : List (Tok D V U)} {s : State D V U}
    (h : s.tokens C find = List.replicate (n + 1) .tokOpen ++ rest) : s.type = .tokOpen ∧ base C find n s = none := by
  have htype : s.type = .tokOpen := State.type_eq C find h
  refine ⟨htype, ?_⟩
  induction n generalizing s with
  | zero => rfl
  | succ n ih =>
    have hadvance : (s.advance C find).tokens C find = List.replicate (n + 1) .tokOpen ++ rest :=
      (stream C find).tokens_advance h
    have htype' : (s.advance C find).type = .tokOpen := State.type_eq C find hadvance
    unfold base baseImpl
    rw [htype]
    dsimp only
    rw [list_none htype' (ih hadvance htype'), Option.map_none]

/-- More than 512 parentheses are too deep, whatever is in them. -/
theorem compileWith_open {text : List Char} {rest : List (Tok D V U)}
    (hlex : lex C find text = List.replicate (teMaxDepth + 1) .tokOpen ++ rest) :
    compileWith C find text = .error (-1) := by
  obtain ⟨htype, hbase⟩ := base_none teMaxDepth ((tokens_start text).trans hlex)
  exact compileWith_none (list_none htype hbase)

/-- **Sentences.** A sentence has one tree. `te_compile` makes this tree of it, or, where it nests too deep, gives
up; it does not call a sentence a syntax error. -/
theorem compileWith_sentence {n : Nat} {text : List Char} {ts : List (Tok D V U)} {a : Expr D V U}
    (h : Sentence (tree C) n ts a) (hlex : lex C find text = ts ++ [.tokEnd]) :
    (∀ m b, Sentence (tree C) m ts b → b = a) ∧
      (Sentence (tree C) teMaxDepth ts a → compileWith C find text = .ok (a.optimize C)) ∧
      (¬ Sentence (tree C) teMaxDepth ts a → compileWith C find text = .error (-1)) :=
  ⟨fun _ _ hb => sentence_unique hb h hlex, fun hts => compileWith_iff.mpr ⟨ts, a, hlex, hts, rfl⟩,
    compileWith_deep h hlex⟩

/-- **The meaning of a compiled expression.** `te_eval` of what `te_compile` made of a text is the value that the
grammar gives to the text, and there is no other value. -/
theorem compileWith_eval (hC : C.Lawful) (slots : V → D) (text : List Char) (v : D) :
    (∃ e, compileWith C find text = .ok e ∧ e.eval C slots = v) ↔
      ∃ ts, lex C find text = ts ++ [.tokEnd] ∧ Sentence (value C slots) teMaxDepth ts v := by
  simp only [compileWith_iff]
  constructor
  · rintro ⟨e, ⟨ts, a, hlex, hts, rfl⟩, rfl⟩
    refine ⟨ts, hlex, (sentence_image (eval_hom hC slots) _ ts _).mpr ⟨a, hts, ?_⟩⟩
    exact (Expr.optimize_eval C slots a).symm
  · rintro ⟨ts, hlex, hts⟩
    obtain ⟨a, ha, rfl⟩ := (sentence_image (eval_hom hC slots) _ ts _).mp hts
    exact ⟨_, ⟨ts, a, hlex, ha, rfl⟩, Expr.optimize_eval C slots a⟩

end Uvrgw.Tinyexpr
