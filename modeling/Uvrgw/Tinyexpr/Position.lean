import Mathlib.Data.List.Chain
import Uvrgw.Tinyexpr.Names
import Uvrgw.Tinyexpr.Unknown

/-!
# Where an unknown name stands

In an expression no number stands right in front of a name, so a name is not the end of a longer word.
-/

namespace Uvrgw.Tinyexpr

open Uvrgw.Lib

variable {D V W U : Type}

/-! ## Neighbours -/

def Tok.isNumber : Tok D V U → Bool
  | .tokNumber _ => true
  | _ => false

def Tok.isVariable : Tok D V U → Bool
  | .tokVariable _ => true
  | _ => false

/-- No variable follows a number. -/
def Apart (ts : List (Tok D V U)) : Prop := ts.IsChain fun t u => t.isNumber = true → u.isVariable = false

variable {ts us : List (Tok D V U)} {t : Tok D V U}

theorem apart_cons (ht : t.isNumber = false) : Apart (t :: ts) ↔ Apart ts := by
  unfold Apart
  rw [List.isChain_cons]
  simp [ht]

theorem apart_append (hts : ∀ t ∈ ts, t.isNumber = false) : Apart (ts ++ us) ↔ Apart us := by
  induction ts with
  | nil => rfl
  | cons t ts ih =>
    rw [List.cons_append, apart_cons (hts t List.mem_cons_self), ih fun u hu => hts u (List.mem_cons_of_mem _ hu)]

theorem Apart.before (hts : Apart ts) (hus : Apart (t :: us)) (ht : t.isVariable = false) :
    Apart (ts ++ t :: us) := by
  unfold Apart at hts hus ⊢
  refine List.isChain_append.mpr ⟨hts, hus, fun x _ y hy _ => ?_⟩
  obtain rfl := Option.some.inj hy
  exact ht

theorem Apart.between (hts : Apart ts) (hus : Apart us) (hnumber : t.isNumber = false) (hvar : t.isVariable = false) :
    Apart (ts ++ t :: us) := hts.before ((apart_cons hnumber).mpr hus) hvar

theorem Apart.close (hts : Apart ts) : Apart (ts ++ [(.tokClose : Tok D V U)]) := hts.between List.isChain_nil rfl rfl

theorem sign_number (signs : List Sign) :
    ∀ t ∈ signs.map (Sign.tok (D := D) (V := V) (U := U)), t.isNumber = false := by
  intro t ht
  obtain ⟨x, -, rfl⟩ := List.mem_map.mp ht
  cases x <;> rfl

section Rules

variable {A : Type} {alg : Algebra D V U A} {G Ge Gl : Phrase D V U A} {a : A}

theorem apart_factor (hG : ∀ ts a, G ts a → Apart ts) (h : FactorRule alg G ts a) : Apart ts := by
  induction h with
  | one signs h => exact (apart_append (sign_number signs)).mpr (hG _ _ h)
  | pow signs h _ ih =>
    rw [List.append_assoc]
    exact (apart_append (sign_number signs)).mpr ((hG _ _ h).between ih rfl rfl)

theorem apart_parameters (hG : ∀ ts a, G ts a → Apart ts) {l : List A} (h : ParametersRule G ts l) : Apart ts := by
  induction h with
  | one h => exact hG _ _ h
  | cons h _ ih => exact (hG _ _ h).between ih rfl rfl

theorem apart_chain {F : Type} {op : Tok D V U → Option F} {node : F → A → A → A} (hG : ∀ ts a, G ts a → Apart ts)
    (hop : ∀ t f, op t = some f → t.isNumber = false ∧ t.isVariable = false) (h : Chain op node G ts a) :
    Apart ts := by
  induction h with
  | one h => exact hG _ _ h
  | snoc _ ht hu ih => exact ih.between (hG _ _ hu) (hop _ _ ht).1 (hop _ _ ht).2

theorem apart_baseRule (hG : ∀ ts a, G ts a → Apart ts) (hGe : ∀ ts a, Ge ts a → Apart ts)
    (hGl : ∀ ts a, Gl ts a → Apart ts) (h : BaseRule alg G Ge Gl ts a) : Apart ts := by
  cases h with
  | number value => exact List.isChain_singleton _
  | var bound => exact List.isChain_singleton _
  | constant f hf => exact List.isChain_singleton _
  | constantCall f hf => exact (apart_cons rfl).mpr ((apart_cons rfl).mpr (List.isChain_singleton _))
  | apply f hf signs h => exact (apart_cons rfl).mpr ((apart_append (sign_number signs)).mpr (hG _ _ h))
  | call f hf h hlength => exact (apart_cons rfl).mpr ((apart_cons rfl).mpr (apart_parameters hGe h).close)
  | group h => exact (apart_cons rfl).mpr (hGl _ _ h).close

variable [DecidableEq U]

theorem apart_expr {base : Phrase D V U A} (hbase : ∀ ts a, base ts a → Apart ts) :
    ∀ ts a, ExprPhrase alg base ts a → Apart ts := by
  have hlevel : ∀ (functions : List (Fun U)) (G : Phrase D V U A), (∀ ts a, G ts a → Apart ts) →
      ∀ ts a, Chain (infixOp functions) alg.binary G ts a → Apart ts := by
    intro functions G hG ts a h
    refine apart_chain hG (fun t f ht => ?_) h
    rw [(infixOp_eq_some.mp ht).1]
    exact ⟨rfl, rfl⟩
  exact hlevel _ _ (hlevel _ _ (hlevel _ _ (hlevel _ _ (hlevel _ _ (hlevel _ _ fun _ _ => apart_factor hbase)))))

theorem apart_list {base : Phrase D V U A} (hbase : ∀ ts a, base ts a → Apart ts) (ts : List (Tok D V U)) (a : A)
    (h : ListPhrase alg base ts a) : Apart ts := by
  refine apart_chain (apart_expr hbase) (fun t f ht => ?_) h
  rw [(sepOp_eq_some.mp ht).1]
  exact ⟨rfl, rfl⟩

/-- In a sentence no variable follows a number. -/
theorem sentence_apart {n : Nat} (h : Sentence alg n ts a) : Apart ts := by
  refine apart_list ?_ ts a h
  clear h
  induction n with
  | zero => exact fun _ _ h => h.elim
  | succ n ih => exact fun ts a h => apart_baseRule ih (apart_expr ih) (apart_list ih) h

end Rules

/-! ## One token -/

/-- A character that is neither in a name nor a '.'. -/
def Clean (c : Char) : Prop := isNameChar c = false ∧ c ≠ '.'

section Token

variable (C : Doubles D U) (find : Find V U)

theorem operator_split {c : Char} {rest next : List Char} {t : Tok D V U} (h : operator c rest = (some t, next))
    (ht : t.final = false) :
    t.isNumber = false ∧ t.isVariable = false ∧
      ∃ used, c :: rest = used ++ next ∧ used ≠ [] ∧ ∀ c ∈ used.getLast?, Clean c := by
  have hone : Clean c → ∃ used, c :: rest = used ++ rest ∧ used ≠ [] ∧ ∀ c ∈ used.getLast?, Clean c := by
    intro hc
    exact ⟨[c], rfl, by simp, by simpa using hc⟩
  have htwo : ∀ x, rest.head? = some x → Clean x →
      ∃ used, c :: rest = used ++ rest.tail ∧ used ≠ [] ∧ ∀ c ∈ used.getLast?, Clean c := by
    intro x hx hc
    obtain ⟨rest', rfl⟩ := List.head?_eq_some_iff.mp hx
    exact ⟨[c, x], rfl, by simp, by simpa using hc⟩
  unfold operator at h
  dsimp only at h
  split at h
  all_goals first
    | split at h
      · rename_i hx
        cases h
        exact ⟨rfl, rfl, htwo _ hx ⟨by decide, by decide⟩⟩
      · cases h
        exact ⟨rfl, rfl, hone ⟨by decide, by decide⟩⟩
    | cases h
      exact ⟨rfl, rfl, hone ⟨by decide, by decide⟩⟩
    | cases h
      cases ht
    | cases h

theorem drop_takeWhile (p : Char → Bool) (l : List Char) : l.drop (l.takeWhile p).length = l.dropWhile p := by
  have h := congrArg (List.drop (l.takeWhile p).length) (List.takeWhile_append_dropWhile (p := p) (l := l))
  rw [List.drop_left] at h
  exact h.symm

/-- Behind a token that is no number, a name can begin only where no other one ends. -/
def Fresh (t : Tok D V U) (last : Option Char) (rest : List Char) : Prop :=
  t.isNumber = false → (∀ c ∈ last, Clean c) ∨ ∀ c ∈ rest.head?, isNameChar c = false

/-- A name at the beginning of a text: its characters, and what stands behind it. -/
structure NameAt (find : Find V U) (name rest : List Char) (bound : V) : Prop where
  chars : ∀ c ∈ name, isNameChar c = true
  head : ∃ c, name.head? = some c ∧ c.isAlpha = true
  found : find (name ++ rest) name.length = some (.var bound)

theorem scanToken_split {c : Char} {rest next : List Char} {t : Tok D V U}
    (h : scanToken C find c rest = (some t, next)) (ht : t.final = false) :
    ∃ used, c :: rest = used ++ next ∧ used ≠ [] ∧ Fresh t used.getLast? next ∧
      ∀ bound, t = .tokVariable bound → NameAt find used next bound := by
  unfold scanToken at h
  split at h
  · -- a number
    split at h
    · rename_i value next' hnumber
      cases h
      obtain ⟨⟨used, hused⟩, hlt⟩ := parseNumber_suffix C hnumber
      refine ⟨used, hused.symm, ?_, (fun h => absurd h (by simp [Tok.isNumber])), fun _ h => absurd h (by simp)⟩
      rintro rfl
      rw [List.nil_append] at hused
      rw [hused] at hlt
      exact Nat.lt_irrefl _ hlt
    · cases h
      cases ht
  · split at h
    · -- a name
      rename_i halpha
      dsimp only at h
      obtain ⟨htok, hnext⟩ := Prod.mk.inj h
      have htok := Option.some.inj htok
      have hsplit : (c :: rest).takeWhile isNameChar ++ next = c :: rest := by
        rw [← hnext, drop_takeWhile, List.takeWhile_append_dropWhile]
      have hname : isNameChar c = true := by simp [isNameChar, halpha]
      refine ⟨_, hsplit.symm, ?_, fun _ => .inr fun d hd => ?_, fun bound hbound => ⟨?_, ?_, ?_⟩⟩
      · rw [List.takeWhile_cons_of_pos hname]
        simp
      · rw [← hnext, drop_takeWhile] at hd
        have hstop := List.head?_dropWhile_not isNameChar (c :: rest)
        rw [hd] at hstop
        exact hstop
      · intro d hd
        exact List.all_eq_true.mp List.all_takeWhile d hd
      · exact ⟨c, by rw [List.takeWhile_cons_of_pos hname]; rfl, halpha⟩
      · rw [hsplit]
        cases hfind : find (c :: rest) ((c :: rest).takeWhile isNameChar).length with
        | none =>
          rw [hfind, hbound] at htok
          cases htok
        | some address =>
          rw [hfind, hbound] at htok
          cases address with
          | var bound' => exact congrArg (fun b => some (Address.var b)) (Tok.tokVariable.inj htok)
          | function f => cases htok
    · -- an operator
      obtain ⟨-, hvar, used, hused, hne, hlast⟩ := operator_split h ht
      refine ⟨used, hused, hne, fun _ => .inl hlast, ?_⟩
      rintro bound rfl
      cases hvar

theorem scanToken_blank {c : Char} {rest next : List Char} (h : scanToken C find c rest = (none, next)) :
    Clean c := by
  unfold scanToken at h
  split at h
  · split at h <;> cases h
  · split at h
    · cases h
    · unfold operator at h
      dsimp only at h
      split at h
      all_goals first
        | exact ⟨by decide, by decide⟩
        | cases h

/-- The blanks in front of a token, and its characters. -/
theorem nextToken_split {text : List Char} (ht : (nextToken C find text).1.final = false) :
    ∃ blanks used, text = blanks ++ used ++ (nextToken C find text).2 ∧ (∀ c ∈ blanks, Clean c) ∧ used ≠ [] ∧
      Fresh (nextToken C find text).1 used.getLast? (nextToken C find text).2 ∧
      ∀ bound, (nextToken C find text).1 = .tokVariable bound → NameAt find used (nextToken C find text).2 bound := by
  induction text with
  | nil => cases ht
  | cons c rest ih =>
    unfold nextToken at ht ⊢
    split at ht
    · rename_i t next hscan
      obtain ⟨used, hused, hne, hfresh, hname⟩ := scanToken_split C find hscan ht
      exact ⟨[], used, hused, by simp, hne, hfresh, hname⟩
    · rename_i next hscan
      obtain ⟨blanks, used, hused, hblanks, hrest⟩ := ih ht
      refine ⟨c :: blanks, used, by rw [List.cons_append, List.cons_append, ← hused], fun d hd => ?_, hrest⟩
      rcases List.mem_cons.mp hd with rfl | hd
      · exact scanToken_blank C find hscan
      · exact hblanks d hd

end Token

/-! ## The first name that is not bound -/

section Names

variable {C : Doubles D U} {rename : V → Option W} {find : Find V U} {find' : Find W U}

theorem bind_error {t : Tok D V U} (h : t.bind rename = .tokError) (ht : t ≠ .tokError) :
    ∃ bound, t = .tokVariable bound ∧ rename bound = none := by
  cases t with
  | tokVariable bound =>
    cases hbound : rename bound with
    | none => exact ⟨bound, rfl, hbound⟩
    | some w =>
      rw [Tok.bind, hbound] at h
      cases h
  | tokError => exact absurd rfl ht
  | _ => cases h

/-- The next token of an expression is the first one of the list. -/
theorem lex_cons {text : List Char} {ts : List (Tok D V U)} (hlex : lex C find text = ts ++ [.tokEnd])
    (ht : (nextToken C find text).1.final = false) :
    ∃ ts', ts = (nextToken C find text).1 :: ts' ∧ lex C find (nextToken C find text).2 = ts' ++ [.tokEnd] := by
  rw [lex_step C find ht] at hlex
  cases ts with
  | nil =>
    rw [(List.cons.inj hlex).1] at ht
    cases ht
  | cons t ts' =>
    obtain ⟨heq, hrest⟩ := List.cons.inj hlex
    exact ⟨ts', by rw [heq], hrest⟩

/-- In an expression, the error stands behind the first name that is not bound, and this name is a whole word. -/
theorem FirstError.name (h : Binds rename find find') {text next : List Char} (herror : FirstError C find' text next)
    {ts : List (Tok D V U)} (hlex : lex C find text = ts ++ [.tokEnd]) {t : Tok D V U} (hapart : Apart (t :: ts))
    {last : Option Char} (hfresh : Fresh t last text) :
    ∃ before name bound ts₁ ts₂, text = before ++ name ++ next ∧ NameAt find name next bound ∧
      (∀ c ∈ (last.toList ++ before).getLast?, Clean c) ∧ ts = ts₁ ++ .tokVariable bound :: ts₂ ∧
      Bound rename ts₁ ∧ rename bound = none := by
  induction herror generalizing ts t last with
  | @here text htype =>
    have hbind := nextToken_bind (C := C) h text
    rw [hbind] at htype ⊢
    have hne : (nextToken C find text).1 ≠ .tokError := by
      intro heq
      rw [lex_final C find (by rw [heq]; rfl), heq] at hlex
      cases ts with
      | nil => cases hlex
      | cons u ts => cases ts <;> cases hlex
    obtain ⟨bound, htok, hbound⟩ := bind_error htype hne
    have hfinal : (nextToken C find text).1.final = false := by rw [htok]; rfl
    obtain ⟨ts', rfl, -⟩ := lex_cons hlex hfinal
    obtain ⟨blanks, name, hsplit, hblanks, -, -, hname⟩ := nextToken_split C find hfinal
    have hname := hname bound htok
    rw [htok] at hapart ⊢
    refine ⟨blanks, name, bound, [], ts', hsplit, hname, ?_, rfl, by simp [Bound], hbound⟩
    by_cases hnil : blanks = []
    · have hnumber : t.isNumber = false := by
        by_contra hnumber
        have := (List.isChain_cons_cons.mp hapart).1 (by simpa using hnumber)
        cases this
      obtain ⟨c, hc, halpha⟩ := hname.head
      rcases hfresh hnumber with hlast | hhead
      · rw [hnil]
        cases last with
        | none => simp
        | some d => simpa using hlast
      · have htext : text.head? = some c := by
          rw [hsplit, hnil, List.nil_append, List.head?_append, hc]
          rfl
        have hchar := hhead c htext
        simp [isNameChar, halpha] at hchar
    · intro c hc
      rw [List.getLast?_append_of_ne_nil _ hnil] at hc
      exact hblanks c (List.mem_of_getLast? hc)
  | @there text next hfinal' _ ih =>
    have hbind := nextToken_bind (C := C) h text
    rw [hbind] at hfinal' ih
    have hfinal : (nextToken C find text).1.final = false := by
      by_contra hf
      rw [(bind_final _).mpr (.inl (by simpa using hf))] at hfinal'
      cases hfinal'
    obtain ⟨ts', rfl, hrest⟩ := lex_cons hlex hfinal
    obtain ⟨blanks, used, hsplit, -, hne, hfresh', -⟩ := nextToken_split C find hfinal
    obtain ⟨before, name, bound, ts₁, ts₂, hbefore, hname, hlast, rfl, hbound, hunbound⟩ :=
      ih hrest (List.isChain_cons_cons.mp hapart).2 hfresh'
    refine ⟨blanks ++ used ++ before, name, bound, (nextToken C find text).1 :: ts₁, ts₂, ?_, hname, ?_, rfl, ?_,
      hunbound⟩
    · have hbefore : (nextToken C find text).2 = before ++ name ++ next := hbefore
      rw [hbefore] at hsplit
      rw [hsplit]
      simp
    · intro c hc
      refine hlast c ?_
      by_cases hnil : before = []
      · rw [hnil, List.append_nil, ← List.append_assoc, List.getLast?_append_of_ne_nil _ hne] at hc
        rw [hnil, List.append_nil, hc]
        rfl
      · rw [← List.append_assoc, List.getLast?_append_of_ne_nil _ hnil] at hc
        rw [List.getLast?_append_of_ne_nil _ hnil]
        exact hc
    · refine (bound_cons _ _).mpr ⟨fun b hb => ?_, hbound⟩
      by_contra hnone
      rw [hb, Tok.bind, Option.not_isSome_iff_eq_none.mp hnone] at hfinal'
      cases hfinal'

end Names

end Uvrgw.Tinyexpr
