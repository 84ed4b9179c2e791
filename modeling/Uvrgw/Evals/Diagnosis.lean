import Uvrgw.Evals.Text
import Uvrgw.Tinyexpr.Position

/-! # What is logged of an expression that does not compile -/

namespace Uvrgw.Evals

open Tinyexpr

/-! ## `compile_error` -/

/-- What `compile_error` logs. -/
inductive CompileError where
  | failed
  | unknownName (name : List Char) (position : Nat)
  | syntaxError (position : Nat)
  deriving DecidableEq, Repr

def isWordChar (c : Char) : Bool := isLetter c || ('0' ≤ c && c ≤ '9') || c == '_'

/-- The loop to the start of the word that ends at a position. -/
def wordStart (s : List Char) : Nat → Nat
  | 0 => 0
  | start + 1 => if isWordChar (s.getD start '\x00') then wordStart s start else start + 1

/-- The loop over digits, with the characters that are left up to the error. -/
def skipDigits (s : List Char) : Nat → Nat → Nat
  | 0, start => start
  | n + 1, start => if (s.getD start '\x00').isDigit then skipDigits s n (start + 1) else start

/-- `compile_error`, with the names of `vars`. -/
def compileError (vars : List (List Char)) (s : List Char) (err : Int) : CompileError :=
  if err < 0 then .failed
  else
    let err := err.toNat
    let start := wordStart s err
    let start := skipDigits s (err - start) start
    if start < err ∧ ¬ (0 < start ∧ s.getD (start - 1) '\x00' = '.') then
      let name := (s.drop start).take (err - start)
      if !isFunction (String.ofList name) && vars.all (· ≠ name) then .unknownName name (start + 1)
      else .syntaxError err
    else .syntaxError err

/-- What `Char.isAlpha` computes. -/
theorem isAlpha_eq (c : Char) : c.isAlpha =
    (decide (c.val ≥ 'A'.val ∧ c.val ≤ 'Z'.val) || (decide (c.val ≥ 'a'.val) && decide (c.val ≤ 'z'.val))) := rfl

theorem isWordChar_eq (c : Char) : isWordChar c = isNameChar c := by
  unfold isWordChar isNameChar isLetter
  rw [isAlpha_eq, Bool.decide_and]
  rfl

/-- The word in front of a position is a name that stands alone. -/
structure WordBefore (before name : List Char) : Prop where
  chars : ∀ c ∈ name, isNameChar c = true
  head : ∃ c, name.head? = some c ∧ c.isAlpha = true
  alone : ∀ c ∈ before.getLast?, Clean c

section Word

variable {before name after : List Char}

theorem getD_name {k : Nat} (hk : k < name.length) :
    (before ++ name ++ after).getD (before.length + k) '\x00' = name[k] := by
  rw [List.getD_eq_getElem?_getD, List.append_assoc, List.getElem?_append_right (Nat.le_add_right _ _),
    Nat.add_sub_cancel_left, List.getElem?_append_left hk, List.getElem?_eq_getElem hk]
  rfl

/-- The character in front of the word. -/
theorem clean_before (h : WordBefore before name) {k : Nat} (hk : before.length = k + 1) :
    Clean ((before ++ name ++ after).getD k '\x00') := by
  have hlast : before.getLast? = before[k]? := by
    rw [List.getLast?_eq_getElem?, hk]
    rfl
  have hget : before[k]? = some before[k] := List.getElem?_eq_getElem (by omega)
  rw [List.getD_eq_getElem?_getD, List.append_assoc, List.getElem?_append_left (by omega), hget]
  exact h.alone _ (hlast.trans hget)

theorem wordStart_eq (h : WordBefore before name) :
    wordStart (before ++ name ++ after) (before.length + name.length) = before.length := by
  have hword : ∀ k ≤ name.length, wordStart (before ++ name ++ after) (before.length + k) =
      wordStart (before ++ name ++ after) before.length := by
    intro k hk
    induction k with
    | zero => rfl
    | succ k ih =>
      have hchar := h.chars name[k] (List.getElem_mem hk)
      rw [← Nat.add_assoc, wordStart, getD_name hk, isWordChar_eq, if_pos hchar]
      exact ih (by omega)
  rw [hword _ le_rfl]
  cases hlen : before.length with
  | zero => rfl
  | succ k =>
    rw [wordStart, isWordChar_eq, if_neg]
    rw [(clean_before h hlen).1]
    simp

theorem WordBefore.pos (h : WordBefore before name) : 0 < name.length := by
  obtain ⟨c, hc, -⟩ := h.head
  exact List.length_pos_of_mem (List.mem_of_head? hc)

theorem skipDigits_eq (h : WordBefore before name) (n : Nat) :
    skipDigits (before ++ name ++ after) n before.length = before.length := by
  cases n with
  | zero => rfl
  | succ n =>
    obtain ⟨c, hc, halpha⟩ := h.head
    have hfirst : (before ++ name ++ after).getD before.length '\x00' = c := by
      have hpos := h.pos
      have hget : (before ++ name ++ after).getD (before.length + 0) '\x00' = name[0] := getD_name hpos
      rw [Nat.add_zero] at hget
      rw [hget]
      rw [List.head?_eq_getElem?, List.getElem?_eq_getElem h.pos] at hc
      exact Option.some.inj hc
    have hdigit : c.isDigit = false := by
      rw [isAlpha_eq] at halpha
      change (decide (c.val ≥ '0'.val) && decide (c.val ≤ '9'.val)) = false
      simp only [Bool.or_eq_true, Bool.and_eq_true, Bool.and_eq_false_iff, decide_eq_true_eq,
        decide_eq_false_iff_not, UInt32.le_iff_toNat_le, ge_iff_le] at halpha ⊢
      have h9 : '9'.val.toNat = 57 := rfl
      have hA : 'A'.val.toNat = 65 := rfl
      have ha : 'a'.val.toNat = 97 := rfl
      omega
    rw [skipDigits, hfirst, hdigit]
    rfl

/-- A name that stands alone in front of the error is reported with the position of its first character. -/
theorem compileError_word (h : WordBefore before name) {vars : List (List Char)}
    (hfun : isFunction (String.ofList name) = false) (hvars : name ∉ vars) :
    compileError vars (before ++ name ++ after) ((before ++ name).length : Nat) =
      .unknownName name (before.length + 1) := by
  have hpos := h.pos
  unfold compileError
  rw [if_neg (by omega)]
  dsimp only
  rw [Int.toNat_natCast, List.length_append, wordStart_eq h, skipDigits_eq h, if_pos]
  · have hname : ((before ++ name ++ after).drop before.length).take
        (before.length + name.length - before.length) = name := by
      rw [List.append_assoc, List.drop_left, Nat.add_sub_cancel_left, List.take_left]
    rw [hname, hfun]
    rw [if_pos]
    simp only [Bool.not_false, Bool.true_and, List.all_eq_true, decide_eq_true_eq]
    rintro var hvar rfl
    exact hvars hvar
  · refine ⟨by omega, fun hdot => ?_⟩
    obtain ⟨k, hk⟩ : ∃ k, before.length = k + 1 := ⟨before.length - 1, by omega⟩
    rw [hk, Nat.add_sub_cancel] at hdot
    exact (clean_before h hk).2 hdot.2

end Word

/-! ## The unknown name -/

section Unknown

variable (C : Doubles Double Function) {vars : List (String × Nat)}

/-- Every name is bound, the unknown ones to the first slot. -/
def anySlot (vars : List (String × Nat)) : Find Nat Function := fun name len =>
  (bareNames name len).bind fun
    | .var bound => some (.var ((binding vars bound).getD 0))
    | .function f => some (.function f)

theorem binds_anySlot (vars : List (String × Nat)) :
    Binds (fun name => some ((binding vars name).getD 0)) bareNames (anySlot vars) := by
  intro name len _
  unfold anySlot
  cases bareNames name len with
  | none => rfl
  | some address => cases address <;> rfl

theorem narrower_anySlot (h : Separate vars) : Narrower C (findName (teVariables vars)) (anySlot vars) := by
  intro text
  rw [nextToken_bind (binds_names h), nextToken_bind (binds_anySlot vars)]
  cases (nextToken C bareNames text).1 with
  | tokVariable bound =>
    cases hbound : binding vars bound with
    | none => exact .inr (by simp [Tok.bind, hbound])
    | some slot => exact .inl (by simp [Tok.bind, hbound])
  | _ => exact .inl rfl

theorem bareNames_var {name rest : List Char} {bound : String} (h : NameAt bareNames name rest bound) :
    bound = String.ofList name ∧ isFunction bound = false := by
  have hisName : IsName (name ++ rest) name.length := by
    refine ⟨by simp, fun c hc => h.chars c ?_⟩
    rwa [List.take_left] at hc
  have hfound := h.found
  unfold bareNames at hfound
  have hfun := findName_functions (V := String) hisName
  rw [List.take_left] at hfun hfound
  obtain ⟨callee, hcallee⟩ := findName_callee (name ++ rest) name.length
  rw [hcallee] at hfound hfun
  cases callee with
  | none =>
    cases hfound
    exact ⟨rfl, hfun.symm⟩
  | some f => cases hfound

theorem not_variable {name : List Char} (hfun : isFunction (String.ofList name) = false)
    (hnone : binding vars (String.ofList name) = none) : name ∉ (teVariables vars).map (·.name) := by
  intro hmem
  unfold teVariables at hmem
  rw [List.map_append, List.map_map, List.mem_append, functionVariables_names] at hmem
  rcases hmem with hmem | hmem
  · obtain ⟨x, hx, rfl⟩ := List.mem_map.mp hmem
    have hkey := List.lookup_eq_none_iff.mp hnone x hx
    simp at hkey
  · rw [(isFunction_iff name).mpr (.inl hmem)] at hfun
    cases hfun

/-- **The unknown name.** A text that is an expression but for names that are not bound does not compile, and what is
logged is the first of these names, with the position of its first character. -/
theorem unknown_name_reported (cfg : EvalConf) (e₀ : Eval) (cands : List String)
    (hconf : evalConfigureOne cfg = some e₀) (text : List Char) (tree : TeExpr String)
    (htree : exprTree C text = some tree)
    (hunbound : ¬ ∀ name ∈ textNames C text, (binding (varList e₀ cands) name).isSome = true) :
    ∃ (err : Nat) (before name after : List Char) (names₁ names₂ : List String),
      teCompile C (teVariables (varList e₀ cands)) text = .error err ∧ text = before ++ name ++ after ∧
        textNames C text = names₁ ++ String.ofList name :: names₂ ∧
        (∀ other ∈ names₁, (binding (varList e₀ cands) other).isSome = true) ∧
        binding (varList e₀ cands) (String.ofList name) = none ∧
        compileError ((teVariables (varList e₀ cands)).map (·.name)) text err =
          .unknownName name (before.length + 1) := by
  have h : Separate (varList e₀ cands) := separate_varList (configured_names hconf) cands
  generalize varList e₀ cands = vars at h hunbound ⊢
  obtain ⟨e, he⟩ : ∃ e, compileWith C bareNames text = .ok e := by
    unfold exprTree at htree
    cases hbare : compileWith C bareNames text with
    | error pos =>
      rw [hbare] at htree
      cases htree
    | ok e => exact ⟨e, rfl⟩
  obtain ⟨ts, a, hlex, hts, hopt⟩ := compileWith_iff.mp he
  have hnames : textNames C text = ts.filterMap Tok.bound? := by
    unfold textNames
    rw [hlex, List.filterMap_append]
    exact List.append_nil _
  have hvars : e.vars = textNames C text := by rw [hopt, Expr.optimize_vars, sentence_vars hts, hnames]
  have hok := (compileWith_rename (C := C) (binds_anySlot vars) text _).mpr ⟨e, he, fun _ _ => rfl, rfl⟩
  have hno : ∀ e', compileWith C (findName (teVariables vars)) text ≠ .ok e' := by
    intro e' he'
    obtain ⟨e₁, he₁, hbound, -⟩ := (compileWith_rename (C := C) (binds_names h) text e').mp he'
    rw [he] at he₁
    cases he₁
    rw [hvars] at hbound
    exact hunbound hbound
  obtain ⟨next, hfirst, herr⟩ := compileWith_narrower (narrower_anySlot C h) hok hno
  have hapart : Apart (.tokSep :: ts) := (apart_cons rfl).mpr (sentence_apart hts)
  have hfresh : Fresh (.tokSep : Tok Double String Function) none text := fun _ => .inl (by simp)
  obtain ⟨before, name, bound, ts₁, ts₂, htext, hname, halone, hsplit, hbound, hnone⟩ :=
    hfirst.name (binds_names h) hlex hapart hfresh
  obtain ⟨rfl, hfun⟩ := bareNames_var hname
  have hword : WordBefore before name := ⟨hname.chars, hname.head, halone⟩
  have hpos : errorPos text next = (before ++ name).length := by
    have hlen := hword.pos
    unfold errorPos
    rw [htext, List.length_append, List.length_append, Nat.add_sub_cancel, if_neg (by omega)]
  refine ⟨_, before, name, next, _, ts₂.filterMap Tok.bound?, herr, htext, ?_, hbound, hnone, ?_⟩
  · rw [hnames, hsplit, List.filterMap_append]
    rfl
  · rw [hpos, htext]
    exact compileError_word hword hfun (not_variable hfun hnone)

/-- In "2*(x+y1)", with an `x` but no `y1`. -/
theorem unknown_name_reported_example : ∃ (e₀ : Eval) (err : Nat) (before name after : List Char),
    evalConfigureOne copyConf = some e₀ ∧
      teCompile bareDoubles (teVariables (varList e₀ ["x"])) "2*(x+y1)".toList = .error err ∧
      "2*(x+y1)".toList = before ++ name ++ after ∧
      compileError ((teVariables (varList e₀ ["x"])).map (·.name)) "2*(x+y1)".toList err =
        .unknownName name (before.length + 1) := by
  have htree : exprTree bareDoubles "2*(x+y1)".toList = some _ := rfl
  obtain ⟨err, before, name, after, _, _, herr, htext, -, -, -, hreport⟩ :=
    unknown_name_reported bareDoubles copyConf _ ["x"] rfl "2*(x+y1)".toList _ htree (by
      rw [← exprTree_vars bareDoubles htree]
      decide +kernel)
  exact ⟨_, err, before, name, after, rfl, herr, htext, hreport⟩

end Unknown

-- "1.e" is a number and a name, but no expression.
example : compileError [] "x + 1.e".toList 7 = .syntaxError 7 := by decide +kernel

end Uvrgw.Evals
