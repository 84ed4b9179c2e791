import Uvrgw.Tinyexpr.Code

/-! # The tokens of a text -/

namespace Uvrgw.Tinyexpr

open Uvrgw.Lib

variable {D V U : Type} (C : Doubles D U) (find : Find V U)

/-- Nothing is read behind the end of the text or an error. -/
def Tok.final : Tok D V U → Bool
  | .tokEnd | .tokError => true
  | _ => false

/-! ## Progress -/

theorem exponentSign_suffix (p : List Char) : (exponentSign p).2 <:+ p := by
  unfold exponentSign
  split
  · exact List.suffix_cons _ _
  · exact List.suffix_cons _ _
  · exact List.suffix_refl _

theorem parseExponent_suffix (p : List Char) : (parseExponent p).2 <:+ p := by
  unfold parseExponent
  split
  · exact List.suffix_refl _
  · rename_i c p
    split
    · dsimp only
      split
      · exact List.suffix_refl _
      · exact (List.dropWhile_suffix _).trans ((exponentSign_suffix p).trans (List.suffix_cons _ _))
    · exact List.suffix_refl _

/-- The fraction takes its digits off the text. -/
theorem parseFraction_length (p : List Char) :
    (parseFraction p).2 <:+ p ∧ (parseFraction p).1.length + (parseFraction p).2.length ≤ p.length := by
  unfold parseFraction
  split
  · rename_i p
    have hsplit := congrArg List.length (List.takeWhile_append_dropWhile (p := Char.isDigit) (l := p))
    rw [List.length_append] at hsplit
    refine ⟨(List.dropWhile_suffix _).trans (List.suffix_cons _ _), ?_⟩
    dsimp only
    rw [List.length_cons]
    omega
  · exact ⟨List.suffix_refl _, by simp⟩

theorem parseDecimal_suffix {p next : List Char} {value : D} (h : parseDecimal C p = some (value, next)) :
    next <:+ p ∧ next.length < p.length := by
  unfold parseDecimal at h
  dsimp only at h
  have hint := congrArg List.length (List.takeWhile_append_dropWhile (p := Char.isDigit) (l := p))
  rw [List.length_append] at hint
  obtain ⟨hfrac, hlength⟩ := parseFraction_length (p.dropWhile Char.isDigit)
  have hexp := parseExponent_suffix (parseFraction (p.dropWhile Char.isDigit)).2
  split at h
  · cases h
  · have hnext : next = (parseExponent (parseFraction (p.dropWhile Char.isDigit)).2).2 := by
      split at h <;> cases h <;> rfl
    rw [hnext]
    have hle := hexp.length_le
    exact ⟨hexp.trans (hfrac.trans (List.dropWhile_suffix _)), by omega⟩

theorem parseNumber_suffix {p next : List Char} {value : D} (h : parseNumber C p = some (value, next)) :
    next <:+ p ∧ next.length < p.length := by
  unfold parseNumber at h
  split at h
  · rename_i x c rest
    split at h
    · cases h
      have hdrop := List.dropWhile_suffix (l := c :: rest) isxdigit
      have hle := hdrop.length_le
      refine ⟨hdrop.trans ((List.suffix_cons _ _).trans (List.suffix_cons _ _)), ?_⟩
      simp only [List.length_cons] at hle ⊢
      omega
    · exact parseDecimal_suffix C h
  · exact parseDecimal_suffix C h

theorem operator_suffix (c : Char) (rest : List Char) : (operator (D := D) (V := V) (U := U) c rest).2 <:+ rest := by
  have htail := List.tail_suffix rest
  have hrefl := List.suffix_refl rest
  unfold operator
  dsimp only
  split <;> first | exact hrefl | (split <;> assumption)

theorem takeWhile_pos {p : Char → Bool} {c : Char} {rest : List Char} (h : p c = true) :
    0 < ((c :: rest).takeWhile p).length := by
  rw [List.takeWhile_cons_of_pos h]
  exact Nat.succ_pos _

/-- A token that is not final takes a character at least. -/
theorem scanToken_suffix {c : Char} {rest next : List Char} {t : Option (Tok D V U)}
    (h : scanToken C find c rest = (t, next)) :
    next <:+ c :: rest ∧ (t.all Tok.final = false → next.length < (c :: rest).length) := by
  unfold scanToken at h
  split at h
  · split at h
    · rename_i value next' hnumber
      cases h
      obtain ⟨hsuffix, hlt⟩ := parseNumber_suffix C hnumber
      exact ⟨hsuffix, fun _ => hlt⟩
    · cases h
      exact ⟨List.suffix_refl _, by simp [Tok.final]⟩
  · split at h
    · rename_i hc
      cases h
      refine ⟨List.drop_suffix _ _, fun _ => ?_⟩
      have hpos : 0 < ((c :: rest).takeWhile isNameChar).length := takeWhile_pos (by simp [isNameChar, hc])
      rw [List.length_drop]
      simp only [List.length_cons] at hpos ⊢
      omega
    · have hnext := operator_suffix (D := D) (V := V) (U := U) c rest
      rw [h] at hnext
      exact ⟨hnext.trans (List.suffix_cons _ _), fun _ => Nat.lt_succ_of_le hnext.length_le⟩

theorem nextToken_suffix (text : List Char) : (nextToken C find text).2 <:+ text ∧
    ((nextToken C find text).1.final = false → (nextToken C find text).2.length < text.length) := by
  induction text with
  | nil => exact ⟨List.suffix_refl _, by simp [nextToken, Tok.final]⟩
  | cons c rest ih =>
    unfold nextToken
    split
    · rename_i t next ht
      obtain ⟨hsuffix, hlt⟩ := scanToken_suffix C find ht
      exact ⟨hsuffix, fun hfinal => hlt (by simpa using hfinal)⟩
    · refine ⟨ih.1.trans (List.suffix_cons _ _), fun hfinal => ?_⟩
      exact (ih.2 hfinal).trans (Nat.lt_succ_self _)

/-- What `next_token` looks up: the first `len` characters of what is left of the text. -/
def IsName (name : List Char) (len : Nat) : Prop := len ≤ name.length ∧ ∀ c ∈ name.take len, isNameChar c = true

theorem take_takeWhile (p : Char → Bool) (l : List Char) : l.take (l.takeWhile p).length = l.takeWhile p :=
  (List.prefix_iff_eq_take.mp (List.takeWhile_prefix p)).symm

theorem isName_takeWhile (l : List Char) : IsName l (l.takeWhile isNameChar).length := by
  refine ⟨(List.takeWhile_prefix _).length_le, fun c hc => ?_⟩
  rw [take_takeWhile] at hc
  exact List.all_eq_true.mp List.all_takeWhile c hc

/-! ## The stream -/

/-- All tokens of a text. -/
def lex (text : List Char) : List (Tok D V U) :=
  if _h : (nextToken C find text).1.final = true then [(nextToken C find text).1]
  else (nextToken C find text).1 :: lex (nextToken C find text).2
  termination_by text.length
  decreasing_by exact (nextToken_suffix C find text).2 (by simpa using _h)

theorem lex_final {text : List Char} (h : (nextToken C find text).1.final = true) :
    lex C find text = [(nextToken C find text).1] := by
  rw [lex, dif_pos h]

theorem lex_step {text : List Char} (h : (nextToken C find text).1.final = false) :
    lex C find text = (nextToken C find text).1 :: lex C find (nextToken C find text).2 := by
  rw [lex, dif_neg (by simp [h])]

theorem length_lex_le (text : List Char) : (lex C find text).length ≤ text.length + 1 := by
  induction hn : text.length using Nat.strong_induction_on generalizing text with
  | _ n ih =>
    by_cases h : (nextToken C find text).1.final = true
    · rw [lex_final C find h]
      simp
    · have h := eq_false_of_ne_true h
      have hlt := (nextToken_suffix C find text).2 h
      have hrest := ih (nextToken C find text).2.length (by omega) _ rfl
      rw [lex_step C find h, List.length_cons]
      omega

/-- The tokens that the parser still reads. -/
def State.tokens (s : State D V U) : List (Tok D V U) :=
  if s.type.final then [s.type] else s.type :: lex C find s.next

theorem State.tokens_final {s : State D V U} (h : s.type.final = true) : s.tokens C find = [s.type] := by
  unfold State.tokens
  rw [if_pos h]

theorem State.tokens_step {s : State D V U} (h : s.type.final = false) :
    s.tokens C find = s.type :: (s.advance C find).tokens C find := by
  rw [State.tokens, if_neg (by simp [h]), State.tokens]
  change _ :: lex C find s.next = _ :: if (nextToken C find s.next).1.final then _ else _
  split
  · rename_i hfinal
    rw [lex_final C find hfinal]
    rfl
  · rename_i hfinal
    rw [lex_step C find (eq_false_of_ne_true hfinal)]
    rfl

def stream : TokenStream (reader C find : Reader (State D V U) (Tok D V U)) where
  tokens := State.tokens C find
  final t := t.final = true
  tokens_final := fun _ h => State.tokens_final C find h
  tokens_step := fun _ h => State.tokens_step C find (eq_false_of_ne_true h)
  length_le := fun s => by
    change (s.tokens C find).length ≤ s.next.length + 1 + 1
    have hlex := length_lex_le C find s.next
    unfold State.tokens
    split
    · simp
    · rw [List.length_cons]
      omega

end Uvrgw.Tinyexpr
