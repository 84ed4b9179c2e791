import Mathlib.Data.List.TakeWhile
import Mathlib.Tactic.FinCases
import Uvrgw.Lib.Printf

/-!
# The format of a number output (`check_fmt`)
-/

namespace Uvrgw.Mqtt

open Uvrgw.Lib

/-- `p += strspn(p, accept)`. -/
def skipSpan (accept p : List Char) : List Char := p.dropWhile (· ∈ accept)

def spanFlags : List Char := ['-', '+', ' ', '#', '0']

def spanDigits : List Char := ['0', '1', '2', '3', '4', '5', '6', '7', '8', '9']

def convChars : List Char := ['f', 'F', 'e', 'E', 'g', 'G', 'a', 'A']

def skipPrecision : List Char → List Char
  | '.' :: p => skipSpan spanDigits p
  | p => p

def skipModifier : List Char → List Char
  | 'l' :: p => p
  | p => p

/-- `check_fmt` from behind a `%`: what follows the conversion. -/
def skipConversion (p : List Char) : Option (List Char) :=
  match skipModifier (skipPrecision (skipSpan spanDigits (skipSpan spanFlags p))) with
  | [] => none
  | c :: p => if c ∈ convChars then some p else none

theorem length_skipPrecision_le (p : List Char) : (skipPrecision p).length ≤ p.length := by
  unfold skipPrecision
  split
  · exact Nat.le_trans (List.length_dropWhile_le _ _) (by simp)
  · exact Nat.le_refl _

theorem length_skipModifier_le (p : List Char) : (skipModifier p).length ≤ p.length := by
  unfold skipModifier
  split
  · simp
  · exact Nat.le_refl _

theorem length_skipConversion_lt {p rest : List Char} (h : skipConversion p = some rest) :
    rest.length < p.length := by
  have h1 : (skipSpan spanFlags p).length ≤ p.length := List.length_dropWhile_le _ _
  have h2 : (skipSpan spanDigits (skipSpan spanFlags p)).length ≤ _ := List.length_dropWhile_le _ _
  have h3 := length_skipPrecision_le (skipSpan spanDigits (skipSpan spanFlags p))
  have h4 := length_skipModifier_le (skipPrecision (skipSpan spanDigits (skipSpan spanFlags p)))
  unfold skipConversion at h
  split at h
  · cases h
  · rename_i c p' heq
    rw [heq, List.length_cons] at h4
    split at h
    · cases h
      omega
    · cases h

/-- The loop of `check_fmt`. -/
def checkLoop (p : List Char) (convCount : Nat) : Int :=
  match p with
  | [] => if convCount = 1 then 0 else -1
  | c :: p =>
    if c ≠ '%' then checkLoop p convCount
    else if p.head? = some '%' then checkLoop p.tail convCount
    else
      match _ : skipConversion p with
      | none => -1
      | some rest => checkLoop rest (convCount + 1)
termination_by p.length
decreasing_by
  · exact Nat.lt_succ_self _
  · rw [List.length_cons, List.length_tail]
    omega
  · have := length_skipConversion_lt ‹_›
    simp only [List.length_cons]
    omega

def checkFmt (fmt : List Char) : Int := checkLoop fmt 0

/-! ## The grammar -/

/-- Characters other than `%`, and `%%` pairs. -/
inductive Literal : List Char → Prop where
  | nil : Literal []
  | char {c : Char} {s : List Char} (hc : c ≠ '%') (hs : Literal s) : Literal (c :: s)
  | percent {s : List Char} (hs : Literal s) : Literal ('%' :: '%' :: s)

inductive Precision : List Char → Prop where
  | none : Precision []
  | point {digits : List Char} (hdigits : ∀ c ∈ digits, c ∈ spanDigits) : Precision ('.' :: digits)

/-- `%`, flags, width, precision, an optional `l` and the conversion character. -/
inductive Conversion : List Char → Prop where
  | mk {flags width prec modifier : List Char} {conv : Char} (hflags : ∀ c ∈ flags, c ∈ spanFlags)
    (hwidth : ∀ c ∈ width, c ∈ spanDigits) (hprec : Precision prec) (hmodifier : modifier = [] ∨ modifier = ['l'])
    (hconv : conv ∈ convChars) : Conversion ('%' :: (flags ++ (width ++ (prec ++ (modifier ++ [conv])))))

/-- Exactly one conversion in a text. -/
def Format (s : List Char) : Prop :=
  ∃ before conv after, s = before ++ (conv ++ after) ∧ Literal before ∧ Conversion conv ∧ Literal after

/-! ## A conversion -/

theorem skipSpan_append {accept w rest : List Char} (hw : ∀ c ∈ w, c ∈ accept)
    (hrest : ∀ c ∈ rest.head?, c ∉ accept) :
    skipSpan accept (w ++ rest) = rest := by
  unfold skipSpan
  rw [List.dropWhile_append_of_pos (by simpa using hw)]
  cases rest with
  | nil => rfl
  | cons c rest => exact List.dropWhile_cons_of_neg (by simpa using hrest c rfl)

/-- Zeros of the width may count as flags; the rest of it is skipped afterwards. -/
theorem skip_width {flags width rest : List Char} (hflags : ∀ c ∈ flags, c ∈ spanFlags)
    (hwidth : ∀ c ∈ width, c ∈ spanDigits) (hrest : ∀ c ∈ rest.head?, c ∉ spanFlags ∧ c ∉ spanDigits) :
    skipSpan spanDigits (skipSpan spanFlags (flags ++ (width ++ rest))) = rest := by
  have hskip : skipSpan spanFlags (flags ++ (width ++ rest)) = skipSpan spanFlags (width ++ rest) :=
    List.dropWhile_append_of_pos (by simpa using hflags)
  rw [hskip]
  clear hskip
  induction width with
  | nil =>
    rw [skipSpan_append (by simp) fun c hc => (hrest c hc).1]
    exact skipSpan_append (w := []) (by simp) fun c hc => (hrest c hc).2
  | cons d width ih =>
    obtain ⟨-, hwidth'⟩ := List.forall_mem_cons.mp hwidth
    have hcons : skipSpan spanFlags (d :: width ++ rest) =
        if d ∈ spanFlags then skipSpan spanFlags (width ++ rest) else d :: width ++ rest := by
      unfold skipSpan
      rw [List.cons_append, List.dropWhile_cons]
      simp
    rw [hcons]
    split
    · exact ih hwidth'
    · exact skipSpan_append hwidth fun c hc => (hrest c hc).2

theorem skipConversion_append {flags width prec modifier : List Char} {conv : Char}
    (hflags : ∀ c ∈ flags, c ∈ spanFlags) (hwidth : ∀ c ∈ width, c ∈ spanDigits) (hprec : Precision prec)
    (hmodifier : modifier = [] ∨ modifier = ['l']) (hconv : conv ∈ convChars) (rest : List Char) :
    skipConversion (flags ++ (width ++ (prec ++ (modifier ++ conv :: rest)))) = some rest := by
  have hconv' : conv ∉ spanFlags ∧ conv ∉ spanDigits ∧ conv ≠ '.' ∧ conv ≠ 'l' := by
    have h : convChars.all (fun c => c ∉ spanFlags ∧ c ∉ spanDigits ∧ c ≠ '.' ∧ c ≠ 'l') = true := by decide
    exact of_decide_eq_true (List.all_eq_true.mp h conv hconv)
  obtain ⟨hnf, hnd, hdot, hl⟩ := hconv'
  have hmod : skipModifier (modifier ++ conv :: rest) = conv :: rest := by
    rcases hmodifier with rfl | rfl
    · unfold skipModifier
      split
      · rename_i heq
        exact absurd (List.cons.inj heq).1 hl
      · rfl
    · rfl
  have hhead : ∀ c ∈ (modifier ++ conv :: rest).head?, c ∉ spanFlags ∧ c ∉ spanDigits ∧ c ≠ '.' := by
    rcases hmodifier with rfl | rfl
    · simpa using ⟨hnf, hnd, hdot⟩
    · simpa using (by decide : 'l' ∉ spanFlags ∧ 'l' ∉ spanDigits ∧ 'l' ≠ '.')
  generalize modifier ++ conv :: rest = tail at hmod hhead ⊢
  have hskip : skipPrecision (prec ++ tail) = tail ∧
      ∀ c ∈ (prec ++ tail).head?, c ∉ spanFlags ∧ c ∉ spanDigits := by
    cases hprec with
    | none =>
      refine ⟨?_, fun c hc => ⟨(hhead c hc).1, (hhead c hc).2.1⟩⟩
      unfold skipPrecision
      split
      · rename_i heq
        rw [List.nil_append] at heq
        exact absurd rfl (hhead '.' (by rw [heq]; rfl)).2.2
      · rfl
    | point hdigits =>
      refine ⟨skipSpan_append hdigits fun c hc => (hhead c hc).2.1, ?_⟩
      simpa using (by decide : '.' ∉ spanFlags ∧ '.' ∉ spanDigits)
  unfold skipConversion
  rw [skip_width hflags hwidth hskip.2, hskip.1, hmod]
  exact if_pos hconv

theorem skipSpan_split (accept p : List Char) : ∃ w, (∀ c ∈ w, c ∈ accept) ∧ p = w ++ skipSpan accept p := by
  refine ⟨p.takeWhile (· ∈ accept), fun c hc => by simpa using List.mem_takeWhile_imp hc, ?_⟩
  exact List.takeWhile_append_dropWhile.symm

theorem skipConversion_sound {p rest : List Char} (h : skipConversion p = some rest) :
    ∃ conv, Conversion ('%' :: conv) ∧ p = conv ++ rest := by
  obtain ⟨flags, hflags, h1⟩ := skipSpan_split spanFlags p
  obtain ⟨width, hwidth, h2⟩ := skipSpan_split spanDigits (skipSpan spanFlags p)
  have hprec : ∀ q, ∃ prec, Precision prec ∧ q = prec ++ skipPrecision q := by
    intro q
    unfold skipPrecision
    split
    · rename_i q'
      obtain ⟨digits, hdigits, hq⟩ := skipSpan_split spanDigits q'
      exact ⟨_, .point hdigits, congrArg ('.' :: ·) hq⟩
    · exact ⟨[], .none, rfl⟩
  have hmodifier : ∀ q, ∃ modifier, (modifier = [] ∨ modifier = ['l']) ∧ q = modifier ++ skipModifier q := by
    intro q
    unfold skipModifier
    split
    · exact ⟨['l'], .inr rfl, rfl⟩
    · exact ⟨[], .inl rfl, rfl⟩
  obtain ⟨prec, hp, h3⟩ := hprec (skipSpan spanDigits (skipSpan spanFlags p))
  obtain ⟨modifier, hm, h4⟩ := hmodifier (skipPrecision (skipSpan spanDigits (skipSpan spanFlags p)))
  unfold skipConversion at h
  split at h
  · cases h
  · rename_i c p' heq
    split at h
    · rename_i hc
      cases h
      refine ⟨_, .mk hflags hwidth hp hm hc, ?_⟩
      rw [heq] at h4
      rw [h1, h2, h3, h4]
      simp
    · cases h

/-! ## The loop -/

theorem literal_cons {c : Char} {p : List Char} (hc : c ≠ '%') : Literal (c :: p) ↔ Literal p := by
  constructor
  · intro h
    cases h with
    | char _ hs => exact hs
    | percent => exact absurd rfl hc
  · exact .char hc

theorem literal_percent {p : List Char} : Literal ('%' :: '%' :: p) ↔ Literal p := by
  constructor
  · intro h
    cases h with
    | char hc => exact absurd rfl hc
    | percent hs => exact hs
  · exact .percent

theorem Conversion.skip {conv : List Char} (h : Conversion conv) :
    ∃ conv', conv = '%' :: conv' ∧ ∀ rest, skipConversion (conv' ++ rest) = some rest := by
  cases h with
  | mk hflags hwidth hprec hmodifier hconv =>
    refine ⟨_, rfl, fun rest => ?_⟩
    have := skipConversion_append hflags hwidth hprec hmodifier hconv rest
    simpa using this

theorem skipConversion_percent (p : List Char) : skipConversion ('%' :: p) = none := rfl

/-- A text with one conversion starts with a character that is not `%`, with a pair, or with the conversion. -/
theorem format_cons {c : Char} {p : List Char} : Format (c :: p) ↔
    c ≠ '%' ∧ Format p ∨
      c = '%' ∧ ((∃ q, p = '%' :: q ∧ Format q) ∨ ∃ after, skipConversion p = some after ∧ Literal after) := by
  constructor
  · rintro ⟨before, conv, after, heq, hbefore, hconv, hafter⟩
    cases hbefore with
    | nil =>
      obtain ⟨conv', rfl, hskip⟩ := hconv.skip
      obtain ⟨rfl, rfl⟩ := List.cons.inj heq
      exact .inr ⟨rfl, .inr ⟨after, hskip after, hafter⟩⟩
    | char hc hs =>
      obtain ⟨rfl, rfl⟩ := List.cons.inj heq
      exact .inl ⟨hc, _, conv, after, rfl, hs, hconv, hafter⟩
    | percent hs =>
      obtain ⟨rfl, rfl⟩ := List.cons.inj heq
      exact .inr ⟨rfl, .inl ⟨_, rfl, _, conv, after, rfl, hs, hconv, hafter⟩⟩
  · rintro (⟨hc, before, conv, after, rfl, hbefore, hconv, hafter⟩ |
      ⟨rfl, ⟨q, rfl, before, conv, after, rfl, hbefore, hconv, hafter⟩ | ⟨after, hskip, hafter⟩⟩)
    · exact ⟨c :: before, conv, after, rfl, .char hc hbefore, hconv, hafter⟩
    · exact ⟨'%' :: '%' :: before, conv, after, rfl, .percent hbefore, hconv, hafter⟩
    · obtain ⟨conv, hconv, rfl⟩ := skipConversion_sound hskip
      exact ⟨[], '%' :: conv, after, rfl, .nil, hconv, hafter⟩

theorem not_format_nil : ¬ Format [] := by
  rintro ⟨before, conv, after, heq, -, hconv, -⟩
  obtain ⟨conv', rfl, -⟩ := hconv.skip
  simp at heq

theorem literal_head {p : List Char} (h : Literal ('%' :: p)) : p.head? = some '%' := by
  cases h with
  | char hc => exact absurd rfl hc
  | percent => rfl

theorem checkLoop_iff (p : List Char) (n : Nat) :
    checkLoop p n = 0 ↔ n = 0 ∧ Format p ∨ n = 1 ∧ Literal p := by
  fun_induction checkLoop p n with
  | case1 => simp [not_format_nil, Literal.nil]
  | case2 n hn => simp [not_format_nil, hn]
  | case3 n c p hc ih => rw [ih, format_cons, literal_cons hc]; simp [hc]
  | case4 n c p hc hhead ih =>
    have hc' : c = '%' := not_not.mp hc
    obtain ⟨q, rfl⟩ : ∃ q, p = '%' :: q := by
      cases p with
      | nil => simp at hhead
      | cons d q => exact ⟨q, by simpa using hhead⟩
    rw [ih, hc', format_cons, literal_percent, List.tail_cons]
    simp [skipConversion_percent]
  | case5 n c p hc hhead hskip =>
    have hc' : c = '%' := not_not.mp hc
    have hformat : ¬ Format ('%' :: p) := by
      rw [format_cons]
      rintro (⟨h, -⟩ | ⟨-, ⟨q, rfl, -⟩ | ⟨after, h, -⟩⟩)
      · exact h rfl
      · exact hhead rfl
      · rw [hskip] at h
        cases h
    have hliteral : ¬ Literal ('%' :: p) := fun h => hhead (literal_head h)
    rw [hc']
    simp [hformat, hliteral]
  | case6 n c p hc hhead rest hskip ih =>
    have hc' : c = '%' := not_not.mp hc
    have hformat : Format ('%' :: p) ↔ Literal rest := by
      rw [format_cons]
      constructor
      · rintro (⟨h, -⟩ | ⟨-, ⟨q, rfl, -⟩ | ⟨after, h, hafter⟩⟩)
        · exact absurd rfl h
        · exact absurd rfl hhead
        · rw [hskip] at h
          cases h
          exact hafter
      · exact fun h => .inr ⟨rfl, .inr ⟨rest, hskip, h⟩⟩
    have hliteral : ¬ Literal ('%' :: p) := fun h => hhead (literal_head h)
    rw [hc', ih, hformat]
    simp [hliteral]

theorem checkFmt_iff (fmt : List Char) : checkFmt fmt = 0 ↔ Format fmt := by
  unfold checkFmt
  rw [checkLoop_iff]
  simp

theorem checkLoop_cases (p : List Char) (n : Nat) : checkLoop p n = 0 ∨ checkLoop p n = -1 := by
  fun_induction checkLoop p n with
  | case1 => exact .inl rfl
  | case2 => exact .inr rfl
  | case3 _ _ _ _ ih => exact ih
  | case4 _ _ _ _ _ ih => exact ih
  | case5 => exact .inr rfl
  | case6 _ _ _ _ _ _ _ ih => exact ih

theorem checkFmt_cases (fmt : List Char) : checkFmt fmt = 0 ∨ checkFmt fmt = -1 := checkLoop_cases fmt 0

/-! ## The argument of an output -/

/-- A `*` is not skipped: the scanner fails at it. -/
theorem number_eq {p : List Char} (h : (skipSpan spanDigits p).head? ≠ some '*') :
    Printf.number p = ([], skipSpan spanDigits p) := by
  unfold Printf.number
  split
  · exact absurd rfl h
  · rfl

theorem precision_eq {p : List Char} (h : (skipPrecision p).head? ≠ some '*') :
    Printf.precision p = ([], skipPrecision p) := by
  unfold Printf.precision
  split
  · exact number_eq h
  · unfold skipPrecision
    split
    · rename_i hdot
      exact (hdot _ rfl).elim
    · rfl

/-- The conversions of the scanner take a double behind an `l` too. -/
theorem modifier_eq {p rest : List Char} {c : Char} (h : skipModifier p = c :: rest) (hc : c ∈ convChars) :
    ∃ m, Printf.modifier p = (m, c :: rest) ∧ m.float = some .double := by
  unfold skipModifier at h
  split at h
  · refine ⟨.l, ?_, rfl⟩
    rw [h]
    fin_cases hc <;> rfl
  · refine ⟨.none, ?_, rfl⟩
    rw [h]
    fin_cases hc <;> rfl

theorem argument_float (m : Printf.Modifier) {c : Char} (hc : c ∈ convChars) : Printf.argument m c = m.float := by
  fin_cases hc <;> rfl

theorem directive_of_skip {p rest : List Char} (h : skipConversion p = some rest) :
    Printf.directive p = some ([.double], rest) := by
  unfold skipConversion at h
  split at h
  · cases h
  · rename_i c q hq
    split at h
    · rename_i hc
      cases h
      have hstar : c ≠ '*' := by
        rintro rfl
        exact absurd hc (by decide)
      have hprec : (skipPrecision (skipSpan spanDigits (skipSpan spanFlags p))).head? ≠ some '*' := by
        intro hhead
        obtain ⟨q, heq⟩ := List.head?_eq_some_iff.mp hhead
        rw [heq] at hq
        exact hstar (List.cons.inj hq).1.symm
      have hwidth : (skipSpan spanDigits (skipSpan spanFlags p)).head? ≠ some '*' := by
        intro hhead
        obtain ⟨q, heq⟩ := List.head?_eq_some_iff.mp hhead
        rw [heq] at hprec
        exact hprec rfl
      obtain ⟨m, hm, hfloat⟩ := modifier_eq hq hc
      have hflags : p.dropWhile (· ∈ Printf.flags) = skipSpan spanFlags p := rfl
      unfold Printf.directive
      rw [hflags, number_eq hwidth]
      dsimp only
      rw [precision_eq hprec]
      dsimp only
      rw [hm]
      dsimp only
      rw [argument_float m hc, hfloat]
      rfl
    · cases h

theorem args_literal {s : List Char} (h : Literal s) (t : List Char) : Printf.args (s ++ t) = Printf.args t := by
  induction h with
  | nil => rfl
  | char hc _ ih => rw [List.cons_append, Printf.args_char hc, ih]
  | percent _ ih => rw [List.cons_append, List.cons_append, Printf.args_percent, ih]

theorem Format.args {s : List Char} (h : Format s) : Printf.args s = some [.double] := by
  obtain ⟨before, conv, after, rfl, hbefore, hconv, hafter⟩ := h
  obtain ⟨conv', rfl, hskip⟩ := hconv.skip
  have hhead : (conv' ++ after).head? ≠ some '%' := by
    intro hhead
    obtain ⟨q, heq⟩ := List.head?_eq_some_iff.mp hhead
    have := hskip after
    rw [heq, skipConversion_percent] at this
    cases this
  have hnil : Printf.args [] = some [] := by rw [Printf.args]
  have hafter' : Printf.args after = some [] := by
    have := args_literal hafter []
    rwa [List.append_nil, hnil] at this
  rw [args_literal hbefore, List.cons_append, Printf.args_directive hhead (directive_of_skip (hskip after)), hafter']
  rfl

/-- **The format check is exact.** It accepts the texts with one conversion, and such a format takes one double. -/
theorem check_fmt_exact (fmt : List Char) :
    (checkFmt fmt = 0 ↔ Format fmt) ∧ (checkFmt fmt = 0 → Printf.args fmt = some [.double]) :=
  ⟨checkFmt_iff fmt, fun h => ((checkFmt_iff fmt).mp h).args⟩

theorem check_fmt_exact_example : Printf.args "%5.1lf %%".toList = some [.double] := by
  have hafter : Literal " %%".toList := .char (by decide) (.percent .nil)
  have hconv : Conversion ('%' :: ([] ++ (['5'] ++ (['.', '1'] ++ (['l'] ++ ['f']))))) :=
    .mk (by simp) (by simp [spanDigits]) (.point (by simp [spanDigits])) (.inr rfl) (by simp [convChars])
  exact (check_fmt_exact "%5.1lf %%".toList).2 ((check_fmt_exact _).1.mpr ⟨[], _, _, rfl, .nil, hconv, hafter⟩)

end Uvrgw.Mqtt
