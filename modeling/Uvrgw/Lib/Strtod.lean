import Uvrgw.Lib.Strtol

/-!
# `strtod`

The numerals of C as a grammar, and the function, which reads the longest one at the start of a string.
`round` converts a number to a double.
-/

namespace Uvrgw.Lib

/-! ## The grammar -/

/-- Digits with an optional point. -/
inductive Radix.Mantissa (r : Radix) : List Char → ℚ → Prop
  | whole {int : List Char} (hint : r.IsDigits int) : Radix.Mantissa r int (r.value int)
  | point {int frac : List Char} (hint : ∀ c ∈ int, r.isDigit c = true) (hfrac : ∀ c ∈ frac, r.isDigit c = true)
      (hne : int ++ frac ≠ []) :
      Radix.Mantissa r (int ++ '.' :: frac) (r.value (int ++ frac) / r.base ^ frac.length)

inductive Radix.Exponent (r : Radix) : List Char → ℤ → Prop
  | none : Radix.Exponent r [] 0
  | mk {mark : Char} {sign ds : List Char} {neg : Bool} (hmark : mark.toLower = r.expMark) (hsign : IsSign neg sign)
      (hds : decimal.IsDigits ds) :
      Radix.Exponent r (mark :: (sign ++ ds)) ((if neg then -1 else 1) * decimal.value ds)

inductive Radix.Unsigned (r : Radix) : List Char → ℚ → Prop
  | mk {m e : List Char} {q : ℚ} {n : ℤ} (hm : r.Mantissa m q) (he : r.Exponent e n) :
      Radix.Unsigned r (m ++ e) (q * (r.expBase : ℚ) ^ n)

/-- A character in the parentheses of a `nan()`. -/
def isNChar (c : Char) : Bool := c.isAlphanum || c == '_'

def IsNanSeq (seq : List Char) : Prop :=
  seq = [] ∨ ∃ cs, seq = '(' :: (cs ++ [')']) ∧ ∀ c ∈ cs, isNChar c = true

def wordInf : List Char := ['i', 'n', 'f']
def wordInfinity : List Char := ['i', 'n', 'f', 'i', 'n', 'i', 't', 'y']
def wordNan : List Char := ['n', 'a', 'n']
def wordHex : List Char := ['0', 'x']

def signed (round : ℚ → Double) (neg : Bool) (q : ℚ) : Double := round (if neg then -q else q)

/-- A numeral, and its double. -/
inductive Numeral (round : ℚ → Double) : List Char → Double → Prop
  | decimal {sign w : List Char} {neg : Bool} {q : ℚ} (hsign : IsSign neg sign) (hw : decimal.Unsigned w q) :
      Numeral round (sign ++ w) (signed round neg q)
  | hexadecimal {sign pre w : List Char} {neg : Bool} {q : ℚ} (hsign : IsSign neg sign) (hpre : IsWord wordHex pre)
      (hw : hexadecimal.Unsigned w q) : Numeral round (sign ++ (pre ++ w)) (signed round neg q)
  | infinity {sign w : List Char} {neg : Bool} (hsign : IsSign neg sign)
      (hw : IsWord wordInf w ∨ IsWord wordInfinity w) : Numeral round (sign ++ w) (.inf neg)
  | nan {sign w seq : List Char} {neg : Bool} (hsign : IsSign neg sign) (hw : IsWord wordNan w)
      (hseq : IsNanSeq seq) : Numeral round (sign ++ (w ++ seq)) .nan

/-! ## The function -/

def Radix.whole (r : Radix) (cs : List Char) : Option ℚ :=
  match r.scan cs with
  | some (q, []) => some q
  | _ => none

def isNanSeq : List Char → Bool
  | [] => true
  | '(' :: cs => cs.getLast? == some ')' && cs.dropLast.all isNChar
  | _ => false

def numeral? (round : ℚ → Double) (cs : List Char) : Option Double :=
  let (neg, cs) := scanSign cs
  if IsWord wordInf cs ∨ IsWord wordInfinity cs then some (.inf neg)
  else
    match afterWord wordNan cs, afterWord wordHex cs with
    | some seq, _ => if isNanSeq seq then some .nan else none
    | none, some cs => (hexadecimal.whole cs).map (signed round neg)
    | none, none => (decimal.whole cs).map (signed round neg)

/-- The longest prefix of at least one and at most `n` characters that `p` accepts, and the rest. -/
def longest {α : Type} (p : List Char → Option α) (cs : List Char) : Nat → Option (α × List Char)
  | 0 => none
  | n + 1 =>
    match p (cs.take (n + 1)) with
    | some x => some (x, cs.drop (n + 1))
    | none => longest p cs n

/-- `strtod`: the number and the rest; without a numeral this is the whole string. -/
def strtod (round : ℚ → Double) (s : List Char) : Double × List Char :=
  let cs := skipSpace s
  (longest (numeral? round) cs cs.length).getD (.fin 0, s)

example : strtod .fin [' ', '-', '1', '.', '5', 'e', '+', '1', 'e', '+'] =
  (.fin (-15), ['e', '+']) := by decide +kernel

/-! ## Characters -/

/-- Neither white space nor a NUL. -/
def Graph (c : Char) : Prop := 32 < c.toNat

instance (c : Char) : Decidable (Graph c) := inferInstanceAs (Decidable (32 < c.toNat))

theorem Graph.plain {c : Char} (h : Graph c) : isSpace c = false ∧ c ≠ '\x00' := by
  unfold Graph at h
  constructor
  · by_contra hs
    rcases isSpace_cases (by simpa using hs) with rfl | rfl | rfl | rfl | rfl | rfl <;> revert h <;> decide
  · rintro rfl
    revert h
    decide

theorem isAlphanum_graph {c : Char} (h : c.isAlphanum = true) : Graph c := by
  change (decide ('A'.val ≤ c.val ∧ c.val ≤ 'Z'.val) || decide ('a'.val ≤ c.val) && decide (c.val ≤ 'z'.val) ||
    decide ('0'.val ≤ c.val) && decide (c.val ≤ '9'.val)) = true at h
  simp only [Bool.or_eq_true, Bool.and_eq_true, decide_eq_true_eq, UInt32.le_iff_toNat_le] at h
  have hA : 'A'.val.toNat = 65 := rfl
  have ha : 'a'.val.toNat = 97 := rfl
  have h0 : '0'.val.toNat = 48 := rfl
  unfold Graph Char.toNat
  omega

theorem IsNanSeq.graph {seq : List Char} (h : IsNanSeq seq) : ∀ c ∈ seq, Graph c := by
  rcases h with rfl | ⟨cs, rfl, hcs⟩
  · simp
  · intro c hc
    simp only [List.mem_cons, List.mem_append, List.not_mem_nil, or_false] at hc
    rcases hc with rfl | hc | rfl
    · decide
    · rcases Bool.or_eq_true_iff.mp (hcs c hc) with hc | hc
      · exact isAlphanum_graph hc
      · rw [beq_iff_eq.mp hc]
        decide
    · decide

theorem graph_of_toLower {c : Char} (h : Graph c.toLower) : Graph c := by
  rcases toLower_cases c with hc | hc
  · rwa [hc] at h
  · unfold Graph
    omega

theorem IsWord.mem {word w : List Char} (hw : IsWord word w) {c : Char} (hc : c ∈ w) : c.toLower ∈ word := by
  rw [← hw]
  exact List.mem_map_of_mem hc

theorem IsWord.not {word cs : List Char} {d : Char} (hd : d ∈ word) (hcs : ∀ c ∈ cs, c.toLower ≠ d) :
    ¬ IsWord word cs := by
  intro hw
  rw [← hw, List.mem_map] at hd
  obtain ⟨c, hc, hcd⟩ := hd
  exact hcs c hc hcd

theorem isDigit_toLower {c : Char} (h : c.isDigit = true) : c.toLower = c := by
  rcases toLower_cases c with hc | hc
  · exact hc
  · simp only [Char.isDigit, Bool.and_eq_true, decide_eq_true_eq] at h
    have hhi : c.toNat ≤ 57 := h.2
    omega

/-- The mark of an exponent is no part of a mantissa. -/
theorem Radix.Standard.mark {r : Radix} (hr : r.Standard) {c : Char} (h : c.toLower = r.expMark) :
    r.isDigit c = false ∧ c ≠ '.' := by
  constructor
  · by_contra hd
    rw [Bool.not_eq_false] at hd
    rcases hr with rfl | rfl
    · rw [isDigit_toLower hd] at h
      subst h
      revert hd
      decide
    · rcases Bool.or_eq_true_iff.mp hd with hd | hd
      · rw [isDigit_toLower hd] at h
        subst h
        revert hd
        decide
      · rw [h] at hd
        revert hd
        decide
  · rintro rfl
    rcases hr with rfl | rfl <;> revert h <;> decide

theorem Radix.Standard.point {r : Radix} (hr : r.Standard) : r.isDigit '.' = false := by
  rcases hr with rfl | rfl <;> rfl

theorem standard_decimal : decimal.Standard := .inl rfl
theorem standard_hexadecimal : hexadecimal.Standard := .inr rfl

/-! ## What the scanner reads is a numeral -/

theorem scanMantissa_sound {r : Radix} {cs rest : List Char} {q : ℚ} (h : r.scanMantissa cs = some (q, rest)) :
    ∃ m, cs = m ++ rest ∧ r.Mantissa m q := by
  obtain ⟨hcs, hint⟩ := span_split r.isDigit cs
  unfold Radix.scanMantissa at h
  generalize cs.span r.isDigit = x at hcs hint h
  obtain ⟨int, tail⟩ := x
  dsimp only at hcs hint h
  split at h
  · rename_i frac
    obtain ⟨hfrac, hdigits⟩ := span_split r.isDigit frac
    generalize frac.span r.isDigit = y at hfrac hdigits h
    obtain ⟨fs, tail⟩ := y
    dsimp only at hfrac hdigits h
    split at h
    · cases h
    · rename_i hne
      obtain ⟨rfl, rfl⟩ := Prod.mk.inj (Option.some.inj h)
      refine ⟨int ++ '.' :: fs, ?_, .point hint hdigits ?_⟩
      · rw [hcs, hfrac]
        simp
      · simpa [List.isEmpty_iff] using hne
  · split at h
    · cases h
    · rename_i hne
      obtain ⟨rfl, rfl⟩ := Prod.mk.inj (Option.some.inj h)
      refine ⟨int, hcs, ?_⟩
      have hwhole := Radix.Mantissa.whole (r := r) ⟨by simpa using hne, hint⟩
      simpa using hwhole

theorem scanExponent_sound {r : Radix} {cs rest : List Char} {n : ℤ} (h : r.scanExponent cs = some (n, rest)) :
    ∃ e, cs = e ++ rest ∧ r.Exponent e n := by
  unfold Radix.scanExponent at h
  split at h
  · obtain ⟨rfl, rfl⟩ := Prod.mk.inj (Option.some.inj h)
    exact ⟨[], rfl, .none⟩
  · rename_i c cs
    split at h
    · rename_i hmark
      obtain ⟨sign, hsign, hcs⟩ := scanSign_split cs
      generalize scanSign cs = x at hsign hcs h
      obtain ⟨neg, tail⟩ := x
      obtain ⟨htail, hdigits⟩ := span_split Char.isDigit tail
      dsimp only at hsign hcs h
      generalize tail.span Char.isDigit = y at htail hdigits h
      obtain ⟨ds, tail⟩ := y
      dsimp only at htail hdigits h
      split at h
      · cases h
      · rename_i hne
        obtain ⟨rfl, rfl⟩ := Prod.mk.inj (Option.some.inj h)
        refine ⟨c :: (sign ++ ds), ?_, .mk hmark hsign ⟨by simpa using hne, hdigits⟩⟩
        rw [hcs, htail]
        simp
    · obtain ⟨rfl, rfl⟩ := Prod.mk.inj (Option.some.inj h)
      exact ⟨[], rfl, .none⟩

theorem whole_sound {r : Radix} {cs : List Char} {q : ℚ} (h : r.whole cs = some q) : r.Unsigned cs q := by
  unfold Radix.whole at h
  split at h
  · rename_i hscan
    obtain rfl := Option.some.inj h
    unfold Radix.scan at hscan
    obtain ⟨⟨m, tail⟩, hm, hscan⟩ := Option.bind_eq_some_iff.mp hscan
    obtain ⟨⟨n, tail'⟩, hn, hscan⟩ := Option.bind_eq_some_iff.mp hscan
    obtain ⟨rfl, rfl⟩ := Prod.mk.inj (Option.some.inj hscan)
    obtain ⟨w, rfl, hw⟩ := scanMantissa_sound hm
    obtain ⟨e, rfl, he⟩ := scanExponent_sound hn
    rw [List.append_nil]
    exact .mk hw he
  · cases h

theorem isNanSeq_iff (seq : List Char) : isNanSeq seq = true ↔ IsNanSeq seq := by
  unfold isNanSeq IsNanSeq
  split
  · simp
  · rename_i cs
    rw [Bool.and_eq_true, beq_iff_eq, List.all_eq_true, List.getLast?_eq_some_iff]
    constructor
    · rintro ⟨⟨ys, rfl⟩, hall⟩
      exact .inr ⟨ys, rfl, by simpa using hall⟩
    · rintro (h | ⟨ys, h, hall⟩)
      · cases h
      · obtain rfl := (List.cons.inj h).2
        exact ⟨⟨ys, rfl⟩, by simpa using hall⟩
  · rename_i hnil hparen
    constructor
    · intro h
      cases h
    · rintro (h | ⟨ys, h, -⟩)
      · exact absurd h hnil
      · exact absurd h (hparen _)

theorem numeral?_sound {round : ℚ → Double} {cs : List Char} {x : Double} (h : numeral? round cs = some x) :
    Numeral round cs x := by
  obtain ⟨sign, hsign, hcs⟩ := scanSign_split cs
  unfold numeral? at h
  generalize scanSign cs = y at hsign hcs h
  obtain ⟨neg, tail⟩ := y
  dsimp only at hsign hcs h
  rw [hcs]
  split at h
  · rename_i hinf
    obtain rfl := Option.some.inj h
    exact .infinity hsign hinf
  split at h
  · rename_i seq hnan
    obtain ⟨w, hw, rfl⟩ := afterWord_sound hnan
    split at h
    · rename_i hseq
      obtain rfl := Option.some.inj h
      exact .nan hsign hw ((isNanSeq_iff seq).mp hseq)
    · cases h
  · rename_i hhex
    obtain ⟨pre, hpre, rfl⟩ := afterWord_sound hhex
    obtain ⟨q, hq, rfl⟩ := Option.map_eq_some_iff.mp h
    exact .hexadecimal hsign hpre (whole_sound hq)
  · obtain ⟨q, hq, rfl⟩ := Option.map_eq_some_iff.mp h
    exact .decimal hsign (whole_sound hq)

/-! ## A numeral is read -/

theorem IsSign.mem {neg : Bool} {sign : List Char} (hsign : IsSign neg sign) {c : Char} (hc : c ∈ sign) :
    c = '+' ∨ c = '-' := by
  cases neg with
  | true =>
    obtain rfl := hsign
    exact .inr (List.mem_singleton.mp hc)
  | false =>
    rcases hsign with rfl | rfl
    · cases hc
    · exact .inl (List.mem_singleton.mp hc)

/-- A character of a number without its sign and prefix. -/
def Radix.IsChar (r : Radix) (c : Char) : Prop :=
  hexadecimal.isDigit c = true ∨ c = '.' ∨ c = '+' ∨ c = '-' ∨ c.toLower = r.expMark

theorem Radix.Mantissa.chars {r : Radix} (hr : r.Standard) {m : List Char} {q : ℚ} (hm : r.Mantissa m q) {c : Char}
    (hc : c ∈ m) : r.IsChar c := by
  have hdigit : ∀ d, r.isDigit d = true → r.IsChar d := by
    intro d hd
    left
    rcases hr with rfl | rfl
    · exact Bool.or_eq_true_iff.mpr (.inl hd)
    · exact hd
  cases hm with
  | whole hint => exact hdigit c (hint.2 c hc)
  | point hint hfrac hne =>
    rcases List.mem_append.mp hc with hc | hc
    · exact hdigit c (hint c hc)
    · rcases List.mem_cons.mp hc with rfl | hc
      · exact .inr (.inl rfl)
      · exact hdigit c (hfrac c hc)

theorem Radix.Exponent.chars {r : Radix} {e : List Char} {n : ℤ} (he : r.Exponent e n) {c : Char} (hc : c ∈ e) :
    r.IsChar c := by
  cases he with
  | none => cases hc
  | mk hmark hsign hds =>
    rcases List.mem_cons.mp hc with rfl | hc
    · exact .inr (.inr (.inr (.inr hmark)))
    · rcases List.mem_append.mp hc with hc | hc
      · rcases hsign.mem hc with hc | hc
        · exact .inr (.inr (.inl hc))
        · exact .inr (.inr (.inr (.inl hc)))
      · exact .inl (Bool.or_eq_true_iff.mpr (.inl (hds.2 c hc)))

theorem Radix.IsChar.spec {r : Radix} (hr : r.Standard) {c : Char} (h : r.IsChar c) :
    c.toLower ≠ 'n' ∧ c.toLower ≠ 'x' ∧ Graph c := by
  rcases h with h | rfl | rfl | rfl | h
  · rcases Bool.or_eq_true_iff.mp h with hd | hd
    · obtain ⟨-, -, -, hn, -, hx⟩ := isDigit_plain hd
      simp only [Char.isDigit, Bool.and_eq_true, decide_eq_true_eq] at hd
      have hlo : 48 ≤ c.toNat := hd.1
      exact ⟨hn, hx, by unfold Graph; omega⟩
    · rw [Bool.and_eq_true, decide_eq_true_eq, decide_eq_true_eq] at hd
      have hlo : 97 ≤ c.toLower.toNat := hd.1
      have hhi : c.toLower.toNat ≤ 102 := hd.2
      refine ⟨?_, ?_, graph_of_toLower (by unfold Graph; omega)⟩ <;>
      · intro he
        rw [he] at hhi
        revert hhi
        decide
  · decide
  · decide
  · decide
  · rcases hr with rfl | rfl <;> exact ⟨by rw [h]; decide, by rw [h]; decide, graph_of_toLower (by rw [h]; decide)⟩

theorem Radix.Unsigned.chars {r : Radix} (hr : r.Standard) {w : List Char} {q : ℚ} (hw : r.Unsigned w q) {c : Char}
    (hc : c ∈ w) : c.toLower ≠ 'n' ∧ c.toLower ≠ 'x' ∧ Graph c := by
  obtain ⟨hm, he⟩ := hw
  rcases List.mem_append.mp hc with hc | hc
  · exact (hm.chars hr hc).spec hr
  · exact (he.chars hc).spec hr

theorem Radix.Mantissa.head {r : Radix} (hr : r.Standard) {m : List Char} {q : ℚ} (hm : r.Mantissa m q) :
    ∃ c tail, m = c :: tail ∧ c ≠ '-' ∧ c ≠ '+' := by
  cases hm with
  | whole hint =>
    obtain ⟨d, ds, rfl⟩ := List.exists_cons_of_ne_nil hint.1
    obtain ⟨-, hminus, hplus, -, -⟩ := hr.plain (hint.2 d (by simp))
    exact ⟨d, ds, rfl, hminus, hplus⟩
  | @point int frac hint hfrac hne =>
    cases int with
    | nil => exact ⟨'.', frac, rfl, by decide, by decide⟩
    | cons d ds =>
      obtain ⟨-, hminus, hplus, -, -⟩ := hr.plain (hint d (by simp))
      exact ⟨d, ds ++ '.' :: frac, rfl, hminus, hplus⟩

theorem Radix.Unsigned.head {r : Radix} (hr : r.Standard) {w : List Char} {q : ℚ} (hw : r.Unsigned w q) :
    ∃ c tail, w = c :: tail ∧ c ≠ '-' ∧ c ≠ '+' := by
  obtain ⟨hm, he⟩ := hw
  obtain ⟨c, tail, rfl, hc⟩ := hm.head hr
  exact ⟨c, _, rfl, hc⟩

theorem Radix.Exponent.head {r : Radix} (hr : r.Standard) {e : List Char} {n : ℤ} (he : r.Exponent e n) :
    ∀ c ∈ e.head?, r.isDigit c = false ∧ c ≠ '.' := by
  cases he with
  | none => simp
  | mk hmark hsign hds =>
    intro c hc
    obtain rfl := Option.some.inj hc
    exact hr.mark hmark

theorem scanMantissa_append {r : Radix} (hr : r.Standard) {m e : List Char} {q : ℚ} (hm : r.Mantissa m q)
    (he : ∀ c ∈ e.head?, r.isDigit c = false ∧ c ≠ '.') : r.scanMantissa (m ++ e) = some (q, e) := by
  have hstop : ∀ c ∈ e.head?, r.isDigit c = false := fun c hc => (he c hc).1
  unfold Radix.scanMantissa
  cases hm with
  | whole hint =>
    rw [span_append hint.2 hstop]
    dsimp only
    split
    · exact absurd rfl (he '.' rfl).2
    · rw [if_neg (by simpa using hint.1)]
      simp
  | @point int frac hint hfrac hne =>
    have hpoint : ∀ c ∈ ('.' :: (frac ++ e)).head?, r.isDigit c = false := by
      intro c hc
      obtain rfl := Option.some.inj hc
      exact hr.point
    rw [List.append_assoc, List.cons_append, span_append hint hpoint]
    simp only [span_append hfrac hstop]
    rw [if_neg (by simpa [List.isEmpty_iff] using hne)]

theorem scanExponent_whole {r : Radix} {e : List Char} {n : ℤ} (he : r.Exponent e n) :
    r.scanExponent e = some (n, []) := by
  cases he with
  | none => rfl
  | @mk mark sign ds neg hmark hsign hds =>
    have hds' : ∀ c ∈ ds.head?, c ≠ '-' ∧ c ≠ '+' := by
      intro c hc
      obtain ⟨-, hminus, hplus, -⟩ := standard_decimal.plain (hds.2 c (List.mem_of_mem_head? hc))
      exact ⟨hminus, hplus⟩
    have hspan : (ds ++ []).span Char.isDigit = (ds, []) := span_append hds.2 (by simp)
    rw [List.append_nil] at hspan
    unfold Radix.scanExponent
    dsimp only
    rw [if_pos hmark, scanSign_append hsign hds']
    dsimp only
    rw [hspan]
    dsimp only
    rw [if_neg (by simpa using hds.1)]

theorem whole_complete {r : Radix} (hr : r.Standard) {w : List Char} {q : ℚ} (hw : r.Unsigned w q) :
    r.whole w = some q := by
  obtain ⟨hm, he⟩ := hw
  unfold Radix.whole Radix.scan
  simp only [Option.bind_eq_bind, scanMantissa_append hr hm (he.head hr), Option.bind_some,
    scanExponent_whole he, pure]

theorem afterWord_append {word w : List Char} (hw : IsWord word w) (rest : List Char) :
    afterWord word (w ++ rest) = some rest := by
  have hlen : word.length = w.length := by
    rw [← hw, List.length_map]
  unfold afterWord
  rw [hlen, List.take_left, List.drop_left]
  exact if_pos hw

theorem afterWord_eq_none {word cs : List Char} {d : Char} (hd : d ∈ word) (hcs : ∀ c ∈ cs, c.toLower ≠ d) :
    afterWord word cs = none := by
  cases h : afterWord word cs with
  | none => rfl
  | some rest =>
    obtain ⟨w, hw, rfl⟩ := afterWord_sound h
    exact absurd hw (IsWord.not hd fun c hc => hcs c (List.mem_append_left _ hc))

theorem IsWord.head {d : Char} {word w : List Char} (hw : IsWord (d :: word) w) (hd : d ≠ '-' ∧ d ≠ '+')
    (rest : List Char) : ∀ c ∈ (w ++ rest).head?, c.toLower = d ∧ c ≠ '-' ∧ c ≠ '+' := by
  intro c hc
  cases w with
  | nil => cases hw
  | cons a w =>
    obtain rfl : a = c := by simpa using hc
    obtain ⟨rfl, -⟩ := List.cons.inj hw
    refine ⟨rfl, ?_, ?_⟩ <;> rintro rfl
    · exact hd.1 rfl
    · exact hd.2 rfl

theorem not_infinity {cs : List Char} (h : ∀ c ∈ cs, c.toLower ≠ 'n') :
    ¬ (IsWord wordInf cs ∨ IsWord wordInfinity cs) :=
  not_or.mpr ⟨IsWord.not (by decide) h, IsWord.not (by decide) h⟩

theorem numeral?_complete {round : ℚ → Double} {cs : List Char} {x : Double} (h : Numeral round cs x) :
    numeral? round cs = some x := by
  unfold numeral?
  cases h with
  | @decimal sign w neg q hsign hw =>
    obtain ⟨c, tail, hcons, hc⟩ := hw.head standard_decimal
    have hchars := fun c hc => hw.chars standard_decimal (c := c) hc
    have hn : ∀ c ∈ w, c.toLower ≠ 'n' := fun c hc => (hchars c hc).1
    rw [scanSign_append hsign (by simpa [hcons] using hc)]
    dsimp only
    rw [if_neg (not_infinity hn), afterWord_eq_none (by decide) hn,
      afterWord_eq_none (d := 'x') (by decide) fun c hc => (hchars c hc).2.1]
    dsimp only
    rw [whole_complete standard_decimal hw, Option.map_some]
  | @hexadecimal sign pre w neg q hsign hpre hw =>
    have hn : ∀ c ∈ pre ++ w, c.toLower ≠ 'n' := by
      intro c hc
      rcases List.mem_append.mp hc with hc | hc
      · intro he
        have hmem := hpre.mem hc
        rw [he] at hmem
        revert hmem
        decide
      · exact (hw.chars standard_hexadecimal hc).1
    rw [scanSign_append hsign fun c hc => (hpre.head (by decide) w c hc).2]
    dsimp only
    rw [if_neg (not_infinity hn), afterWord_eq_none (by decide) hn, afterWord_append hpre]
    dsimp only
    rw [whole_complete standard_hexadecimal hw, Option.map_some]
  | @infinity sign w neg hsign hw =>
    have hhead : ∀ c ∈ w.head?, c ≠ '-' ∧ c ≠ '+' := by
      intro c hc
      rw [← List.append_nil w] at hc
      rcases hw with hw | hw
      · exact (hw.head (by decide) [] c hc).2
      · exact (hw.head (by decide) [] c hc).2
    rw [scanSign_append hsign hhead]
    dsimp only
    exact if_pos hw
  | @nan sign w seq neg hsign hw hseq =>
    have hinf : ¬ (IsWord wordInf (w ++ seq) ∨ IsWord wordInfinity (w ++ seq)) := by
      have hhead := hw.head (by decide) seq
      cases hcons : w ++ seq with
      | nil => simp [IsWord, wordInf, wordInfinity]
      | cons c tail =>
        have hc := (hhead c (by rw [hcons]; rfl)).1
        simp [IsWord, wordInf, wordInfinity, hc]
    rw [scanSign_append hsign fun c hc => (hw.head (by decide) seq c hc).2]
    dsimp only
    rw [if_neg hinf, afterWord_append hw]
    dsimp only
    rw [if_pos ((isNanSeq_iff seq).mpr hseq)]

/-- **The grammar is decided.** -/
theorem numeral?_eq_some (round : ℚ → Double) (cs : List Char) (x : Double) :
    numeral? round cs = some x ↔ Numeral round cs x :=
  ⟨numeral?_sound, numeral?_complete⟩

theorem Numeral.graph {round : ℚ → Double} {cs : List Char} {x : Double} (h : Numeral round cs x) :
    cs ≠ [] ∧ ∀ c ∈ cs, Graph c := by
  have hsigns : ∀ {neg sign}, IsSign neg sign → ∀ c ∈ sign, Graph c := by
    intro neg sign hsign c hc
    rcases hsign.mem hc with rfl | rfl <;> decide
  have hword : ∀ {word w}, word.all (Graph ·) = true → IsWord word w → ∀ c ∈ w, Graph c := by
    intro word w hword hw c hc
    rw [List.all_eq_true] at hword
    exact graph_of_toLower (of_decide_eq_true (hword _ (hw.mem hc)))
  have hne : ∀ {d word w}, IsWord (d :: word) w → w ≠ [] := by
    rintro d word w hw rfl
    cases hw
  cases h with
  | decimal hsign hw =>
    obtain ⟨c, tail, rfl, -⟩ := hw.head standard_decimal
    refine ⟨by simp, fun c hc => ?_⟩
    rcases List.mem_append.mp hc with hc | hc
    · exact hsigns hsign c hc
    · exact (hw.chars standard_decimal hc).2.2
  | hexadecimal hsign hpre hw =>
    refine ⟨by simp [hne hpre], fun c hc => ?_⟩
    rcases List.mem_append.mp hc with hc | hc
    · exact hsigns hsign c hc
    rcases List.mem_append.mp hc with hc | hc
    · exact hword rfl hpre c hc
    · exact (hw.chars standard_hexadecimal hc).2.2
  | infinity hsign hw =>
    rcases hw with hw | hw
    all_goals
      refine ⟨by simp [hne hw], fun c hc => ?_⟩
      rcases List.mem_append.mp hc with hc | hc
      · exact hsigns hsign c hc
      · exact hword rfl hw c hc
  | nan hsign hw hseq =>
    refine ⟨by simp [hne hw], fun c hc => ?_⟩
    rcases List.mem_append.mp hc with hc | hc
    · exact hsigns hsign c hc
    rcases List.mem_append.mp hc with hc | hc
    · exact hword rfl hw c hc
    · exact hseq.graph c hc

/-! ## The longest one -/

theorem longest_some {α : Type} {p : List Char → Option α} {cs rest : List Char} {x : α} {n : Nat}
    (hn : n ≤ cs.length) (h : longest p cs n = some (x, rest)) : ∃ w, w ≠ [] ∧ cs = w ++ rest ∧ p w = some x := by
  induction n with
  | zero => cases h
  | succ n ih =>
    unfold longest at h
    cases hp : p (cs.take (n + 1)) with
    | some y =>
      simp only [hp] at h
      obtain ⟨rfl, rfl⟩ := Prod.mk.inj (Option.some.inj h)
      refine ⟨cs.take (n + 1), ?_, (List.take_append_drop ..).symm, hp⟩
      apply List.ne_nil_of_length_pos
      rw [List.length_take]
      omega
    | none =>
      simp only [hp] at h
      exact ih (by omega) h

theorem longest_append {α : Type} {p : List Char → Option α} {w rest : List Char} {x : α} (hw : p w = some x)
    (hne : w ≠ []) (hlonger : ∀ v, v ≠ [] → v <+: rest → p (w ++ v) = none) {n : Nat} (hlo : w.length ≤ n)
    (hhi : n ≤ (w ++ rest).length) : longest p (w ++ rest) n = some (x, rest) := by
  induction n with
  | zero => exact absurd (List.length_eq_zero_iff.mp (by omega)) hne
  | succ n ih =>
    unfold longest
    rcases Nat.lt_or_ge n w.length with hlt | hge
    · have hlen : n + 1 = w.length := by omega
      rw [hlen, List.take_left, List.drop_left, hw]
    · have htake : (w ++ rest).take (n + 1) = w ++ rest.take (n + 1 - w.length) := by
        rw [List.take_append, List.take_of_length_le (by omega)]
      have hnil : rest.take (n + 1 - w.length) ≠ [] := by
        rw [List.length_append] at hhi
        apply List.ne_nil_of_length_pos
        rw [List.length_take]
        omega
      have hpre : rest.take (n + 1 - w.length) <+: rest := List.take_prefix ..
      rw [htake, hlonger _ hnil hpre]
      exact ih hge (by omega)

def Padded (round : ℚ → Double) (s : List Char) (x : Double) : Prop :=
  ∃ space w space', s = space ++ (w ++ space') ∧ (∀ c ∈ space, isSpace c = true) ∧
    (∀ c ∈ space', isSpace c = true) ∧ Numeral round w x

theorem strtod_padded {round : ℚ → Double} {space w rest : List Char} {x : Double}
    (hspace : ∀ c ∈ space, isSpace c = true) (hrest : ∀ c ∈ rest, isSpace c = true) (h : Numeral round w x) :
    strtod round (space ++ (w ++ rest)) = (x, rest) := by
  obtain ⟨hne, hgraph⟩ := h.graph
  have hhead : ∀ c ∈ (w ++ rest).head?, isSpace c = false := by
    intro c hc
    rw [List.head?_append_of_ne_nil _ hne] at hc
    exact (hgraph c (List.mem_of_mem_head? hc)).plain.1
  have hlonger : ∀ v, v ≠ [] → v <+: rest → numeral? round (w ++ v) = none := by
    intro v hv hpre
    obtain ⟨c, tail, rfl⟩ := List.exists_cons_of_ne_nil hv
    cases hnum : numeral? round (w ++ c :: tail) with
    | none => rfl
    | some y =>
      have hc := (((numeral?_eq_some ..).mp hnum).graph.2 c (by simp)).plain.1
      rw [hrest c (hpre.subset (by simp))] at hc
      cases hc
  unfold strtod
  rw [skipSpace_append hspace hhead]
  dsimp only
  rw [longest_append ((numeral?_eq_some ..).mpr h) hne hlonger (by simp) (le_refl _), Option.getD_some]

theorem strtod_sound {round : ℚ → Double} {s rest : List Char} {x : Double} (h : strtod round s = (x, rest)) :
    rest = s ∨ ∃ space w, s = space ++ (w ++ rest) ∧ (∀ c ∈ space, isSpace c = true) ∧ Numeral round w x := by
  unfold strtod at h
  dsimp only at h
  cases hlong : longest (numeral? round) (skipSpace s) (skipSpace s).length with
  | none =>
    rw [hlong, Option.getD_none] at h
    exact .inl (Prod.mk.inj h).2.symm
  | some y =>
    rw [hlong, Option.getD_some] at h
    subst h
    obtain ⟨w, -, hw, hnum⟩ := longest_some (le_refl _) hlong
    obtain ⟨space, hspace, hs⟩ := skipSpace_split s
    rw [hw] at hs
    exact .inr ⟨space, w, hs, hspace, (numeral?_eq_some ..).mp hnum⟩

/-- **A whole string.** All of it but white space is read just when it is a numeral between white space. -/
theorem strtod_whole (round : ℚ → Double) (s : List Char) (x : Double) :
    (∃ rest, strtod round s = (x, rest) ∧ rest ≠ s ∧ skipSpace rest = []) ↔ Padded round s x := by
  constructor
  · rintro ⟨rest, h, hne, hrest⟩
    rcases strtod_sound h with hs | ⟨space, w, rfl, hspace, hw⟩
    · exact absurd hs hne
    · obtain ⟨space', hspace', hs'⟩ := skipSpace_split rest
      rw [hrest, List.append_nil] at hs'
      subst hs'
      exact ⟨space, w, rest, rfl, hspace, hspace', hw⟩
  · rintro ⟨space, w, space', rfl, hspace, hspace', hw⟩
    refine ⟨space', strtod_padded hspace hspace' hw, ?_, ?_⟩
    · intro heq
      have hlen := congrArg List.length heq
      have := List.length_pos_of_ne_nil hw.graph.1
      rw [List.length_append, List.length_append] at hlen
      omega
    · exact List.dropWhile_eq_nil_iff.mpr hspace'

theorem Padded.unique {round : ℚ → Double} {s : List Char} {x y : Double} (hx : Padded round s x)
    (hy : Padded round s y) : x = y := by
  obtain ⟨rest, hx, -⟩ := (strtod_whole round s x).mpr hx
  obtain ⟨rest', hy, -⟩ := (strtod_whole round s y).mpr hy
  rw [hx] at hy
  exact (Prod.mk.inj hy).1

theorem Padded.no_nul {round : ℚ → Double} {s : List Char} {x : Double} (h : Padded round s x) : '\x00' ∉ s := by
  obtain ⟨space, w, space', rfl, hspace, hspace', hw⟩ := h
  simp only [List.mem_append, not_or]
  refine ⟨fun hc => ?_, fun hc => (hw.graph.2 _ hc).plain.2 rfl, fun hc => ?_⟩
  · exact absurd (hspace _ hc) (by decide)
  · exact absurd (hspace' _ hc) (by decide)

end Uvrgw.Lib
