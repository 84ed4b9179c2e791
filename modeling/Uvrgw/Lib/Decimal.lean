import Mathlib.Data.Rat.Floor
import Mathlib.Tactic.FieldSimp
import Mathlib.Tactic.IntervalCases
import Mathlib.Tactic.Linarith
import Mathlib.Tactic.Ring
import Uvrgw.Lib.Lists
import Uvrgw.Number

/-!
# Decimal text

`printf("%.kf")` and `scanf("%lf")` for exact rationals. Scanning accepts more than printing writes; the
result of this module is that it reads back what was printed.
-/

namespace Uvrgw.Lib

/-! ## Rounding -/

/-- The nearest integer, the even one of two. -/
def roundHalfEven (q : ℚ) : ℤ :=
  if q - ⌊q⌋ < 1 / 2 then ⌊q⌋
  else if 1 / 2 < q - ⌊q⌋ then ⌊q⌋ + 1
  else if ⌊q⌋ % 2 = 0 then ⌊q⌋ else ⌊q⌋ + 1

theorem roundHalfEven_near (q : ℚ) : |(roundHalfEven q : ℚ) - q| ≤ 1 / 2 := by
  have hlo := Int.floor_le q
  have hhi := Int.lt_floor_add_one q
  unfold roundHalfEven
  rw [abs_le]
  split_ifs <;> push_cast <;> constructor <;> linarith

theorem roundHalfEven_nonneg {q : ℚ} (h : 0 ≤ q) : 0 ≤ roundHalfEven q := by
  have hfloor : 0 ≤ ⌊q⌋ := Int.floor_nonneg.mpr h
  unfold roundHalfEven
  split_ifs <;> omega

def toFixed (k : Nat) (q : ℚ) : ℚ := roundHalfEven (q * 10 ^ k) / 10 ^ k

theorem toFixed_near (k : Nat) (q : ℚ) : |toFixed k q - q| ≤ 1 / 2 / 10 ^ k := by
  have hpos : (0 : ℚ) < 10 ^ k := by positivity
  have heq : toFixed k q - q = (roundHalfEven (q * 10 ^ k) - q * 10 ^ k) / 10 ^ k := by
    unfold toFixed
    field_simp
  rw [heq, abs_div, abs_of_pos hpos, div_le_div_iff_of_pos_right hpos]
  exact roundHalfEven_near _

theorem toFixed_nonneg (k : Nat) {q : ℚ} (h : 0 ≤ q) : 0 ≤ toFixed k q := by
  unfold toFixed
  have := roundHalfEven_nonneg (q := q * 10 ^ k) (by positivity)
  have : (0 : ℚ) ≤ roundHalfEven (q * 10 ^ k) := by exact_mod_cast this
  positivity

/-! ## Printing -/

/-- `printf("%.kf")`. -/
def printFixed (k : Nat) (q : ℚ) : List Char :=
  let n := (roundHalfEven (|q| * 10 ^ k)).toNat
  (if q < 0 then ['-'] else []) ++ Nat.toDigits 10 (n / 10 ^ k) ++
    if k = 0 then [] else '.' :: (Nat.toDigits 10 (n % 10 ^ k)).leftpad k '0'

/-! ## Scanning -/

/-- `isspace`. -/
def isSpace (c : Char) : Bool := c == ' ' || ('\t' ≤ c && c ≤ '\r')

def skipSpace (cs : List Char) : List Char := cs.dropWhile isSpace

/-- How the digits and the exponent of a number are written. -/
structure Radix where
  base : Nat
  isDigit : Char → Bool
  digit : Char → Nat
  expMark : Char
  expBase : Nat

def decimal : Radix where
  base := 10
  isDigit := Char.isDigit
  digit c := c.toNat - '0'.toNat
  expMark := 'e'
  expBase := 10

def hexadecimal : Radix where
  base := 16
  isDigit c := c.isDigit || ('a' ≤ c.toLower && c.toLower ≤ 'f')
  digit c := if c.isDigit then c.toNat - '0'.toNat else c.toLower.toNat - 'a'.toNat + 10
  expMark := 'p'
  expBase := 2

def Radix.value (r : Radix) (ds : List Char) : Nat := ds.foldl (fun n c => r.base * n + r.digit c) 0

/-- The sign, true for minus, and the rest. -/
def scanSign : List Char → Bool × List Char
  | '-' :: cs => (true, cs)
  | '+' :: cs => (false, cs)
  | cs => (false, cs)

/-- Digits with an optional point. -/
def Radix.scanMantissa (r : Radix) (cs : List Char) : Option (ℚ × List Char) :=
  let (int, cs) := cs.span r.isDigit
  let (frac, cs) :=
    match cs with
    | '.' :: cs => cs.span r.isDigit
    | cs => ([], cs)
  if int.isEmpty && frac.isEmpty then none
  else some (r.value (int ++ frac) / r.base ^ frac.length, cs)

/-- An optional exponent; the mark alone is no number. -/
def Radix.scanExponent (r : Radix) : List Char → Option (ℤ × List Char)
  | [] => some (0, [])
  | c :: cs =>
    if c.toLower = r.expMark then
      let (neg, cs) := scanSign cs
      let (ds, cs) := cs.span Char.isDigit
      if ds.isEmpty then none else some ((if neg then -1 else 1) * decimal.value ds, cs)
    else some (0, c :: cs)

def Radix.scan (r : Radix) (cs : List Char) : Option (ℚ × List Char) := do
  let (mantissa, cs) ← r.scanMantissa cs
  let (exponent, cs) ← r.scanExponent cs
  return (mantissa * (r.expBase : ℚ) ^ exponent, cs)

/-- What follows a word, whose letters may be capitals. -/
def afterWord (word cs : List Char) : Option (List Char) :=
  if (cs.take word.length).map Char.toLower = word then some (cs.drop word.length) else none

/-- `scanf("%lf")`: the number and the rest, `none` for a matching failure. -/
def scanNumber (cs : List Char) : Option (Double × List Char) :=
  let (neg, cs) := scanSign (skipSpace cs)
  let signed := fun ((q, cs) : ℚ × List Char) => (Double.fin (if neg then -q else q), cs)
  match afterWord ['n', 'a', 'n'] cs, afterWord ['i', 'n', 'f', 'i', 'n', 'i', 't', 'y'] cs,
    afterWord ['i', 'n', 'f'] cs, afterWord ['0', 'x'] cs with
  | some cs, _, _, _ => some (.nan, cs)
  | none, some cs, _, _ => some (.inf neg, cs)
  | none, none, some cs, _ => if (afterWord ['i'] cs).isSome then none else some (.inf neg, cs)
  | none, none, none, some cs => (hexadecimal.scan cs).map signed
  | none, none, none, none => (decimal.scan cs).map signed

/-! ## Reading back what was printed -/

theorem value_append (ds es : List Char) :
    decimal.value (ds ++ es) = 10 ^ es.length * decimal.value ds + decimal.value es := by
  have h : ∀ l, decimal.value l = Nat.ofDigitChars 10 l 0 := fun _ => rfl
  rw [h, h, h, Nat.ofDigitChars_append, Nat.ofDigitChars_eq_ofDigitChars_zero]

theorem value_toDigits (n : Nat) : decimal.value (Nat.toDigits 10 n) = n := Nat.ofDigitChars_ten_toDigits

theorem isDigit_toDigits {n : Nat} {c : Char} (h : c ∈ Nat.toDigits 10 n) : c.isDigit = true :=
  Nat.isDigit_of_mem_toDigits (by omega) (by omega) h

theorem leftpad_spec {k n : Nat} (hk : 0 < k) (hn : n < 10 ^ k) :
    ((Nat.toDigits 10 n).leftpad k '0').length = k ∧
      decimal.value ((Nat.toDigits 10 n).leftpad k '0') = n ∧
      ∀ c ∈ (Nat.toDigits 10 n).leftpad k '0', c.isDigit = true := by
  have hlen : (Nat.toDigits 10 n).length ≤ k := (Nat.length_toDigits_le_iff (by omega) hk).mpr hn
  refine ⟨?_, ?_, fun c hc => ?_⟩
  · rw [List.length_leftpad]
    omega
  · unfold List.leftpad
    rw [value_append, value_toDigits]
    have hzero : decimal.value (List.replicate (k - (Nat.toDigits 10 n).length) '0') = 0 :=
      Nat.ofDigitChars_replicate_zero
    rw [hzero]
    omega
  · unfold List.leftpad at hc
    rcases List.mem_append.mp hc with hc | hc
    · rw [List.eq_of_mem_replicate hc]
      rfl
    · exact isDigit_toDigits hc

/-- A digit starts neither white space nor a sign nor a word. -/
theorem isDigit_plain {c : Char} (h : c.isDigit = true) :
    isSpace c = false ∧ c ≠ '-' ∧ c ≠ '+' ∧ c.toLower ≠ 'n' ∧ c.toLower ≠ 'i' ∧ c.toLower ≠ 'x' := by
  simp only [Char.isDigit, Bool.and_eq_true, decide_eq_true_eq] at h
  have hlo : 48 ≤ c.toNat := h.1
  have hhi : c.toNat ≤ 57 := h.2
  rw [← Char.ofNat_toNat c]
  interval_cases c.toNat <;> decide

theorem afterWord_none {w c : Char} {word cs : List Char} (h : c.toLower ≠ w) :
    afterWord (w :: word) (c :: cs) = none := by
  unfold afterWord
  rw [if_neg]
  simp [h]

theorem afterWord_hex_none {c d : Char} {cs : List Char} (h : d.toLower ≠ 'x') :
    afterWord ['0', 'x'] (c :: d :: cs) = none := by
  unfold afterWord
  rw [if_neg]
  simp [h]

theorem scanNumber_decimal {c d : Char} {cs : List Char} (hc : c.isDigit = true) (hd : d.toLower ≠ 'x') :
    scanNumber (c :: d :: cs) = (decimal.scan (c :: d :: cs)).map fun r => (.fin r.1, r.2) := by
  obtain ⟨hspace, hminus, hplus, hn, hi, -⟩ := isDigit_plain hc
  have hskip : skipSpace (c :: d :: cs) = c :: d :: cs := by
    unfold skipSpace
    rw [List.dropWhile_cons_of_neg (by simp [hspace])]
  have hsign : scanSign (c :: d :: cs) = (false, c :: d :: cs) := by
    unfold scanSign
    split
    · rename_i heq
      exact absurd (List.cons.inj heq).1 hminus
    · rename_i heq
      exact absurd (List.cons.inj heq).1 hplus
    · rfl
  unfold scanNumber
  simp only [hskip, hsign, afterWord_none hn, afterWord_none hi, afterWord_hex_none hd]
  rfl

/-- Digits, a point and digits, up to a character that does not continue the number. -/
theorem scan_decimal {int frac rest : List Char} (hint : ∀ c ∈ int, c.isDigit = true) (hne : int ≠ [])
    (hfrac : ∀ c ∈ frac, c.isDigit = true)
    (hrest : ∀ c ∈ rest.head?, c.isDigit = false ∧ c.toLower ≠ 'e') :
    decimal.scan (int ++ '.' :: (frac ++ rest)) =
      some ((decimal.value (int ++ frac) : ℚ) / 10 ^ frac.length, rest) := by
  have hspan : (int ++ '.' :: (frac ++ rest)).span decimal.isDigit = (int, '.' :: (frac ++ rest)) :=
    span_append hint (by simp [decimal])
  have hspan' : (frac ++ rest).span decimal.isDigit = (frac, rest) :=
    span_append hfrac fun c hc => (hrest c hc).1
  have hexp : decimal.scanExponent rest = some (0, rest) := by
    unfold Radix.scanExponent
    cases rest with
    | nil => rfl
    | cons c rest =>
      have : c.toLower ≠ decimal.expMark := (hrest c rfl).2
      simp only [this, if_false]
  have hmantissa : decimal.scanMantissa (int ++ '.' :: (frac ++ rest)) =
      some ((decimal.value (int ++ frac) : ℚ) / 10 ^ frac.length, rest) := by
    unfold Radix.scanMantissa
    simp only [hspan, hspan']
    rw [if_neg (by simp [hne])]
    rfl
  unfold Radix.scan
  rw [hmantissa]
  simp only [Option.bind_eq_bind, Option.bind_some, hexp, zpow_zero, mul_one, pure]

theorem printFixed_nonneg {k n : Nat} {q : ℚ} (hk : 0 < k) (hq : 0 ≤ q)
    (hn : roundHalfEven (q * 10 ^ k) = n) :
    printFixed k q = Nat.toDigits 10 (n / 10 ^ k) ++ '.' :: (Nat.toDigits 10 (n % 10 ^ k)).leftpad k '0' := by
  unfold printFixed
  simp [abs_of_nonneg hq, hn, not_lt.mpr hq, show k ≠ 0 by omega]

/-- **Round trip.** A printed number is read back as the number with `k` decimals. -/
theorem scanNumber_printFixed {k : Nat} {q : ℚ} (rest : List Char) (hk : 0 < k) (hq : 0 ≤ q)
    (hrest : ∀ c ∈ rest.head?, c.isDigit = false ∧ c.toLower ≠ 'e') :
    scanNumber (printFixed k q ++ rest) = some (.fin (toFixed k q), rest) := by
  obtain ⟨n, hn⟩ := Int.eq_ofNat_of_zero_le (roundHalfEven_nonneg (q := q * 10 ^ k) (by positivity))
  obtain ⟨hlen, hvalue, hfrac⟩ := leftpad_spec hk (Nat.mod_lt n (show 0 < 10 ^ k by positivity))
  have hint : ∀ c ∈ Nat.toDigits 10 (n / 10 ^ k), c.isDigit = true := fun c hc => isDigit_toDigits hc
  have hscan := scan_decimal hint Nat.toDigits_ne_nil hfrac hrest
  rw [value_append, value_toDigits, hlen, hvalue, Nat.div_add_mod] at hscan
  rw [printFixed_nonneg hk hq hn, toFixed, hn, List.append_assoc, List.cons_append]
  have hne := Nat.toDigits_ne_nil (n := n / 10 ^ k) (b := 10)
  generalize Nat.toDigits 10 (n / 10 ^ k) = int at hscan hint hne ⊢
  -- the second character is the point or a digit, so this is no hexadecimal number
  rcases int with _ | ⟨c, _ | ⟨d, int⟩⟩
  · exact absurd rfl hne
  · rw [List.cons_append, List.nil_append] at hscan ⊢
    rw [scanNumber_decimal (hint c (by simp)) (by decide), hscan]
    rfl
  · rw [List.cons_append, List.cons_append] at hscan ⊢
    have hd := isDigit_plain (hint d (by simp))
    rw [scanNumber_decimal (hint c (by simp)) hd.2.2.2.2.2, hscan]
    rfl

theorem scanNumber_space {c : Char} {cs : List Char} (h : isSpace c = true) :
    scanNumber (c :: cs) = scanNumber cs := by
  have hskip : skipSpace (c :: cs) = skipSpace cs := List.dropWhile_cons_of_pos h
  unfold scanNumber
  rw [hskip]

end Uvrgw.Lib
