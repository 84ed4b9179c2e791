import Mathlib.Data.List.TakeWhile
import Uvrgw.Lib.Decimal

/-!
# `strtol`

The function and the words that it reads: they are more than the plain digit strings, and a result that is
stored in an `int` loses its high bits.
-/

namespace Uvrgw.Lib

/-! ## The function -/

/-- The limits of a `long`. -/
def toLong (n : Int) : Int := max (-2 ^ 63) (min n (2 ^ 63 - 1))

/-- The conversion from `long` to `int`. -/
def toInt (n : Int) : Int := Int.bmod n (2 ^ 32)

/-- With base 16 a number may start with `0x`. -/
def Radix.dropPrefix (r : Radix) (cs : List Char) : List Char :=
  if r.base = 16 then
    match afterWord ['0', 'x'] cs with
    | some (c :: rest) => if r.isDigit c then c :: rest else cs
    | _ => cs
  else cs

def Radix.signed (r : Radix) (neg : Bool) (ds : List Char) : Int := if neg then -r.value ds else r.value ds

/-- `strtol`: the number and the rest; without digits this is the whole string. -/
def strtol (r : Radix) (s : List Char) : Int × List Char :=
  let (neg, cs) := scanSign (skipSpace s)
  let (ds, rest) := (r.dropPrefix cs).span r.isDigit
  if ds.isEmpty then (0, s) else (toLong (r.signed neg ds), rest)

/-! ## Words -/

def IsSign : Bool → List Char → Prop
  | true, sign => sign = ['-']
  | false, sign => sign = [] ∨ sign = ['+']

def Radix.IsPrefix (r : Radix) (pre : List Char) : Prop :=
  pre = [] ∨ r.base = 16 ∧ (pre = ['0', 'x'] ∨ pre = ['0', 'X'])

def Radix.IsDigits (r : Radix) (ds : List Char) : Prop := ds ≠ [] ∧ ∀ c ∈ ds, r.isDigit c = true

/-- A word that `strtol` reads, and its number. -/
inductive Radix.Word (r : Radix) : List Char → Int → Prop
  | mk (space sign pre ds : List Char) (neg : Bool) (hspace : ∀ c ∈ space, isSpace c = true)
      (hsign : IsSign neg sign) (hpre : r.IsPrefix pre) (hds : r.IsDigits ds) :
      Radix.Word r (space ++ (sign ++ (pre ++ ds))) (r.signed neg ds)

/-- The two bases that are used. -/
def Radix.Standard (r : Radix) : Prop := r = decimal ∨ r = hexadecimal

theorem isSpace_cases {c : Char} (h : isSpace c = true) :
    c = ' ' ∨ c = '\t' ∨ c = '\n' ∨ c = '\x0b' ∨ c = '\x0c' ∨ c = '\r' := by
  simp only [isSpace, Bool.or_eq_true, beq_iff_eq, Bool.and_eq_true, decide_eq_true_eq] at h
  rcases h with rfl | ⟨hlo, hhi⟩
  · exact .inl rfl
  · have hlo : 9 ≤ c.toNat := hlo
    have hhi : c.toNat ≤ 13 := hhi
    rw [← Char.ofNat_toNat c]
    interval_cases c.toNat <;> decide

/-- A digit starts neither white space nor a sign nor a prefix. -/
theorem Radix.Standard.plain {r : Radix} (hr : r.Standard) {c : Char} (h : r.isDigit c = true) :
    isSpace c = false ∧ c ≠ '-' ∧ c ≠ '+' ∧ c.toLower ≠ 'x' ∧ c ≠ ':' := by
  have hhex : hexadecimal.isDigit c = true := by
    rcases hr with rfl | rfl
    · exact Bool.or_eq_true_iff.mpr (.inl h)
    · exact h
  have hne : ∀ d, hexadecimal.isDigit d = false → c ≠ d := by
    rintro d hd rfl
    rw [hd] at hhex
    cases hhex
  refine ⟨?_, hne '-' rfl, hne '+' rfl, ?_, hne ':' rfl⟩
  · by_contra hs
    rcases isSpace_cases (by simpa using hs) with rfl | rfl | rfl | rfl | rfl | rfl <;> revert hhex <;> decide
  · intro hx
    simp only [hexadecimal, hx, Bool.or_eq_true, Bool.and_eq_true, decide_eq_true_eq] at hhex
    rcases hhex with hd | ⟨-, hd⟩
    · exact (isDigit_plain hd).2.2.2.2.2 hx
    · revert hd
      decide

/-! ## What is read -/

/-- The rest does not continue a number. -/
def Radix.Stops (r : Radix) (rest : List Char) : Prop :=
  ∀ c ∈ rest.head?, r.isDigit c = false ∧ c.toLower ≠ 'x'

theorem Radix.stops_nil {r : Radix} : r.Stops [] := by simp [Radix.Stops]

theorem skipSpace_append {space cs : List Char} (hspace : ∀ c ∈ space, isSpace c = true)
    (hcs : ∀ c ∈ cs.head?, isSpace c = false) : skipSpace (space ++ cs) = cs := by
  unfold skipSpace
  rw [List.dropWhile_append_of_pos hspace]
  cases cs with
  | nil => rfl
  | cons c cs => exact List.dropWhile_cons_of_neg (by simp [hcs c rfl])

theorem scanSign_append {neg : Bool} {sign cs : List Char} (hsign : IsSign neg sign)
    (hcs : ∀ c ∈ cs.head?, c ≠ '-' ∧ c ≠ '+') : scanSign (sign ++ cs) = (neg, cs) := by
  have hnone : scanSign cs = (false, cs) := by
    unfold scanSign
    split
    · exact absurd rfl (hcs '-' rfl).1
    · exact absurd rfl (hcs '+' rfl).2
    · rfl
  cases neg with
  | true =>
    obtain rfl := hsign
    rfl
  | false =>
    rcases hsign with rfl | rfl
    · exact hnone
    · rfl

theorem dropPrefix_append {r : Radix} (hr : r.Standard) {pre ds rest : List Char} (hpre : r.IsPrefix pre)
    (hds : r.IsDigits ds) (hrest : r.Stops rest) : r.dropPrefix (pre ++ (ds ++ rest)) = ds ++ rest := by
  obtain ⟨d, ds', rfl⟩ := List.exists_cons_of_ne_nil hds.1
  have hd := hds.2 d (by simp)
  unfold Radix.dropPrefix
  rcases hpre with rfl | ⟨hbase, hpre⟩
  · split
    · -- a digit string does not start with the letter of the prefix
      have hsecond : ∀ c ∈ (ds' ++ rest).head?, c.toLower ≠ 'x' := by
        intro c hc
        cases ds' with
        | nil => exact (hrest c hc).2
        | cons e ds' =>
          obtain rfl : e = c := by simpa using hc
          exact (hr.plain (hds.2 e (by simp))).2.2.2.1
      have hword : afterWord ['0', 'x'] (d :: (ds' ++ rest)) = none := by
        cases htail : ds' ++ rest with
        | nil =>
          unfold afterWord
          simp
        | cons c tail => exact afterWord_hex_none (hsecond c (by rw [htail]; rfl))
      rw [List.nil_append, List.cons_append, hword]
    · rfl
  · rw [if_pos hbase]
    have hword : afterWord ['0', 'x'] (pre ++ (d :: ds' ++ rest)) = some (d :: (ds' ++ rest)) := by
      rcases hpre with rfl | rfl <;> rfl
    rw [hword]
    dsimp only
    rw [if_pos hd, List.cons_append]

theorem strtol_word {r : Radix} (hr : r.Standard) {t rest : List Char} {n : Int} (h : r.Word t n)
    (hrest : r.Stops rest) : strtol r (t ++ rest) = (toLong n, rest) := by
  obtain ⟨space, sign, pre, ds, neg, hspace, hsign, hpre, hds⟩ := h
  obtain ⟨d, ds', rfl⟩ := List.exists_cons_of_ne_nil hds.1
  have hd := hr.plain (hds.2 d (by simp))
  -- behind the sign comes a digit, of the prefix or of the number
  have hbody : ∀ c ∈ (pre ++ (d :: ds' ++ rest)).head?, isSpace c = false ∧ c ≠ '-' ∧ c ≠ '+' := by
    intro c hc
    rcases hpre with rfl | ⟨-, rfl | rfl⟩
    · obtain rfl : d = c := by simpa using hc
      exact ⟨hd.1, hd.2.1, hd.2.2.1⟩
    all_goals
      obtain rfl : '0' = c := by simpa using hc
      decide
  have hsigned : ∀ c ∈ (sign ++ (pre ++ (d :: ds' ++ rest))).head?, isSpace c = false := by
    intro c hc
    cases neg with
    | true =>
      obtain rfl := hsign
      obtain rfl : '-' = c := by simpa using hc
      decide
    | false =>
      rcases hsign with rfl | rfl
      · exact (hbody c hc).1
      · obtain rfl : '+' = c := by simpa using hc
        decide
  have hassoc : space ++ (sign ++ (pre ++ d :: ds')) ++ rest = space ++ (sign ++ (pre ++ (d :: ds' ++ rest))) := by
    simp
  unfold strtol
  rw [hassoc, skipSpace_append hspace hsigned, scanSign_append hsign fun c hc => (hbody c hc).2]
  dsimp only
  rw [dropPrefix_append hr hpre hds hrest, span_append hds.2 fun c hc => (hrest c hc).1]
  rfl

theorem scanSign_split (cs : List Char) : ∃ sign, IsSign (scanSign cs).1 sign ∧ cs = sign ++ (scanSign cs).2 := by
  unfold scanSign
  split
  · exact ⟨['-'], rfl, rfl⟩
  · exact ⟨['+'], .inr rfl, rfl⟩
  · exact ⟨[], .inl rfl, rfl⟩

theorem toLower_cases (c : Char) : c.toLower = c ∨ 65 ≤ c.toNat ∧ c.toNat ≤ 90 := by
  unfold Char.toLower
  split
  · rename_i h
    exact .inr ⟨h.1, h.2⟩
  · exact .inl rfl

theorem toLower_zero {c : Char} (h : c.toLower = '0') : c = '0' := by
  rcases toLower_cases c with hc | ⟨hlo, hhi⟩
  · exact hc.symm.trans h
  · rw [← Char.ofNat_toNat c] at h ⊢
    interval_cases c.toNat <;> revert h <;> decide

theorem toLower_x {c : Char} (h : c.toLower = 'x') : c = 'x' ∨ c = 'X' := by
  rcases toLower_cases c with hc | ⟨hlo, hhi⟩
  · exact .inl (hc.symm.trans h)
  · rw [← Char.ofNat_toNat c] at h ⊢
    interval_cases c.toNat <;> revert h <;> decide

/-- The letters of `word`, in any case. -/
def IsWord (word w : List Char) : Prop := w.map Char.toLower = word

instance (word w : List Char) : Decidable (IsWord word w) := inferInstanceAs (Decidable (_ = _))

theorem afterWord_sound {word cs rest : List Char} (h : afterWord word cs = some rest) :
    ∃ w, IsWord word w ∧ cs = w ++ rest := by
  unfold afterWord at h
  split at h
  · rename_i hword
    obtain rfl := Option.some.inj h
    exact ⟨cs.take word.length, hword, (List.take_append_drop ..).symm⟩
  · cases h

theorem afterWord_hex {cs rest : List Char} (h : afterWord ['0', 'x'] cs = some rest) :
    ∃ pre, (pre = ['0', 'x'] ∨ pre = ['0', 'X']) ∧ cs = pre ++ rest := by
  obtain ⟨pre, hpre, rfl⟩ := afterWord_sound h
  rcases pre with _ | ⟨c, _ | ⟨d, _ | ⟨e, pre⟩⟩⟩
  · simp [IsWord] at hpre
  · simp [IsWord] at hpre
  · obtain ⟨hc, hd⟩ := List.cons.inj hpre
    obtain rfl := toLower_zero hc
    rcases toLower_x (List.cons.inj hd).1 with rfl | rfl
    · exact ⟨['0', 'x'], .inl rfl, rfl⟩
    · exact ⟨['0', 'X'], .inr rfl, rfl⟩
  · simp [IsWord] at hpre

theorem dropPrefix_split (r : Radix) (cs : List Char) : ∃ pre, r.IsPrefix pre ∧ cs = pre ++ r.dropPrefix cs := by
  unfold Radix.dropPrefix
  split
  · rename_i hbase
    split
    · rename_i c rest hword
      split
      · obtain ⟨pre, hpre, rfl⟩ := afterWord_hex hword
        exact ⟨pre, .inr ⟨hbase, hpre⟩, rfl⟩
      · exact ⟨[], .inl rfl, rfl⟩
    · exact ⟨[], .inl rfl, rfl⟩
  · exact ⟨[], .inl rfl, rfl⟩

theorem span_split (p : Char → Bool) (cs : List Char) :
    cs = (cs.span p).1 ++ (cs.span p).2 ∧ ∀ c ∈ (cs.span p).1, p c = true := by
  rw [List.span_eq_takeWhile_dropWhile]
  exact ⟨List.takeWhile_append_dropWhile.symm, fun c hc => List.mem_takeWhile_imp hc⟩

theorem skipSpace_split (cs : List Char) :
    ∃ space, (∀ c ∈ space, isSpace c = true) ∧ cs = space ++ skipSpace cs :=
  ⟨cs.takeWhile isSpace, fun _ hc => List.mem_takeWhile_imp hc, List.takeWhile_append_dropWhile.symm⟩

theorem word_of_strtol (r : Radix) (s : List Char) :
    strtol r s = (0, s) ∨ ∃ t n rest, r.Word t n ∧ s = t ++ rest ∧ strtol r s = (toLong n, rest) := by
  obtain ⟨space, hspace, hs⟩ := skipSpace_split s
  obtain ⟨sign, hsign, hcs⟩ := scanSign_split (skipSpace s)
  obtain ⟨pre, hpre, hbody⟩ := dropPrefix_split r (scanSign (skipSpace s)).2
  obtain ⟨hds, hall⟩ := span_split r.isDigit (r.dropPrefix (scanSign (skipSpace s)).2)
  unfold strtol
  dsimp only
  split
  · exact .inl rfl
  · rename_i hne
    refine .inr ⟨_, _, _, .mk space sign pre _ _ hspace hsign hpre ⟨by simpa using hne, hall⟩, ?_, rfl⟩
    rw [List.append_assoc, List.append_assoc, List.append_assoc, ← hds, ← hbody, ← hcs]
    exact hs

/-! ## Whole strings -/

/-- `s` is read as a whole, and stored in an `int` it is `n`. -/
def Radix.Reads (r : Radix) (s : List Char) (n : Int) : Prop := ∃ v, strtol r s = (v, []) ∧ toInt v = n

/-- `s` is a plain number. -/
def Radix.Digits (r : Radix) (s : List Char) (n : Int) : Prop := r.IsDigits s ∧ n = r.value s

theorem Radix.Reads.unique {r : Radix} {s : List Char} {m n : Int} (hm : r.Reads s m) (hn : r.Reads s n) : m = n := by
  obtain ⟨v, hv, rfl⟩ := hm
  obtain ⟨w, hw, rfl⟩ := hn
  rw [hv] at hw
  rw [(Prod.mk.inj hw).1]

theorem reads_iff {r : Radix} (hr : r.Standard) {s : List Char} {n : Int} :
    r.Reads s n ↔ s = [] ∧ n = 0 ∨ ∃ m, r.Word s m ∧ toInt (toLong m) = n := by
  constructor
  · rintro ⟨v, hv, rfl⟩
    rcases word_of_strtol r s with h | ⟨t, m, rest, hword, rfl, h⟩
    · rw [h] at hv
      obtain ⟨rfl, rfl⟩ := Prod.mk.inj hv
      exact .inl ⟨rfl, rfl⟩
    · rw [h] at hv
      obtain ⟨rfl, rfl⟩ := Prod.mk.inj hv
      exact .inr ⟨m, by simpa using hword, rfl⟩
  · rintro (⟨rfl, rfl⟩ | ⟨m, hword, rfl⟩)
    · exact ⟨0, by rcases hr with rfl | rfl <;> rfl, rfl⟩
    · exact ⟨toLong m, by simpa using strtol_word hr hword Radix.stops_nil, rfl⟩

theorem Radix.Digits.reads {r : Radix} (hr : r.Standard) {s : List Char} {n : Int} (h : r.Digits s n)
    (hn : n < 2 ^ 31) : r.Reads s n := by
  obtain ⟨hds, rfl⟩ := h
  have hword : r.Word s (r.value s) :=
    .mk [] [] [] s false (by simp) (.inl rfl) (.inl rfl) hds
  refine (reads_iff hr).mpr (.inr ⟨_, hword, ?_⟩)
  have hlong : toLong (r.value s) = r.value s := by
    unfold toLong
    omega
  rw [hlong]
  exact Int.bmod_eq_of_le (by omega) (by omega)

/-! ## Numbers as they are spelled -/

/-- The number `m` of a word becomes `n` in an `int`: a `long` holds it and its low 32 bits are `n`, or it lies below
every `long`. Above every `long` the `int` is -1. -/
def Truncates (m n : Int) : Prop :=
  n < 2 ^ 31 ∧ (-2 ^ 63 ≤ m ∧ m < 2 ^ 63 ∧ m % 2 ^ 32 = n ∨ m < -2 ^ 63 ∧ n = 0)

/-- `s` is not written as the number `n`, but still taken for it. -/
inductive Radix.Loose (r : Radix) : List Char → Int → Prop
  /-- No digit at all. -/
  | empty : Radix.Loose r [] 0
  /-- Digits behind white space, a sign or a prefix. -/
  | decorated {space sign pre ds : List Char} {neg : Bool} {n : Int} (hspace : ∀ c ∈ space, isSpace c = true)
      (hsign : IsSign neg sign) (hpre : r.IsPrefix pre) (hds : r.IsDigits ds)
      (hdec : space ≠ [] ∨ sign ≠ [] ∨ pre ≠ []) (hn : Truncates (r.signed neg ds) n) :
      Radix.Loose r (space ++ (sign ++ (pre ++ ds))) n
  /-- Digits whose number an `int` does not hold. -/
  | wrapped {ds : List Char} {n : Int} (hds : r.IsDigits ds) (hbig : 2 ^ 31 ≤ r.value ds)
      (hn : Truncates (r.value ds) n) : Radix.Loose r ds n

/-- `s` is taken for `n`: digits that an `int` holds, or a loose word. -/
def Radix.Spelled (r : Radix) (s : List Char) (n : Int) : Prop := r.Digits s n ∧ n < 2 ^ 31 ∨ r.Loose s n

theorem truncates_iff {m n : Int} (hn : 0 ≤ n) : Truncates m n ↔ toInt (toLong m) = n := by
  unfold Truncates toInt toLong
  rw [Int.bmod_def]
  omega

theorem Truncates.nonneg {m n : Int} (h : Truncates m n) : 0 ≤ n := by
  obtain ⟨-, ⟨-, -, h⟩ | ⟨-, h⟩⟩ := h <;> omega

theorem Radix.Loose.nonneg {r : Radix} {s : List Char} {n : Int} (h : r.Loose s n) : 0 ≤ n := by
  cases h with
  | empty => exact le_rfl
  | decorated _ _ _ _ _ hn => exact hn.nonneg
  | wrapped _ _ hn => exact hn.nonneg

theorem Radix.Loose.reads {r : Radix} (hr : r.Standard) {s : List Char} {n : Int} (h : r.Loose s n) :
    r.Reads s n := by
  have h0 := h.nonneg
  rw [reads_iff hr]
  cases h with
  | empty => exact .inl ⟨rfl, rfl⟩
  | decorated hspace hsign hpre hds _ hn =>
    exact .inr ⟨_, .mk _ _ _ _ _ hspace hsign hpre hds, (truncates_iff h0).mp hn⟩
  | wrapped hds _ hn =>
    exact .inr ⟨_, .mk [] [] [] s false (by simp) (.inl rfl) (.inl rfl) hds, (truncates_iff h0).mp hn⟩

/-- Neither white space nor a sign nor a prefix is made of digits. -/
theorem decorated_not_digits {r : Radix} (hr : r.Standard) {space sign pre ds : List Char} {neg : Bool}
    (hspace : ∀ c ∈ space, isSpace c = true) (hsign : IsSign neg sign) (hpre : r.IsPrefix pre)
    (hdec : space ≠ [] ∨ sign ≠ [] ∨ pre ≠ []) : ∃ c ∈ space ++ (sign ++ (pre ++ ds)), r.isDigit c = false := by
  have hplain : ∀ c, isSpace c = true ∨ c = '-' ∨ c = '+' ∨ c.toLower = 'x' → r.isDigit c = false := by
    intro c hc
    by_contra hd
    obtain ⟨h1, h2, h3, h4, -⟩ := hr.plain (by simpa using hd)
    rcases hc with hc | hc | hc | hc
    · rw [h1] at hc
      cases hc
    · exact h2 hc
    · exact h3 hc
    · exact h4 hc
  rcases hdec with h | h | h
  · obtain ⟨c, space', rfl⟩ := List.exists_cons_of_ne_nil h
    exact ⟨c, by simp, hplain c (.inl (hspace c (by simp)))⟩
  · have hchar : ∃ c ∈ sign, c = '-' ∨ c = '+' := by
      cases neg with
      | true =>
        obtain rfl := hsign
        exact ⟨'-', by simp, .inl rfl⟩
      | false =>
        obtain rfl : sign = ['+'] := hsign.resolve_left h
        exact ⟨'+', by simp, .inr rfl⟩
    obtain ⟨c, hmem, hc⟩ := hchar
    exact ⟨c, by simp [hmem], hplain c (.inr (hc.imp_right .inl))⟩
  · obtain ⟨-, rfl | rfl⟩ := hpre.resolve_left h
    · exact ⟨'x', by simp, hplain 'x' (by decide)⟩
    · exact ⟨'X', by simp, hplain 'X' (by decide)⟩

theorem Radix.Loose.not_digits {r : Radix} (hr : r.Standard) {s : List Char} {m n : Int} (h : r.Loose s n)
    (hm : m < 2 ^ 31) : ¬ r.Digits s m := by
  rintro ⟨hds, rfl⟩
  cases h with
  | empty => exact hds.1 rfl
  | @decorated space sign pre ds neg _ hspace hsign hpre _ hdec _ =>
    obtain ⟨c, hc, hno⟩ := @decorated_not_digits r hr space sign pre ds neg hspace hsign hpre hdec
    rw [hds.2 c hc] at hno
    cases hno
  | wrapped _ hbig _ => omega

theorem toInt_lt (n : Int) : toInt n < 2 ^ 31 := by
  unfold toInt
  rw [Int.bmod_def]
  omega

/-- What `strtol` and the conversion to `int` make of a string, spelled out. -/
theorem reads_spelled {r : Radix} (hr : r.Standard) {s : List Char} {n : Int} (hn : 0 ≤ n) :
    r.Reads s n ↔ r.Spelled s n := by
  constructor
  · intro h
    have hlt : n < 2 ^ 31 := by
      obtain ⟨v, -, rfl⟩ := h
      exact toInt_lt v
    rcases (reads_iff hr).mp h with ⟨rfl, rfl⟩ | ⟨m, hword, hm⟩
    · exact .inr .empty
    · have htrunc : Truncates m n := (truncates_iff hn).mpr hm
      obtain ⟨space, sign, pre, ds, neg, hspace, hsign, hpre, hds⟩ := hword
      by_cases hdec : space ≠ [] ∨ sign ≠ [] ∨ pre ≠ []
      · exact .inr (.decorated hspace hsign hpre hds hdec htrunc)
      · simp only [not_or, not_not] at hdec
        obtain ⟨rfl, rfl, rfl⟩ := hdec
        -- without a sign the number is that of the digits
        obtain rfl : neg = false := by
          cases neg with
          | true => cases hsign
          | false => rfl
        have hvalue : r.signed false ds = r.value ds := rfl
        rw [hvalue] at htrunc
        by_cases hbig : 2 ^ 31 ≤ r.value ds
        · exact .inr (.wrapped hds hbig htrunc)
        · obtain ⟨-, ⟨-, -, hmod⟩ | ⟨hlow, -⟩⟩ := htrunc
          · exact .inl ⟨⟨hds, by simp only [List.nil_append]; omega⟩, hlt⟩
          · omega
  · rintro (⟨hd, hlt⟩ | h)
    · exact hd.reads hr hlt
    · exact h.reads hr

theorem strtol_colon {s rest : List Char} {v : Int} :
    strtol decimal s = (v, ':' :: rest) ↔ ∃ t, s = t ++ ':' :: rest ∧ strtol decimal t = (v, []) := by
  have hr : decimal.Standard := .inl rfl
  have hstop : decimal.Stops (':' :: rest) := by
    intro c hc
    obtain rfl : ':' = c := by simpa using hc
    decide
  have hword : ∀ t n, decimal.Word t n → strtol decimal t = (toLong n, []) := by
    intro t n h
    simpa using strtol_word hr h Radix.stops_nil
  constructor
  · intro h
    rcases word_of_strtol decimal s with hs | ⟨t, n, rest', ht, rfl, hs⟩
    · rw [hs] at h
      obtain ⟨rfl, rfl⟩ := Prod.mk.inj h
      exact ⟨[], rfl, rfl⟩
    · rw [hs] at h
      obtain ⟨rfl, rfl⟩ := Prod.mk.inj h
      exact ⟨t, rfl, hword t n ht⟩
  · rintro ⟨t, rfl, ht⟩
    rcases word_of_strtol decimal t with hs | ⟨t', n, rest', ht', rfl, hs⟩
    · rw [hs] at ht
      obtain ⟨rfl, rfl⟩ := Prod.mk.inj ht
      rfl
    · rw [hs] at ht
      obtain ⟨rfl, rfl⟩ := Prod.mk.inj ht
      rw [List.append_nil]
      exact strtol_word hr ht' hstop

end Uvrgw.Lib
