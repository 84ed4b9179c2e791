import Mathlib.Data.List.Basic
import Uvrgw.Lib.Lists

/-!
# JSON texts

A parser for the texts of RFC 8259 and the numbers of its grammar. A number keeps its text. Of the escapes `\u`
only those of a single code point are accepted.
-/

namespace Uvrgw.Lib

inductive Json where
  | null
  | bool (b : Bool)
  | number (text : List Char)
  | string (s : List Char)
  | array (elems : List Json)
  | object (members : List (List Char × Json))

namespace Json

/-! ## Parser -/

def isWs (c : Char) : Bool := c == ' ' || c == '\t' || c == '\n' || c == '\r'

def skipWs (s : List Char) : List Char := s.dropWhile isWs

def scanMinus : List Char → List Char × List Char
  | '-' :: s => (['-'], s)
  | s => ([], s)

def scanInt : List Char → Option (List Char × List Char)
  | '0' :: s => some (['0'], s)
  | c :: s =>
    let (ds, rest) := s.span Char.isDigit
    if c.isDigit then some (c :: ds, rest) else none
  | [] => none

/-- At least one digit. -/
def scanDigits (s : List Char) : Option (List Char × List Char) :=
  let (ds, rest) := s.span Char.isDigit
  if ds = [] then none else some (ds, rest)

def scanFrac : List Char → Option (List Char × List Char)
  | '.' :: s => do
    let (ds, s) ← scanDigits s
    return ('.' :: ds, s)
  | s => some ([], s)

def scanExpSign : List Char → List Char × List Char
  | '-' :: s => (['-'], s)
  | '+' :: s => (['+'], s)
  | s => ([], s)

def scanExp : List Char → Option (List Char × List Char)
  | c :: s =>
    if c = 'e' ∨ c = 'E' then do
      let (sign, s) := scanExpSign s
      let (ds, s) ← scanDigits s
      return (c :: sign ++ ds, s)
    else some ([], c :: s)
  | [] => some ([], [])

def scanNumber (s : List Char) : Option (List Char × List Char) := do
  let (minus, s) := scanMinus s
  let (int, s) ← scanInt s
  let (frac, s) ← scanFrac s
  let (exp, s) ← scanExp s
  return (minus ++ int ++ frac ++ exp, s)

def hexDigit (c : Char) : Option Nat :=
  if c.isDigit then some (c.toNat - 48)
  else if 'a' ≤ c ∧ c ≤ 'f' then some (c.toNat - 87)
  else if 'A' ≤ c ∧ c ≤ 'F' then some (c.toNat - 55)
  else none

def codePoint (a b c d : Char) : Option Char := do
  let n := ((← hexDigit a) * 16 + (← hexDigit b)) * 256 + (← hexDigit c) * 16 + (← hexDigit d)
  if n.isValidChar then some (Char.ofNat n) else none

def escape : Char → Option Char
  | '"' => some '"'
  | '\\' => some '\\'
  | '/' => some '/'
  | 'b' => some '\x08'
  | 'f' => some '\x0c'
  | 'n' => some '\n'
  | 'r' => some '\r'
  | 't' => some '\t'
  | _ => none

/-- The rest of a string, after the opening quote. -/
def scanString : List Char → Option (List Char × List Char)
  | [] => none
  | '"' :: s => some ([], s)
  | '\\' :: 'u' :: a :: b :: c :: d :: s => do
    let x ← codePoint a b c d
    let (t, s) ← scanString s
    return (x :: t, s)
  | '\\' :: c :: s => do
    let x ← escape c
    let (t, s) ← scanString s
    return (x :: t, s)
  | c :: s =>
    if c.toNat < 0x20 ∨ c = '\\' then none
    else do
      let (t, s) ← scanString s
      return (c :: t, s)

def scanWord (word : List Char) (v : Json) (s : List Char) : Option (Json × List Char) :=
  if word.isPrefixOf s then some (v, s.drop word.length) else none

/-- The name of a member, up to its value. -/
def scanName (s : List Char) : Option (List Char × List Char) :=
  match skipWs s with
  | '"' :: s => do
    let (name, s) ← scanString s
    match skipWs s with
    | ':' :: s => some (name, s)
    | _ => none
  | _ => none

mutual

/-- A value, and what follows it. The number bounds the depth and the lengths. -/
def scanValue : Nat → List Char → Option (Json × List Char)
  | 0, _ => none
  | n + 1, s =>
    match skipWs s with
    | '{' :: s =>
      match skipWs s with
      | '}' :: s => some (.object [], s)
      | _ => do
        let (members, s) ← scanMembers n s
        return (.object members, s)
    | '[' :: s =>
      match skipWs s with
      | ']' :: s => some (.array [], s)
      | _ => do
        let (elems, s) ← scanElems n s
        return (.array elems, s)
    | '"' :: s => do
      let (t, s) ← scanString s
      return (.string t, s)
    | 'n' :: s => scanWord ['n', 'u', 'l', 'l'] .null ('n' :: s)
    | 't' :: s => scanWord ['t', 'r', 'u', 'e'] (.bool true) ('t' :: s)
    | 'f' :: s => scanWord ['f', 'a', 'l', 's', 'e'] (.bool false) ('f' :: s)
    | s => do
      let (text, s) ← scanNumber s
      return (.number text, s)

def scanMembers : Nat → List Char → Option (List (List Char × Json) × List Char)
  | 0, _ => none
  | n + 1, s => do
    let (name, s) ← scanName s
    let (v, s) ← scanValue n s
    match skipWs s with
    | ',' :: s =>
      let (members, s) ← scanMembers n s
      return ((name, v) :: members, s)
    | '}' :: s => return ([(name, v)], s)
    | _ => none

def scanElems : Nat → List Char → Option (List Json × List Char)
  | 0, _ => none
  | n + 1, s => do
    let (v, s) ← scanValue n s
    match skipWs s with
    | ',' :: s =>
      let (elems, s) ← scanElems n s
      return (v :: elems, s)
    | ']' :: s => return ([v], s)
    | _ => none

end

def parse (s : List Char) : Option Json :=
  match scanValue (s.length + 1) s with
  | some (v, rest) => if skipWs rest = [] then some v else none
  | none => none

/-! ## Numbers -/

def Digits (ds : List Char) : Prop := ∀ d ∈ ds, d.isDigit = true

inductive IntPart : List Char → Prop where
  | zero : IntPart ['0']
  | pos {c : Char} {ds : List Char} (hc : c.isDigit = true) (h0 : c ≠ '0') (hds : Digits ds) : IntPart (c :: ds)

inductive FracPart : List Char → Prop where
  | none : FracPart []
  | some {ds : List Char} (hne : ds ≠ []) (hds : Digits ds) : FracPart ('.' :: ds)

inductive ExpPart : List Char → Prop where
  | none : ExpPart []
  | some {e : Char} {sign ds : List Char} (he : e = 'e' ∨ e = 'E') (hsign : sign = [] ∨ sign = ['-'] ∨ sign = ['+'])
    (hne : ds ≠ []) (hds : Digits ds) : ExpPart (e :: sign ++ ds)

/-- `number` of the grammar. -/
inductive Number : List Char → Prop where
  | mk {minus int frac exp : List Char} (hminus : minus = [] ∨ minus = ['-']) (hint : IntPart int)
      (hfrac : FracPart frac)
    (hexp : ExpPart exp) : Number (minus ++ int ++ frac ++ exp)

/-- Nothing of a number follows. -/
def Stops (rest : List Char) : Prop := ∀ c ∈ rest.head?, c.isDigit = false ∧ c ≠ '.' ∧ c ≠ 'e' ∧ c ≠ 'E'

theorem scanDigits_append {ds rest : List Char} (hne : ds ≠ []) (hds : Digits ds)
    (hrest : ∀ c ∈ rest.head?, c.isDigit = false) : scanDigits (ds ++ rest) = some (ds, rest) := by
  unfold scanDigits
  rw [span_append hds hrest]
  exact if_neg hne

theorem scanExp_append {exp rest : List Char} (hexp : ExpPart exp) (hrest : Stops rest) :
    scanExp (exp ++ rest) = some (exp, rest) := by
  cases hexp with
  | none =>
    cases rest with
    | nil => rfl
    | cons c rest =>
      obtain ⟨-, -, he, hE⟩ := hrest c rfl
      simp [scanExp, he, hE]
  | @some e sign ds he hsign hne hds =>
    have hscan := scanDigits_append hne hds fun c hc => (hrest c hc).1
    have hsigned : scanExpSign (sign ++ (ds ++ rest)) = (sign, ds ++ rest) := by
      rcases hsign with rfl | rfl | rfl
      · obtain ⟨d, ds', rfl⟩ := List.exists_cons_of_ne_nil hne
        have hd := hds d List.mem_cons_self
        unfold scanExpSign
        split
        · rename_i heq
          cases heq
          exact absurd hd (by decide)
        · rename_i heq
          cases heq
          exact absurd hd (by decide)
        · rfl
      · rfl
      · rfl
    simp [scanExp, he, hsigned, hscan]

theorem ExpPart.stops {exp rest : List Char} (hexp : ExpPart exp) (hrest : Stops rest) :
    ∀ c ∈ (exp ++ rest).head?, c.isDigit = false ∧ c ≠ '.' := by
  cases hexp with
  | none => exact fun c hc => ⟨(hrest c hc).1, (hrest c hc).2.1⟩
  | some he =>
    intro c hc
    simp only [List.cons_append, List.head?_cons, Option.mem_def, Option.some.injEq] at hc
    subst hc
    rcases he with rfl | rfl <;> decide

theorem scanFrac_append {frac rest : List Char} (hfrac : FracPart frac)
    (hrest : ∀ c ∈ rest.head?, c.isDigit = false ∧ c ≠ '.') : scanFrac (frac ++ rest) = some (frac, rest) := by
  cases hfrac with
  | none =>
    unfold scanFrac
    split
    · rename_i heq
      rw [List.nil_append] at heq
      exact absurd rfl (hrest '.' (by rw [heq]; rfl)).2
    · rfl
  | some hne hds =>
    have hscan := scanDigits_append hne hds fun c hc => (hrest c hc).1
    simp [scanFrac, hscan]

theorem FracPart.stops {frac rest : List Char} (hfrac : FracPart frac)
    (hrest : ∀ c ∈ rest.head?, c.isDigit = false) : ∀ c ∈ (frac ++ rest).head?, c.isDigit = false := by
  cases hfrac with
  | none => exact hrest
  | some =>
    intro c hc
    simp only [List.cons_append, List.head?_cons, Option.mem_def, Option.some.injEq] at hc
    subst hc
    decide

theorem scanInt_append {int rest : List Char} (hint : IntPart int) (hrest : ∀ c ∈ rest.head?, c.isDigit = false) :
    scanInt (int ++ rest) = some (int, rest) := by
  cases hint with
  | zero => rfl
  | pos hc h0 hds =>
    rw [List.cons_append, scanInt.eq_2 _ _ h0, span_append hds hrest]
    exact if_pos hc

theorem scanNumber_append {t rest : List Char} (ht : Number t) (hrest : Stops rest) :
    scanNumber (t ++ rest) = some (t, rest) := by
  cases ht with
  | @mk minus int frac exp hminus hint hfrac hexp =>
    have hexpStops := hexp.stops hrest
    have hfracStops := hfrac.stops fun c hc => (hexpStops c hc).1
    have h1 : scanMinus (minus ++ (int ++ (frac ++ (exp ++ rest)))) = (minus, int ++ (frac ++ (exp ++ rest))) := by
      rcases hminus with rfl | rfl
      · cases hint with
        | zero => rfl
        | pos hc =>
          unfold scanMinus
          split
          · rename_i heq
            cases heq
            exact absurd hc (by decide)
          · rfl
      · rfl
    have h2 := scanInt_append hint hfracStops
    have h3 := scanFrac_append hfrac hexpStops
    have h4 := scanExp_append hexp hrest
    simp [scanNumber, List.append_assoc, h1, h2, h3, h4]

theorem Number.head {t : List Char} (ht : Number t) : ∃ c t', t = c :: t' ∧ (c = '-' ∨ c.isDigit = true) := by
  cases ht with
  | mk hminus hint =>
    rcases hminus with rfl | rfl
    · cases hint with
      | zero => exact ⟨'0', _, rfl, .inr rfl⟩
      | pos hc => exact ⟨_, _, rfl, .inr hc⟩
    · exact ⟨'-', _, rfl, .inl rfl⟩

/-- A number without a point and an exponent is an integer; with a fraction it is a number again. -/
theorem Number.fraction {t ds : List Char} (ht : Number t) (hpoint : '.' ∉ t) (he : 'e' ∉ t) (hE : 'E' ∉ t)
    (hne : ds ≠ []) (hds : Digits ds) : Number (t ++ '.' :: ds) := by
  cases ht with
  | @mk minus int frac exp hminus hint hfrac hexp =>
    have hfrac0 : frac = [] := by
      cases hfrac with
      | none => rfl
      | some => simp at hpoint
    have hexp0 : exp = [] := by
      cases hexp with
      | none => rfl
      | some hmark => rcases hmark with rfl | rfl <;> simp at he hE
    subst hfrac0 hexp0
    have := Number.mk hminus hint (.some hne hds) .none
    simpa using this

/-! ## Values -/

/-- The parser reads `t` as `v`. -/
def Scans (t : List Char) (v : Json) : Prop :=
  ∀ n rest, Stops rest → scanValue (n + 1) (t ++ rest) = some (v, rest)

theorem skipWs_cons {c : Char} (h : isWs c = false) (s : List Char) : skipWs (c :: s) = c :: s := by
  simp [skipWs, h]

theorem Number.scans {t : List Char} (ht : Number t) : Scans t (.number t) := by
  intro n rest hrest
  have hscan := scanNumber_append ht hrest
  obtain ⟨c, t', rfl, hc⟩ := ht.head
  have hne : ∀ d, ¬ (d = '-' ∨ d.isDigit = true) → c ≠ d := by
    rintro d hd rfl
    exact hd hc
  have hws : isWs c = false := by
    simp [isWs, hne ' ' (by decide), hne '\t' (by decide), hne '\n' (by decide), hne '\r' (by decide)]
  rw [List.cons_append] at hscan ⊢
  unfold scanValue
  rw [skipWs_cons hws]
  split
  · exact absurd (List.cons.inj ‹_›).1 (hne '{' (by decide))
  · exact absurd (List.cons.inj ‹_›).1 (hne '[' (by decide))
  · exact absurd (List.cons.inj ‹_›).1 (hne '"' (by decide))
  · exact absurd (List.cons.inj ‹_›).1 (hne 'n' (by decide))
  · exact absurd (List.cons.inj ‹_›).1 (hne 't' (by decide))
  · exact absurd (List.cons.inj ‹_›).1 (hne 'f' (by decide))
  · rw [hscan]
    rfl

theorem scans_null : Scans ['n', 'u', 'l', 'l'] .null := by
  intro n rest _
  rfl

/-! ## Objects -/

/-- A character that stands for itself in a string. -/
def Plain (c : Char) : Prop := 0x20 ≤ c.toNat ∧ c ≠ '"' ∧ c ≠ '\\'

theorem scanString_plain {t : List Char} (ht : ∀ c ∈ t, Plain c) (rest : List Char) :
    scanString (t ++ '"' :: rest) = some (t, rest) := by
  induction t with
  | nil => rfl
  | cons c t ih =>
    obtain ⟨⟨hlo, hquote, hback⟩, ht⟩ := List.forall_mem_cons.mp ht
    rw [List.cons_append]
    unfold scanString
    split
    · rename_i heq
      cases heq
    · exact absurd (List.cons.inj ‹_›).1 hquote
    · exact absurd (List.cons.inj ‹_›).1 hback
    · exact absurd (List.cons.inj ‹_›).1 hback
    · rename_i heq
      obtain ⟨rfl, rfl⟩ := List.cons.inj heq
      rw [if_neg (by simp [hback]; omega), ih ht]
      rfl

def memberText (name text : List Char) : List Char := '"' :: name ++ '"' :: ':' :: text

theorem scanName_text {name : List Char} (hname : ∀ c ∈ name, Plain c) (text rest : List Char) :
    scanName (memberText name text ++ rest) = some (name, text ++ rest) := by
  have hstring := scanString_plain hname (':' :: (text ++ rest))
  unfold scanName memberText
  simp [skipWs_cons (c := '"') rfl, hstring, skipWs_cons (c := ':') rfl]

/-- A member as it is written, with the value that it has. -/
structure Member where
  name : List Char
  text : List Char
  value : Json

structure Member.Ok (m : Member) : Prop where
  name : ∀ c ∈ m.name, Plain c
  text : Scans m.text m.value

def Member.print (m : Member) : List Char := memberText m.name m.text

def Member.pair (m : Member) : List Char × Json := (m.name, m.value)

theorem scanMembers_print {m : Member} {ms : List Member} (hm : m.Ok) (hms : ∀ m' ∈ ms, m'.Ok) {n : Nat}
    (hn : ms.length + 2 ≤ n) (rest : List Char) :
    scanMembers n (m.print ++ (ms.flatMap (fun m' => ',' :: m'.print) ++ '}' :: rest)) =
      some (m.pair :: ms.map Member.pair, rest) := by
  induction ms generalizing m n with
  | nil =>
    obtain ⟨n, rfl⟩ := Nat.exists_eq_add_of_le' hn
    have hname := scanName_text hm.name m.text ('}' :: rest)
    have hvalue := hm.text n ('}' :: rest) (by simp [Stops])
    simp [scanMembers, Member.print, hname, hvalue, skipWs_cons (c := '}') rfl, Member.pair]
  | cons m' ms ih =>
    obtain ⟨hm', hms⟩ := List.forall_mem_cons.mp hms
    obtain ⟨n, rfl⟩ := Nat.exists_eq_add_of_le' hn
    have hrest := ih hm' hms (n := n + ms.length + 2) (by omega)
    set tail := m'.print ++ (ms.flatMap (fun m' => ',' :: m'.print) ++ '}' :: rest) with htail
    have hname := scanName_text hm.name m.text (',' :: tail)
    have hvalue := hm.text (n + ms.length + 1) (',' :: tail) (by simp [Stops])
    have hsplit : (m' :: ms).flatMap (fun m' => ',' :: m'.print) ++ '}' :: rest = ',' :: tail := by
      simp [htail, List.append_assoc]
    rw [hsplit]
    show scanMembers (n + ms.length + 2 + 1) _ = _
    rw [scanMembers, Member.print, hname]
    simp [hvalue, skipWs_cons (c := ',') rfl, hrest, Member.pair]

theorem scanValue_members {n : Nat} {s rest : List Char} {members : List (List Char × Json)}
    (h : scanMembers n ('"' :: s) = some (members, rest)) :
    scanValue (n + 1) ('{' :: '"' :: s) = some (.object members, rest) := by
  simp [scanValue, skipWs_cons (c := '{') rfl, skipWs_cons (c := '"') rfl, h]

/-- An object as it is written. -/
def objectText (m : Member) (ms : List Member) : List Char :=
  '{' :: m.print ++ ms.flatMap (fun m' => ',' :: m'.print) ++ ['}']

/-- **Objects.** The text of an object parses as the object. -/
theorem parse_objectText {m : Member} {ms : List Member} (hm : m.Ok) (hms : ∀ m' ∈ ms, m'.Ok) :
    parse (objectText m ms) = some (.object (m.pair :: ms.map Member.pair)) := by
  have hlen : ∀ l : List Member, l.length ≤ (l.flatMap fun m' => ',' :: m'.print).length := by
    intro l
    induction l with
    | nil => simp
    | cons m' l ih =>
      rw [List.flatMap_cons, List.length_append]
      simp only [List.length_cons]
      omega
  have hfuel : ms.length + 2 ≤ (objectText m ms).length := by
    have := hlen ms
    simp only [objectText, List.length_append, List.length_cons]
    omega
  have hmembers := scanMembers_print hm hms hfuel []
  have hsplit : objectText m ms = '{' :: (m.print ++ (ms.flatMap (fun m' => ',' :: m'.print) ++ ['}'])) := by
    simp [objectText]
  have hvalue : scanValue ((objectText m ms).length + 1) (objectText m ms) =
      some (.object (m.pair :: ms.map Member.pair), []) := by
    generalize (objectText m ms).length = n at hmembers ⊢
    rw [hsplit]
    exact scanValue_members hmembers
  unfold parse
  rw [hvalue]
  rfl

end Json

end Uvrgw.Lib
