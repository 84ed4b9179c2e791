import Mathlib.Data.List.TakeWhile

/-!
# The arguments of a printf format

What a format takes from the argument list, after the C standard: `none` for a format without a meaning.
-/

namespace Uvrgw.Lib.Printf

/-- The types of arguments after the default promotions. -/
inductive Arg where
  | int
  | long
  | longLong
  | intmax
  | size
  | ptrdiff
  | wint
  | double
  | longDouble
  | pointer
  deriving DecidableEq, Repr

inductive Modifier where
  | none
  | hh
  | h
  | l
  | ll
  | j
  | z
  | t
  | L
  deriving DecidableEq, Repr

def flags : List Char := ['-', '+', ' ', '#', '0']

def digits : List Char := ['0', '1', '2', '3', '4', '5', '6', '7', '8', '9']

/-- A width or precision: a `*` takes an argument. -/
def number : List Char → List Arg × List Char
  | '*' :: p => ([.int], p)
  | p => ([], p.dropWhile (· ∈ digits))

def precision : List Char → List Arg × List Char
  | '.' :: p => number p
  | p => ([], p)

def modifier : List Char → Modifier × List Char
  | 'h' :: 'h' :: p => (.hh, p)
  | 'h' :: p => (.h, p)
  | 'l' :: 'l' :: p => (.ll, p)
  | 'l' :: p => (.l, p)
  | 'j' :: p => (.j, p)
  | 'z' :: p => (.z, p)
  | 't' :: p => (.t, p)
  | 'L' :: p => (.L, p)
  | p => (.none, p)

def Modifier.integer : Modifier → Option Arg
  | none | hh | h => some .int
  | l => some .long
  | ll => some .longLong
  | j => some .intmax
  | z => some .size
  | t => some .ptrdiff
  | L => Option.none

def Modifier.float : Modifier → Option Arg
  | none | l => some .double
  | L => some .longDouble
  | _ => Option.none

/-- The argument of a conversion. -/
def argument (m : Modifier) (c : Char) : Option Arg :=
  if c ∈ ['d', 'i', 'o', 'u', 'x', 'X'] then m.integer
  else if c ∈ ['f', 'F', 'e', 'E', 'g', 'G', 'a', 'A'] then m.float
  else
    match m, c with
    | .none, 'c' => some .int
    | .l, 'c' => some .wint
    | .none, 's' | .l, 's' | .none, 'p' => some .pointer
    | .L, 'n' => none
    | _, 'n' => some .pointer
    | _, _ => none

/-- A conversion specification after its `%`: the arguments, and what follows. -/
def directive (p : List Char) : Option (List Arg × List Char) :=
  let (width, p) := number (p.dropWhile (· ∈ flags))
  let (prec, p) := precision p
  let (m, p) := modifier p
  match p with
  | [] => none
  | c :: p => (argument m c).map fun arg => (width ++ prec ++ [arg], p)

theorem length_number_le (p : List Char) : (number p).2.length ≤ p.length := by
  unfold number
  split
  · simp
  · exact List.length_dropWhile_le _ _

theorem length_precision_le (p : List Char) : (precision p).2.length ≤ p.length := by
  unfold precision
  split
  · exact Nat.le_trans (length_number_le _) (by simp)
  · exact Nat.le_refl _

theorem length_modifier_le (p : List Char) : (modifier p).2.length ≤ p.length := by
  unfold modifier
  split <;> simp only [List.length_cons] <;> omega

theorem length_directive_lt {p rest : List Char} {as : List Arg} (h : directive p = some (as, rest)) :
    rest.length < p.length := by
  have h1 := List.length_dropWhile_le (· ∈ flags) p
  have h2 := length_number_le (p.dropWhile (· ∈ flags))
  have h3 := length_precision_le (number (p.dropWhile (· ∈ flags))).2
  have h4 := length_modifier_le (precision (number (p.dropWhile (· ∈ flags))).2).2
  unfold directive at h
  dsimp only at h
  split at h
  · cases h
  · rename_i c p' heq
    obtain ⟨arg, -, hpair⟩ := Option.map_eq_some_iff.mp h
    cases hpair
    rw [heq, List.length_cons] at h4
    omega

/-- The arguments of a format. -/
def args : List Char → Option (List Arg)
  | [] => some []
  | c :: p =>
    if c ≠ '%' then args p
    else if p.head? = some '%' then args p.tail
    else
      match _ : directive p with
      | none => none
      | some (as, rest) => (args rest).map (as ++ ·)
termination_by p => p.length
decreasing_by
  · exact Nat.lt_succ_self _
  · rw [List.length_cons, List.length_tail]
    omega
  · have := length_directive_lt ‹_›
    simp only [List.length_cons]
    omega

theorem args_char {c : Char} (hc : c ≠ '%') (p : List Char) : args (c :: p) = args p := by
  rw [args, if_pos hc]

theorem args_percent (p : List Char) : args ('%' :: '%' :: p) = args p := by
  rw [args, if_neg (by simp), if_pos (by simp), List.tail_cons]

theorem args_directive {p rest : List Char} {as : List Arg} (hhead : p.head? ≠ some '%')
    (h : directive p = some (as, rest)) : args ('%' :: p) = (args rest).map (as ++ ·) := by
  rw [args, if_neg (by simp), if_neg hhead]
  split
  · rename_i hnone
    rw [h] at hnone
    cases hnone
  · rename_i hsome
    rw [h] at hsome
    cases hsome
    rfl

end Uvrgw.Lib.Printf
