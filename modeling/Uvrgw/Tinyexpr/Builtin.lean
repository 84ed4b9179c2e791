import Mathlib.Data.Char
import Mathlib.Data.List.Lex
import Uvrgw.Tinyexpr.Tokens

/-! # The table of built-in functions -/

namespace Uvrgw.Tinyexpr

open Uvrgw.Lib

variable {U V : Type}

/-! ## Comparison -/

/-- A C string: its characters are not NUL. -/
def CString (s : List Char) : Prop := ∀ c ∈ s, 0 < c.toNat

theorem CString.head {c : Char} {s : List Char} (h : CString (c :: s)) : 0 < c.toNat := h c (by simp)

theorem CString.tail {c : Char} {s : List Char} (h : CString (c :: s)) : CString s :=
  fun d hd => h d (by simp [hd])

theorem char_lt_iff (a b : Char) : a < b ↔ a.toNat < b.toNat := Iff.rfl

/-- The comparison is the order of the strings. -/
theorem compareName_spec {len : Nat} {name entry : List Char} (hlen : len ≤ name.length) (hname : CString name)
    (hentry : CString entry) :
    (compareName len name entry = 0 ↔ name.take len = entry) ∧
      (0 < compareName len name entry ↔ entry < name.take len) := by
  induction len generalizing name entry with
  | zero =>
    cases entry with
    | nil => simp [compareName, strncmp]
    | cons b bs =>
      have := hentry.head
      simp [compareName, strncmp]
      omega
  | succ len ih =>
    cases name with
    | nil => simp at hlen
    | cons a as =>
      have ha := hname.head
      cases entry with
      | nil =>
        have hne : strncmp (len + 1) (a :: as) [] ≠ 0 := by simp only [strncmp]; omega
        simp only [compareName, if_neg hne]
        simp only [strncmp]
        simp
        omega
      | cons b bs =>
        by_cases hab : a = b
        · subst hab
          have hsame : compareName (len + 1) (a :: as) (a :: bs) = compareName len as bs := by
            simp [compareName, strncmp]
          rw [hsame, List.take_succ_cons]
          obtain ⟨hzero, hpos⟩ := ih (by simpa using hlen) hname.tail hentry.tail
          rw [hzero, hpos]
          simp
        · have hne : a.toNat ≠ b.toNat := fun h => hab (Char.toNat_inj.mp h)
          have hcmp : compareName (len + 1) (a :: as) (b :: bs) = (a.toNat : Int) - b.toNat := by
            have : strncmp (len + 1) (a :: as) (b :: bs) = (a.toNat : Int) - b.toNat := by
              simp [strncmp, hab]
            simp only [compareName, this]
            rw [if_neg (by omega)]
          rw [hcmp, List.take_succ_cons]
          constructor
          · constructor
            · intro h
              omega
            · intro h
              exact absurd (List.cons.inj h).1 hab
          · rw [List.cons_lt_cons_iff, char_lt_iff]
            constructor
            · intro h
              left
              omega
            · rintro (h | ⟨h, -⟩)
              · omega
              · exact absurd h.symm hab

theorem compareName_neg {len : Nat} {name entry : List Char} (hlen : len ≤ name.length) (hname : CString name)
    (hentry : CString entry) : compareName len name entry < 0 ↔ name.take len < entry := by
  obtain ⟨hzero, hpos⟩ := compareName_spec hlen hname hentry
  rcases lt_trichotomy (name.take len) entry with hlt | heq | hgt
  · have hne : name.take len ≠ entry := hlt.ne
    have hge : ¬ entry < name.take len := hlt.asymm
    have h0 := mt hzero.mp hne
    have h1 := mt hpos.mp hge
    constructor
    · intro _
      exact hlt
    · intro _
      omega
  · have h0 := hzero.mpr heq
    simp only [h0, heq, lt_self_iff_false]
  · have h1 := hpos.mpr hgt
    constructor
    · intro h
      omega
    · intro h
      exact absurd h hgt.asymm

/-- `strncmp` looks at no more than `len` characters. -/
theorem strncmp_take (len : Nat) (name entry : List Char) :
    strncmp len (name.take len) entry = strncmp len name entry := by
  induction len generalizing name entry with
  | zero => rfl
  | succ len ih =>
    cases name with
    | nil => rfl
    | cons a as =>
      cases entry with
      | nil => rfl
      | cons b bs =>
        rw [List.take_succ_cons, strncmp, strncmp, ih]

/-! ## The table -/

def builtinNames (U : Type) : List (List Char) := (functions (U := U)).map (·.1.toList)

theorem builtinNames_sorted : (builtinNames U).Pairwise (· < ·) := by
  have h : (builtinNames Unit).Pairwise (· < ·) := by decide +kernel
  exact h

theorem builtinNames_cString {entry : List Char} (h : entry ∈ builtinNames U) : CString entry := by
  have hall : (builtinNames Unit).all (·.all (0 < ·.toNat)) = true := by decide +kernel
  have hentry := List.all_eq_true.mp hall entry h
  intro c hc
  simpa using List.all_eq_true.mp hentry c hc

theorem builtinName_eq {n : Nat} (h : n < (builtinNames U).length) : builtinName U n = (builtinNames U)[n] := by
  have hlen : n < (functions (U := U)).length := by simpa [builtinNames] using h
  simp [builtinName, builtinNames, List.getElem?_eq_getElem hlen]

theorem builtinName_mem {i : Int} (hmin : 0 ≤ i) (hmax : i ≤ (functions (U := U)).length - 1) :
    builtinName U i ∈ builtinNames U := by
  obtain ⟨n, rfl⟩ := Int.eq_ofNat_of_zero_le hmin
  have hn : n < (builtinNames U).length := by simp only [builtinNames, List.length_map]; omega
  have heq : builtinName U (n : Int) = (builtinNames U)[n] := builtinName_eq hn
  rw [heq]
  exact List.getElem_mem hn

theorem builtinName_lt {i j : Int} (hmin : 0 ≤ i) (hij : i < j) (hmax : j ≤ (functions (U := U)).length - 1) :
    builtinName U i < builtinName U j := by
  obtain ⟨m, rfl⟩ := Int.eq_ofNat_of_zero_le hmin
  obtain ⟨n, rfl⟩ := Int.eq_ofNat_of_zero_le (by omega : 0 ≤ j)
  have hlen : (builtinNames U).length = (functions (U := U)).length := by simp [builtinNames]
  have hltm : m < (builtinNames U).length := by omega
  have hltn : n < (builtinNames U).length := by omega
  have hm : builtinName U (m : Int) = (builtinNames U)[m] := builtinName_eq (by omega)
  have hn : builtinName U (n : Int) = (builtinNames U)[n] := builtinName_eq (by omega)
  rw [hm, hn]
  exact List.pairwise_iff_getElem.mp builtinNames_sorted m n _ _ (by omega)

section Search

variable {len : Nat} {name : List Char} (hlen : len ≤ name.length) (hname : CString name)

include hlen hname

theorem builtin_sorted : Sorted (fun i => compareName len name (builtinName U i)) 0
    ((functions (U := U)).length - 1) := by
  intro i j hmin hij hmax
  have hlt := builtinName_lt hmin hij hmax
  have hi := builtinNames_cString (builtinName_mem (U := U) hmin (by omega))
  have hj := builtinNames_cString (builtinName_mem (U := U) (by omega : 0 ≤ j) hmax)
  constructor
  · intro h
    have hle : builtinName U j ≤ name.take len := not_lt.mp (mt (compareName_neg hlen hname hj).mpr (not_lt.mpr h))
    exact (compareName_spec hlen hname hi).2.mpr (hlt.trans_le hle)
  · intro h
    have hle : name.take len ≤ builtinName U i := not_lt.mp (mt (compareName_spec hlen hname hi).2.mpr (not_lt.mpr h))
    exact (compareName_neg hlen hname hj).mpr (hle.trans_lt hlt)

/-- The search finds the entry whose name is the given one, if the table has one. -/
theorem findBuiltin_eq_some (f : Callee U) : findBuiltin name len = some f ↔
    ∃ entry ∈ functions, entry.1.toList = name.take len ∧ f = ⟨entry.2.1, entry.2.2, true⟩ := by
  unfold findBuiltin
  simp only [Option.bind_eq_bind, Option.bind_eq_some_iff, Option.pure_def, Option.some.injEq]
  constructor
  · rintro ⟨i, hi, entry, hentry, rfl⟩
    obtain ⟨hmin, hmax, hcmp⟩ := binSearch_sound hi
    have hc := builtinNames_cString (builtinName_mem hmin hmax)
    have hspec := (compareName_spec hlen hname hc).1.mp hcmp
    refine ⟨entry, List.mem_of_getElem? hentry, ?_, rfl⟩
    rw [hspec]
    simp [builtinName, hentry]
  · rintro ⟨entry, hentry, heq, rfl⟩
    obtain ⟨n, hn, rfl⟩ := List.getElem_of_mem hentry
    have hname' : builtinName U (n : Int) = name.take len := by
      rw [← heq]
      simp [builtinName, List.getElem?_eq_getElem hn]
    have hc := builtinNames_cString (builtinName_mem (U := U) (i := n) (by omega) (by omega))
    refine ⟨n, ?_, functions[n], ?_, rfl⟩
    · refine binSearch_complete (builtin_sorted hlen hname) (by omega) (by omega) (by omega) ?_
      rw [hname'] at hc ⊢
      exact (compareName_spec hlen hname hc).1.mpr rfl
    · simp [List.getElem?_eq_getElem hn]

end Search

theorem findBuiltin_take (name : List Char) (len : Nat) :
    findBuiltin (U := U) (name.take len) len = findBuiltin name len := by
  unfold findBuiltin compareName
  simp only [strncmp_take]

theorem IsName.cString {name : List Char} {len : Nat} (h : IsName name len) : CString (name.take len) := by
  intro c hc
  by_contra hzero
  have hnul : c = '\x00' := Char.toNat_inj.mp (by change c.toNat = 0; omega)
  have hname := h.2 c hc
  rw [hnul] at hname
  exact absurd hname (by decide)

theorem findBuiltin_name {name : List Char} {len : Nat} (h : IsName name len) (f : Callee U) :
    findBuiltin name len = some f ↔
      ∃ entry ∈ functions, entry.1.toList = name.take len ∧ f = ⟨entry.2.1, entry.2.2, true⟩ := by
  have hlen : len ≤ (name.take len).length := by
    rw [List.length_take]
    exact Nat.le_min.mpr ⟨le_rfl, h.1⟩
  rw [← findBuiltin_take, findBuiltin_eq_some hlen h.cString, List.take_take, Nat.min_self]

/-- The comparison of `find_lookup`. -/
theorem lookup_test {name entry : List Char} {len : Nat} (h : IsName name len) (hentry : CString entry) :
    (strncmp len name entry = 0 ∧ (entry[len]?).isNone = true) ↔ name.take len = entry := by
  have hlen : len ≤ (name.take len).length := by
    rw [List.length_take]
    exact Nat.le_min.mpr ⟨le_rfl, h.1⟩
  have hspec := (compareName_spec hlen h.cString hentry).1
  rw [List.take_take, Nat.min_self] at hspec
  unfold compareName at hspec
  rw [strncmp_take] at hspec
  dsimp only at hspec
  constructor
  · rintro ⟨hcmp, hnone⟩
    rw [if_pos hcmp, Option.isNone_iff_eq_none.mp hnone] at hspec
    exact hspec.mp rfl
  · intro heq
    have hzero := hspec.mpr heq
    split at hzero
    · rename_i hcmp
      refine ⟨hcmp, ?_⟩
      rw [List.getElem?_eq_none]
      · rfl
      · rw [← heq, List.length_take]
        exact Nat.min_le_left _ _
    · contradiction

theorem findLookup_eq {lookup : List (TeVariable V U)} {name : List Char} {len : Nat} (h : IsName name len)
    (hlookup : ∀ var ∈ lookup, CString var.name) :
    findLookup lookup name len = lookup.find? fun var => var.name = name.take len := by
  unfold findLookup
  induction lookup with
  | nil => rfl
  | cons var lookup ih =>
    have htest := lookup_test h (hlookup var List.mem_cons_self)
    rw [List.find?_cons, List.find?_cons, ih fun v hv => hlookup v (List.mem_cons_of_mem _ hv)]
    congr 1
    rw [Bool.eq_iff_iff, Bool.and_eq_true, decide_eq_true_eq, decide_eq_true_eq, htest, eq_comm]

theorem teIsBuiltin_iff {name : List Char} (hname : CString name) :
    teIsBuiltin U name = true ↔ name ∈ builtinNames U := by
  unfold teIsBuiltin
  rw [Option.isSome_iff_exists]
  simp only [findBuiltin_eq_some (le_refl _) hname, List.take_length]
  constructor
  · rintro ⟨f, entry, hentry, heq, -⟩
    exact List.mem_map.mpr ⟨entry, hentry, heq⟩
  · intro h
    obtain ⟨entry, hentry, heq⟩ := List.mem_map.mp h
    exact ⟨_, entry, hentry, heq, rfl⟩

/-- **The binary search.** The parser takes a name as a function of the table exactly if it is the name of one, then
with its arity; `te_is_builtin` says the same of the name alone. -/
theorem findBuiltin_spec {name : List Char} {len : Nat} (h : IsName name len) :
    (∀ f : Callee U, findBuiltin name len = some f ↔
        ∃ entry ∈ functions, entry.1.toList = name.take len ∧ f = ⟨entry.2.1, entry.2.2, true⟩) ∧
      (teIsBuiltin U (name.take len) = true ↔ (findBuiltin (U := U) name len).isSome = true) := by
  refine ⟨findBuiltin_name h, ?_⟩
  rw [teIsBuiltin_iff h.cString, Option.isSome_iff_exists]
  simp only [findBuiltin_name h]
  constructor
  · intro hmem
    obtain ⟨entry, hentry, heq⟩ := List.mem_map.mp hmem
    exact ⟨_, entry, hentry, heq, rfl⟩
  · rintro ⟨f, entry, hentry, heq, -⟩
    exact List.mem_map.mpr ⟨entry, hentry, heq⟩

theorem findBuiltin_spec_example :
    findBuiltin (U := Empty) "pow(x, 2)".toList 3 = some ⟨.pow, 2, true⟩ := by
  have h : IsName "pow(x, 2)".toList 3 := isName_takeWhile "pow(x, 2)".toList
  exact ((findBuiltin_spec h).1 _).mpr ⟨("pow", .pow, 2), by decide, by decide, rfl⟩

end Uvrgw.Tinyexpr
