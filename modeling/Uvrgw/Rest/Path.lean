import Uvrgw.Lib.Strtol

/-!
# JSON paths (`rest.c`)

The lookup of a path in a document of json-c. A pointer to a node is modelled by the tree below it and its
place in the document, so that equal nodes at different places stay different.
-/

namespace Uvrgw.Rest

open Uvrgw.Lib

/-! ## Documents -/

inductive Json where
  | null
  | boolean (b : Bool)
  | number (q : ℚ)
  | string (s : List Char)
  | array (elems : List Json)
  | object (members : List (List Char × Json))

/-- A `json_object *`; a JSON null is a `NULL`. -/
structure Node where
  json : Json
  place : List Nat

def Json.isNull : Json → Bool
  | null => true
  | _ => false

def Node.isNull (n : Node) : Bool := n.json.isNull

def Node.child (n : Node) (i : Nat) (json : Json) : Node := ⟨json, n.place ++ [i]⟩

/-- `json_object_array_get_idx`; `none` is a `NULL`. -/
def jsonObjectArrayGetIdx (n : Node) (i : Nat) : Option Node :=
  match n.json with
  | .array elems => elems[i]?.map (n.child i)
  | _ => none

/-- `json_object_object_get_ex`: the member, if there is one. -/
def jsonObjectObjectGetEx (n : Node) (key : List Char) : Option Node :=
  match n.json with
  | .object members =>
    (members.findIdx? (·.1 = key)).bind fun i => members[i]?.map fun m => n.child i m.2
  | _ => none

def Json.isArray : Json → Bool
  | array _ => true
  | _ => false

/-! ## The lookup -/

def parseIndex (s : List Char) : Int :=
  match strtol decimal s with
  | (v, []) => if toInt v < 0 then -1 else toInt v
  | _ => -1

def lookupStep (root : Node) (path : List Char) : Option Node :=
  if root.json.isArray then
    let i := parseIndex path
    if i < 0 then none
    else (jsonObjectArrayGetIdx root i.toNat).filter fun val => !val.isNull
  else jsonObjectObjectGetEx root path

/-- `json_path_lookup_recursive`; `none` and a null are `NULL`. -/
def jsonPathLookupRecursive (root : Node) (path : List Char) : Option Node :=
  match _hsep : path.dropWhile (· ≠ '.') with
  | [] => lookupStep root path
  | _ :: rest => (lookupStep root (path.takeWhile (· ≠ '.'))).bind fun val => jsonPathLookupRecursive val rest
termination_by path.length
decreasing_by
  have := List.length_dropWhile_le (· ≠ '.') path
  rw [_hsep, List.length_cons] at this
  omega

def jsonPathLookup (root : Json) (path : List Char) : Option Node :=
  (jsonPathLookupRecursive ⟨root, []⟩ path).filter fun val => !val.isNull

/-! ## Selection -/

/-- The child of `root` that a component selects, its indexes read by `R`. -/
inductive Select (R : List Char → Int → Prop) (root : Node) (comp : List Char) : Node → Prop
  | member {v : Node} (h : jsonObjectObjectGetEx root comp = some v) : Select R root comp v
  | element {v : Node} {i : Nat} (hi : R comp i) (h : jsonObjectArrayGetIdx root i = some v) : Select R root comp v

/-- The components select `w`, step by step from the root. -/
inductive SelectPath (R : List Char → Int → Prop) : Node → List (List Char) → Node → Prop
  | nil (root : Node) : SelectPath R root [] root
  | cons {root v w : Node} {comp : List Char} {comps : List (List Char)} (h : Select R root comp v)
      (hs : SelectPath R v comps w) : SelectPath R root (comp :: comps) w

/-- Digits that an `int` holds. -/
def Plain (comp : List Char) (i : Int) : Prop := decimal.Digits comp i ∧ i < 2 ^ 31

/-- A way from `root` along the components to a node, on which an array meets an index that is not plain. -/
inductive Astray : Node → List (List Char) → Prop
  /-- The first such index is loose, and the rest leads to a node, its indexes plain or loose. -/
  | loose {root v w : Node} {comp : List Char} {comps : List (List Char)} {i : Nat} (hi : decimal.Loose comp i)
      (h : jsonObjectArrayGetIdx root i = some v) (hs : SelectPath decimal.Spelled v comps w)
      (hw : w.isNull = false) : Astray root (comp :: comps)
  /-- It is the number of an element that an `int` does not hold, and the rest leads to a node, its indexes digits. -/
  | huge {root v w : Node} {comp : List Char} {comps : List (List Char)} {i : Nat} (hi : decimal.Digits comp i)
      (hhuge : 2 ^ 31 ≤ i) (h : jsonObjectArrayGetIdx root i = some v) (hs : SelectPath decimal.Digits v comps w)
      (hw : w.isNull = false) : Astray root (comp :: comps)
  | later {root v : Node} {comp : List Char} {comps : List (List Char)} (h : Select Plain root comp v)
      (hs : Astray v comps) : Astray root (comp :: comps)

/-! ### Places -/

def Node.child? (n : Node) (i : Nat) : Option Node :=
  match n.json with
  | .array elems => elems[i]?.map (n.child i)
  | .object members => members[i]?.map fun m => n.child i m.2
  | _ => none

theorem child?_place {n v : Node} {i : Nat} (h : n.child? i = some v) : v.place = n.place ++ [i] := by
  unfold Node.child? at h
  split at h
  · obtain ⟨_, -, rfl⟩ := Option.map_eq_some_iff.mp h
    rfl
  · obtain ⟨_, -, rfl⟩ := Option.map_eq_some_iff.mp h
    rfl
  · cases h

theorem arrayGetIdx_child {n v : Node} {i : Nat} (h : jsonObjectArrayGetIdx n i = some v) : n.child? i = some v := by
  unfold jsonObjectArrayGetIdx at h
  unfold Node.child?
  split at h
  · rename_i heq
    rw [heq]
    exact h
  · cases h

theorem objectGetEx_child {n v : Node} {key : List Char} (h : jsonObjectObjectGetEx n key = some v) :
    ∃ i, n.child? i = some v := by
  unfold jsonObjectObjectGetEx at h
  unfold Node.child?
  split at h
  · rename_i heq
    obtain ⟨i, -, hi⟩ := Option.bind_eq_some_iff.mp h
    rw [heq]
    exact ⟨i, hi⟩
  · cases h

theorem Select.child {R : List Char → Int → Prop} {root v : Node} {comp : List Char} (h : Select R root comp v) :
    ∃ i, root.child? i = some v := by
  cases h with
  | member h => exact objectGetEx_child h
  | element hi h => exact ⟨_, arrayGetIdx_child h⟩

theorem SelectPath.place {R : List Char → Int → Prop} {root w : Node} {comps : List (List Char)}
    (h : SelectPath R root comps w) : root.place <+: w.place := by
  induction h with
  | nil => exact List.prefix_refl _
  | cons h _ ih =>
    obtain ⟨i, hi⟩ := h.child
    exact (child?_place hi ▸ List.prefix_append _ _).trans ih

theorem child?_unique {root v v' w : Node} {i j : Nat} (hi : root.child? i = some v) (hj : root.child? j = some v')
    (hv : v.place <+: w.place) (hv' : v'.place <+: w.place) : i = j ∧ v = v' := by
  rw [child?_place hi] at hv
  rw [child?_place hj] at hv'
  have heq := (List.prefix_of_prefix_length_le hv hv' (by simp)).eq_of_length (by simp)
  obtain rfl : i = j := by simpa using List.append_cancel_left heq
  exact ⟨rfl, Option.some.inj (hi.symm.trans hj)⟩

/-! ## The lookup selects -/

theorem parseIndex_eq {s : List Char} {i : Nat} : parseIndex s = i ↔ decimal.Reads s i := by
  unfold parseIndex Radix.Reads
  constructor
  · intro h
    split at h
    · rename_i v hv
      split at h
      · omega
      · exact ⟨v, hv, h⟩
    · omega
  · rintro ⟨v, hv, hi⟩
    rw [hv]
    dsimp only
    rw [if_neg (by omega), hi]

theorem lookupStep_iff {root v : Node} {comp : List Char} (hv : v.isNull = false) :
    lookupStep root comp = some v ↔ Select decimal.Reads root comp v := by
  unfold lookupStep
  constructor
  · intro h
    split at h
    · dsimp only at h
      split at h
      · cases h
      · rename_i hi
        have hindex : parseIndex comp = ((parseIndex comp).toNat : Int) := by omega
        exact .element (parseIndex_eq.mp hindex) (Option.filter_eq_some_iff.mp h).1
    · exact .member h
  · intro h
    cases h with
    | member h =>
      rw [if_neg, h]
      intro harray
      unfold jsonObjectObjectGetEx at h
      unfold Json.isArray at harray
      split at harray
      · rename_i heq
        simp [heq] at h
      · cases harray
    | @element i hi h =>
      have harray : root.json.isArray = true := by
        unfold jsonObjectArrayGetIdx at h
        split at h
        · rename_i heq
          rw [heq]
          rfl
        · cases h
      dsimp only
      rw [if_pos harray, parseIndex_eq.mpr hi, if_neg (by omega), Int.toNat_natCast]
      exact Option.filter_eq_some_iff.mpr ⟨h, by simp [hv]⟩

theorem Select.not_null {R : List Char → Int → Prop} {root v : Node} {comp : List Char} (h : Select R root comp v) :
    root.isNull = false := by
  obtain ⟨i, hi⟩ := h.child
  unfold Node.isNull Json.isNull
  unfold Node.child? at hi
  split
  · rename_i heq
    simp [heq] at hi
  · rfl

theorem SelectPath.not_null {R : List Char → Int → Prop} {root w : Node} {comps : List (List Char)}
    (h : SelectPath R root comps w) (hw : w.isNull = false) : root.isNull = false := by
  cases h with
  | nil => exact hw
  | cons h _ => exact h.not_null

theorem lookupStep_not_null {root v : Node} {comp : List Char} (h : lookupStep root comp = some v) :
    root.isNull = false := by
  unfold Node.isNull Json.isNull
  split
  · rename_i heq
    simp [lookupStep, heq, Json.isArray, jsonObjectObjectGetEx] at h
  · rfl

def lookupAll (root : Node) : List (List Char) → Option Node
  | [] => some root
  | comp :: comps => (lookupStep root comp).bind fun val => lookupAll val comps

theorem lookupAll_not_null {root w : Node} {comps : List (List Char)} (h : lookupAll root comps = some w)
    (hw : w.isNull = false) : root.isNull = false := by
  cases comps with
  | nil =>
    cases h
    exact hw
  | cons comp comps =>
    obtain ⟨v, hv, -⟩ := Option.bind_eq_some_iff.mp h
    exact lookupStep_not_null hv

theorem lookupAll_iff {root w : Node} {comps : List (List Char)} (hw : w.isNull = false) :
    lookupAll root comps = some w ↔ SelectPath decimal.Reads root comps w := by
  induction comps generalizing root with
  | nil =>
    constructor
    · intro h
      cases h
      exact .nil w
    · intro h
      cases h
      rfl
  | cons comp comps ih =>
    constructor
    · intro h
      obtain ⟨v, hv, h⟩ := Option.bind_eq_some_iff.mp h
      exact .cons ((lookupStep_iff (lookupAll_not_null h hw)).mp hv) (ih.mp h)
    · intro h
      cases h with
      | cons hv hs => exact Option.bind_eq_some_iff.mpr ⟨_, (lookupStep_iff (hs.not_null hw)).mpr hv, ih.mpr hs⟩

theorem lookupRecursive_eq (root : Node) (path : List Char) :
    jsonPathLookupRecursive root path = lookupAll root (path.splitOn '.') := by
  have hsplit : path.takeWhile (· ≠ '.') ++ path.dropWhile (· ≠ '.') = path := List.takeWhile_append_dropWhile
  have hnot : '.' ∉ path.takeWhile (· ≠ '.') := fun h => by simpa using List.mem_takeWhile_imp h
  unfold jsonPathLookupRecursive
  split
  · rename_i hsep
    rw [hsep, List.append_nil] at hsplit
    rw [hsplit] at hnot
    rw [List.splitOn_eq_singleton hnot]
    simp [lookupAll]
  · rename_i sep rest hsep
    obtain rfl : sep = '.' := by
      have := List.head?_dropWhile_not (fun c : Char => decide (c ≠ '.')) path
      rw [hsep] at this
      simpa using this
    rw [hsep] at hsplit
    conv_rhs => rw [← hsplit]
    rw [List.splitOn_append_cons_self_of_not_mem hnot]
    unfold lookupAll
    congr 1
    funext val
    exact lookupRecursive_eq val rest
termination_by path.length
decreasing_by
  have := List.length_dropWhile_le (· ≠ '.') path
  rw [hsep, List.length_cons] at this
  omega

/-! ## When the indexes are read as written -/

/-- The way to a node does not depend on how the indexes are read. -/
theorem selectPath_same {R R' : List Char → Int → Prop} {root v w : Node} {comp : List Char}
    {comps : List (List Char)} (h : Select R root comp v) (hs : v.place <+: w.place)
    (hp : SelectPath R' root (comp :: comps) w) : SelectPath R' v comps w := by
  cases hp with
  | cons h' hs' =>
    obtain ⟨i, hi⟩ := h.child
    obtain ⟨j, hj⟩ := h'.child
    obtain ⟨-, rfl⟩ := child?_unique hi hj hs hs'.place
    exact hs'

theorem element_index {R R' : List Char → Int → Prop} {root v w : Node} {comp : List Char} {comps : List (List Char)}
    {i : Nat} (h : jsonObjectArrayGetIdx root i = some v) (hs : SelectPath R v comps w)
    (hp : SelectPath R' root (comp :: comps) w) : R' comp i := by
  cases hp with
  | cons h' hs' =>
    cases h' with
    | member h' =>
      unfold jsonObjectObjectGetEx at h'
      unfold jsonObjectArrayGetIdx at h
      split at h
      · rename_i heq
        simp [heq] at h'
      · cases h
    | element hj h' =>
      obtain ⟨rfl, -⟩ := child?_unique (arrayGetIdx_child h) (arrayGetIdx_child h') hs.place hs'.place
      exact hj

theorem Select.mono {R R' : List Char → Int → Prop} (hR : ∀ comp (i : Nat), R comp i → R' comp i) {root v : Node}
    {comp : List Char} (h : Select R root comp v) : Select R' root comp v := by
  cases h with
  | member h => exact .member h
  | element hi h => exact .element (hR comp _ hi) h

theorem SelectPath.mono {R R' : List Char → Int → Prop} (hR : ∀ comp (i : Nat), R comp i → R' comp i)
    {root w : Node} {comps : List (List Char)} (h : SelectPath R root comps w) : SelectPath R' root comps w := by
  induction h with
  | nil root => exact .nil root
  | cons h _ ih => exact .cons (h.mono hR) ih

theorem reads_index (comp : List Char) (i : Nat) : decimal.Reads comp i ↔ decimal.Spelled comp i :=
  reads_spelled (.inl rfl) (Int.natCast_nonneg i)

theorem Astray.differs {root : Node} {comps : List (List Char)} (h : Astray root comps) :
    ∃ w, w.isNull = false ∧
      ¬ (SelectPath decimal.Reads root comps w ↔ SelectPath decimal.Digits root comps w) := by
  have hdec : decimal.Standard := .inl rfl
  induction h with
  | @loose root v w comp comps i hi h hs hw =>
    refine ⟨w, hw, fun hiff => ?_⟩
    have hread : SelectPath decimal.Reads v comps w := hs.mono fun comp i => (reads_index comp i).mpr
    have hdigits := element_index h hread (hiff.mp (.cons (.element (hi.reads hdec) h) hread))
    obtain ⟨n, hn, hlt⟩ := hi.reads hdec
    have := toInt_lt n
    exact hi.not_digits hdec (by omega) hdigits
  | @huge root v w comp comps i hi hhuge h hs hw =>
    refine ⟨w, hw, fun hiff => ?_⟩
    obtain ⟨n, -, hn⟩ := element_index h hs (hiff.mpr (.cons (.element hi h) hs))
    have := toInt_lt n
    omega
  | @later root v comp comps h _ ih =>
    obtain ⟨w, hw, hne⟩ := ih
    have hr : Select decimal.Reads root comp v := h.mono fun comp i hi => hi.1.reads hdec hi.2
    have hd : Select decimal.Digits root comp v := h.mono fun comp i hi => hi.1
    refine ⟨w, hw, fun hiff => hne ⟨fun hs => ?_, fun hs => ?_⟩⟩
    · exact selectPath_same hr hs.place (hiff.mp (.cons hr hs))
    · exact selectPath_same hd hs.place (hiff.mpr (.cons hd hs))

theorem selectPath_iff {root w : Node} {comps : List (List Char)} (h : ¬ Astray root comps) (hw : w.isNull = false) :
    SelectPath decimal.Reads root comps w ↔ SelectPath decimal.Digits root comps w := by
  induction comps generalizing root with
  | nil =>
    constructor <;> intro hs <;> cases hs <;> exact .nil w
  | cons comp comps ih =>
    constructor
    · intro hs
      cases hs with
      | @cons _ v _ _ _ hstep hs =>
        have hplain : Select Plain root comp v := by
          cases hstep with
          | member hm => exact .member hm
          | @element i hi hget =>
            rcases (reads_index comp i).mp hi with hplain | hloose
            · exact .element hplain hget
            · exact absurd (.loose hloose hget (hs.mono fun comp i => (reads_index comp i).mp) hw) h
        exact .cons (hplain.mono fun comp i hi => hi.1) ((ih fun hlater => h (.later hplain hlater)).mp hs)
    · intro hs
      cases hs with
      | @cons _ v _ _ _ hstep hs =>
        have hplain : Select Plain root comp v := by
          cases hstep with
          | member hm => exact .member hm
          | @element i hi hget =>
            refine .element ⟨hi, ?_⟩ hget
            by_contra hhuge
            exact h (.huge hi (by omega) hget hs hw)
        refine .cons (hplain.mono fun comp i hi => ?_) ((ih fun hlater => h (.later hplain hlater)).mpr hs)
        exact hi.1.reads (.inl rfl) hi.2

/-- **The lookup is exact** as long as no way to a node leads through an array by an index that is not plain:
it finds the node that the components select, and `NULL` if they select none. -/
theorem jsonPathLookup_exact (root : Json) (path : List Char) :
    (∀ w, jsonPathLookup root path = some w ↔
        SelectPath decimal.Digits ⟨root, []⟩ (path.splitOn '.') w ∧ w.isNull = false) ↔
      ¬ Astray ⟨root, []⟩ (path.splitOn '.') := by
  have hlookup : ∀ w, jsonPathLookup root path = some w ↔
      SelectPath decimal.Reads ⟨root, []⟩ (path.splitOn '.') w ∧ w.isNull = false := by
    intro w
    unfold jsonPathLookup
    rw [Option.filter_eq_some_iff, lookupRecursive_eq, Bool.not_eq_true', and_congr_left_iff]
    exact fun hw => lookupAll_iff hw
  simp only [hlookup]
  constructor
  · intro hexact hastray
    obtain ⟨w, hw, hne⟩ := hastray.differs
    exact hne ⟨fun hs => ((hexact w).mp ⟨hs, hw⟩).1, fun hs => ((hexact w).mpr ⟨hs, hw⟩).1⟩
  · intro hplain w
    exact and_congr_left fun hw => selectPath_iff hplain hw

def readingsDoc : Json := .object [(['a'], .array [.number 5])]

/-- An empty component is read as index 0. -/
theorem empty_component :
    jsonPathLookup readingsDoc "a.".toList = some ⟨.number 5, [0, 0]⟩ ∧
      ¬ SelectPath decimal.Digits ⟨readingsDoc, []⟩ ("a.".toList.splitOn '.') ⟨.number 5, [0, 0]⟩ := by
  refine ⟨?_, fun h => ?_⟩
  · unfold jsonPathLookup
    rw [lookupRecursive_eq]
    rfl
  · have hmember : Select decimal.Digits ⟨readingsDoc, []⟩ ['a'] ⟨.array [.number 5], [0]⟩ := .member rfl
    have hindex := selectPath_same hmember (by decide) h
    exact (element_index (R := decimal.Reads) (i := 0) rfl (.nil _) hindex).1.1 rfl

end Uvrgw.Rest
