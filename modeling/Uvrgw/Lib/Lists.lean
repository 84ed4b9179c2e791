import Mathlib.Data.List.Forall2
import Mathlib.Data.List.TakeDrop

/-! # Lists -/

namespace Uvrgw.Lib

variable {α β : Type}

theorem getElem?_mono {l m : List α} {k : Nat} {x : α} (h : l <+: m) (hx : l[k]? = some x) :
    m[k]? = some x := by
  obtain ⟨r, rfl⟩ := h
  exact (List.getElem?_append_left (List.getElem?_eq_some_iff.mp hx).1).trans hx

theorem mapM_eq_some {f : α → Option β} {l : List α} {m : List β} :
    l.mapM f = some m ↔ List.Forall₂ (fun a b => f a = some b) l m := by
  induction l generalizing m with
  | nil => simp [eq_comm]
  | cons a l ih =>
    simp only [List.mapM_cons, Option.pure_def, Option.bind_eq_bind, Option.bind_eq_some_iff,
      Option.some.injEq, List.forall₂_cons_left_iff, ih]
    constructor
    · rintro ⟨b, hb, m, hm, rfl⟩
      exact ⟨b, m, hb, hm, rfl⟩
    · rintro ⟨b, m, hb, hm, rfl⟩
      exact ⟨b, hb, m, hm, rfl⟩

theorem getElem?_forall₂ {R : α → β → Prop} {l : List α} {m : List β} (h : List.Forall₂ R l m) {i : Nat} {b : β}
    (hb : m[i]? = some b) : ∃ a, l[i]? = some a ∧ R a b := by
  induction h generalizing i with
  | nil => cases hb
  | @cons a b' l m ha _ ih =>
    cases i with
    | zero =>
      obtain rfl : b' = b := by simpa using hb
      exact ⟨a, rfl, ha⟩
    | succ i => simpa using ih (by simpa using hb)

theorem getElem?_mapM {f : α → Option β} {l : List α} {m : List β} (h : l.mapM f = some m) {i : Nat} {b : β}
    (hb : m[i]? = some b) : ∃ a, l[i]? = some a ∧ f a = some b :=
  getElem?_forall₂ (mapM_eq_some.mp h) hb

theorem mem_of_mapM {f : α → Option β} {l : List α} {m : List β} (h : l.mapM f = some m) {b : β}
    (hb : b ∈ m) : ∃ a ∈ l, f a = some b := by
  obtain ⟨i, hi⟩ := List.mem_iff_getElem?.mp hb
  obtain ⟨a, ha, hf⟩ := getElem?_mapM h hi
  exact ⟨a, List.mem_of_getElem? ha, hf⟩

theorem mapM_isSome {f : α → Option β} {l : List α} :
    (l.mapM f).isSome = true ↔ ∀ a ∈ l, (f a).isSome = true := by
  induction l with
  | nil => simp
  | cons a l ih =>
    rw [List.mapM_cons, List.forall_mem_cons, ← ih]
    cases f a <;> simp [Option.isSome_bind]

theorem getElem?_modify_eq_some {f : α → α} {l : List α} {i j : Nat} {b : α} :
    (l.modify i f)[j]? = some b ↔ ∃ a, l[j]? = some a ∧ (if i = j then f a else a) = b := by
  rw [List.getElem?_modify]
  exact Option.map_eq_some_iff

theorem span_append {p : α → Bool} {l rest : List α} (hl : ∀ c ∈ l, p c = true)
    (hrest : ∀ c ∈ rest.head?, p c = false) : (l ++ rest).span p = (l, rest) := by
  have hstop : rest.takeWhile p = [] ∧ rest.dropWhile p = rest := by
    cases rest with
    | nil => simp
    | cons c rest => simp [hrest c rfl]
  rw [List.span_eq_takeWhile_dropWhile, List.takeWhile_append_of_pos hl, List.dropWhile_append_of_pos hl,
    hstop.1, hstop.2, List.append_nil]

end Uvrgw.Lib
