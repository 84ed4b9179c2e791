import Mathlib.Data.List.Basic

/-!
# Computations that record what they use

`uses` lists the accesses of a run in order. A safety property of accesses is a property of all of them.
-/

namespace Uvrgw.Lib

structure Traced (ι α : Type) where
  uses : List ι
  val : α
  deriving DecidableEq, Repr

namespace Traced

variable {ι α β : Type}

instance : Monad (Traced ι) where
  pure a := ⟨[], a⟩
  bind x f := ⟨x.uses ++ (f x.val).uses, (f x.val).val⟩

instance : LawfulMonad (Traced ι) :=
  LawfulMonad.mk' (m := Traced ι) (fun x => by simp [Functor.map])
    (fun _ _ => rfl) (fun x f g => by simp [bind, List.append_assoc])

/-- One access, with the value it finds. -/
def use (i : ι) (a : α) : Traced ι α := ⟨[i], a⟩

def All (P : ι → Prop) (x : Traced ι α) : Prop := ∀ i ∈ x.uses, P i

variable {P : ι → Prop}

@[simp] theorem all_pure (a : α) : (pure a : Traced ι α).All P ↔ True := by
  simp [All, pure]

@[simp] theorem all_use (i : ι) (a : α) : (use i a).All P ↔ P i := by
  simp [All, use]

@[simp] theorem all_bind (x : Traced ι α) (f : α → Traced ι β) :
    (x >>= f).All P ↔ x.All P ∧ (f x.val).All P := by
  simp only [All, bind, List.mem_append]
  constructor
  · intro h
    exact ⟨fun i hi => h i (.inl hi), fun i hi => h i (.inr hi)⟩
  · rintro ⟨hx, hf⟩ i (hi | hi)
    · exact hx i hi
    · exact hf i hi

@[simp] theorem all_map (x : Traced ι α) (f : α → β) : (f <$> x).All P ↔ x.All P := by
  simp [All, Functor.map]

@[simp] theorem val_pure (a : α) : (pure a : Traced ι α).val = a := rfl

@[simp] theorem val_use (i : ι) (a : α) : (use i a).val = a := rfl

@[simp] theorem val_bind (x : Traced ι α) (f : α → Traced ι β) : (x >>= f).val = (f x.val).val := rfl

@[simp] theorem val_map (x : Traced ι α) (f : α → β) : (f <$> x).val = f x.val := rfl

theorem all_mapM (f : α → Traced ι β) (l : List α) : (l.mapM f).All P ↔ ∀ a ∈ l, (f a).All P := by
  induction l with
  | nil => simp
  | cons a l ih => simp [List.mapM_cons, ih]

theorem val_mapM (f : α → Traced ι β) (l : List α) : (l.mapM f).val = l.map fun a => (f a).val := by
  induction l with
  | nil => rfl
  | cons a l ih => simp [List.mapM_cons, ih]

end Traced

end Uvrgw.Lib
