import Mathlib.Data.List.Basic

/-!
# Writing through a running pointer

The pointer starts in a buffer of equal elements. What the buffer holds is what was written so far, the
elements that were skipped included, and the start elements behind it.
-/

namespace Uvrgw.Lib

structure Cursor (α : Type) where
  buf : List α
  pos : Nat
  deriving DecidableEq, Repr

namespace Cursor

variable {α : Type}

/-- `*(p++) = a`. -/
def put (c : Cursor α) (a : α) : Cursor α := ⟨c.buf.set c.pos a, c.pos + 1⟩

def puts (c : Cursor α) (l : List α) : Cursor α := l.foldl put c

/-- `p += n`. -/
def skip (c : Cursor α) (n : Nat) : Cursor α := ⟨c.buf, c.pos + n⟩

/-- `done` is written or skipped, and `n` elements `z` are left. -/
structure At (z : α) (done : List α) (n : Nat) (c : Cursor α) : Prop where
  buf : c.buf = done ++ List.replicate n z
  pos : c.pos = done.length

variable {z : α} {done : List α} {n : Nat} {c : Cursor α}

theorem At.start (z : α) (n : Nat) : At z [] n ⟨List.replicate n z, 0⟩ := ⟨rfl, rfl⟩

theorem At.put (h : At z done (n + 1) c) (a : α) : At z (done ++ [a]) n (c.put a) := by
  obtain ⟨hbuf, hpos⟩ := h
  refine ⟨?_, ?_⟩
  · unfold Cursor.put
    dsimp only
    rw [hbuf, hpos, List.set_append_right _ _ (Nat.le_refl _), Nat.sub_self, List.replicate_succ]
    simp
  · simp [Cursor.put, hpos]

theorem At.puts {l : List α} {k : Nat} (h : At z done (k + n) c) (hl : l.length = k) :
    At z (done ++ l) n (c.puts l) := by
  subst hl
  induction l generalizing done n c with
  | nil => simpa [Cursor.puts] using h
  | cons a l ih =>
    rw [List.length_cons, Nat.add_right_comm] at h
    have hrest := ih (h.put a)
    rwa [List.append_assoc] at hrest

theorem At.skip {k : Nat} (h : At z done (k + n) c) : At z (done ++ List.replicate k z) n (c.skip k) := by
  obtain ⟨hbuf, hpos⟩ := h
  refine ⟨?_, ?_⟩
  · rw [List.append_assoc, List.replicate_append_replicate]
    exact hbuf
  · simp [Cursor.skip, hpos]

theorem At.full (h : At z done 0 c) : c.buf = done := by
  simpa using h.buf

end Cursor

end Uvrgw.Lib
