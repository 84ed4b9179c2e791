import Mathlib.Logic.Function.Basic

/-!
# Files

What is stored under each path. Every operation is atomic.
-/

namespace Uvrgw.Lib

/-- The text under each path that exists. -/
abbrev Files (Path : Type) : Type := Path → Option (List Char)

namespace Files

variable {Path : Type} [DecidableEq Path]

def write (fs : Files Path) (p : Path) (text : List Char) : Files Path := Function.update fs p (some text)

def unlink (fs : Files Path) (p : Path) : Files Path := Function.update fs p none

def rename (fs : Files Path) (p q : Path) : Option (Files Path) := (fs p).map ((fs.unlink p).write q)

@[simp] theorem write_self (fs : Files Path) (p : Path) (text : List Char) : fs.write p text p = some text := by
  simp [write]

theorem write_of_ne (fs : Files Path) {p r : Path} (text : List Char) (h : r ≠ p) : fs.write p text r = fs r := by
  simp [write, h]

theorem unlink_of_ne (fs : Files Path) {p r : Path} (h : r ≠ p) : fs.unlink p r = fs r := by
  simp [unlink, h]

variable {fs fs' : Files Path} {p q r : Path}

theorem rename_self (h : fs.rename p q = some fs') : fs' q = fs p := by
  obtain ⟨text, htext, rfl⟩ := Option.map_eq_some_iff.mp h
  rw [write_self, htext]

theorem rename_of_ne (h : fs.rename p q = some fs') (hp : r ≠ p) (hq : r ≠ q) : fs' r = fs r := by
  obtain ⟨text, -, rfl⟩ := Option.map_eq_some_iff.mp h
  rw [write_of_ne _ _ hq, unlink_of_ne _ hp]

end Files

end Uvrgw.Lib
