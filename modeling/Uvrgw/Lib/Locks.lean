import Uvrgw.Lib.Acyclic
import Uvrgw.Lib.Run

/-!
# Threads that take locks

A path through the code is the list of its lock operations. A mutex is not recursive: a thread that
takes a lock it holds waits for itself.
-/

namespace Uvrgw.Lib

inductive LockAct (L : Type) where
  | acquire (lock : L)
  | release (lock : L)
  deriving DecidableEq, Repr

variable {L : Type} {rank : L → Nat}

/-! ## Nested sections -/

def guarded (l : L) (path : List (LockAct L)) : List (LockAct L) := .acquire l :: (path ++ [.release l])

/-- Sections one after the other, all locks from rank `b` on, and higher ones inside. -/
inductive Nested (rank : L → Nat) : Nat → List (LockAct L) → Prop
  | nil {b : Nat} : Nested rank b []
  | cons {b : Nat} {l : L} {inner rest : List (LockAct L)} (hb : b ≤ rank l)
      (hinner : Nested rank (rank l + 1) inner) (hrest : Nested rank b rest) :
      Nested rank b (guarded l inner ++ rest)

theorem Nested.guarded {b : Nat} {l : L} {inner : List (LockAct L)} (hb : b ≤ rank l)
    (h : Nested rank (rank l + 1) inner) : Nested rank b (guarded l inner) := by
  simpa using Nested.cons hb h .nil

theorem Nested.append {b : Nat} {p q : List (LockAct L)} (hp : Nested rank b p) (hq : Nested rank b q) :
    Nested rank b (p ++ q) := by
  induction hp with
  | nil => exact hq
  | cons hb hinner _ _ ih =>
    rw [List.append_assoc]
    exact .cons hb hinner (ih hq)

theorem Nested.flatMap {α : Type} {b : Nat} {f : α → List (LockAct L)} {l : List α}
    (h : ∀ a ∈ l, Nested rank b (f a)) : Nested rank b (l.flatMap f) := by
  induction l with
  | nil => exact .nil
  | cons a l ih =>
    rw [List.flatMap_cons]
    exact .append (h a List.mem_cons_self) (ih fun x hx => h x (List.mem_cons_of_mem _ hx))

theorem Nested.mono {b c : Nat} {p : List (LockAct L)} (h : Nested rank b p) (hcb : c ≤ b) : Nested rank c p := by
  induction h with
  | nil => exact .nil
  | cons hb hinner _ _ ih => exact .cons (hcb.trans hb) hinner (ih hcb)

variable [DecidableEq L]

/-! ## Paths -/

def held : (L → Bool) → List (LockAct L) → L → Bool
  | h, [] => h
  | h, .acquire l :: path => held (Function.update h l true) path
  | h, .release l :: path => held (Function.update h l false) path

/-- On some path `m` is acquired while `l` is held. -/
def AcquiredWhile (P : List (LockAct L) → Prop) (l m : L) : Prop :=
  ∃ p q, P (p ++ .acquire m :: q) ∧ held (fun _ => false) p l = true

/-- Every lock ranks above those that are held, is released by its holder, and none is left. -/
def Ordered (rank : L → Nat) : (L → Bool) → List (LockAct L) → Prop
  | h, [] => ∀ l, h l = false
  | h, .acquire m :: path => (∀ l, h l = true → rank l < rank m) ∧ Ordered rank (Function.update h m true) path
  | h, .release l :: path => h l = true ∧ Ordered rank (Function.update h l false) path

theorem Ordered.suffix {h : L → Bool} {p q : List (LockAct L)} (hpq : Ordered rank h (p ++ q)) :
    Ordered rank (held h p) q := by
  induction p generalizing h with
  | nil => exact hpq
  | cons a p ih =>
    cases a with
    | acquire m => exact ih hpq.2
    | release l => exact ih hpq.2

theorem AcquiredWhile.rank_lt {P : List (LockAct L) → Prop}
    (hP : ∀ path, P path → Ordered rank (fun _ => false) path) {l m : L} (h : AcquiredWhile P l m) :
    rank l < rank m := by
  obtain ⟨p, q, hpath, hl⟩ := h
  exact (hP _ hpath).suffix.1 l hl

/-- Below rank `b` the environment holds what it likes; the path gives back all it takes. -/
theorem Nested.ordered {b : Nat} {p q : List (LockAct L)} (hp : Nested rank b p) {h : L → Bool}
    (hh : ∀ l, h l = true → rank l < b) (hq : Ordered rank h q) : Ordered rank h (p ++ q) := by
  induction hp generalizing h q with
  | nil => exact hq
  | @cons b l inner rest hb _ _ ihinner ihrest =>
    have hl : h l = false := by
      cases hx : h l with
      | false => rfl
      | true => exact absurd (hh l hx) (by omega)
    have hback : Function.update (Function.update h l true) l false = h := by
      rw [Function.update_idem, ← hl, Function.update_eq_self]
    have heq : Lib.guarded l inner ++ rest ++ q = .acquire l :: (inner ++ (.release l :: (rest ++ q))) := by
      simp [Lib.guarded]
    rw [heq]
    refine ⟨fun x hx => (hh x hx).trans_le hb, ihinner (fun x hx => ?_) ⟨Function.update_self .., ?_⟩⟩
    · by_cases hxl : x = l
      · rw [hxl]
        exact Nat.lt_succ_self _
      · rw [Function.update_of_ne hxl] at hx
        have := hh x hx
        omega
    · rw [hback]
      exact ihrest hh hq

theorem Nested.path {p : List (LockAct L)} (h : Nested rank 0 p) : Ordered rank (fun _ => false) p := by
  have := h.ordered (h := fun _ => false) (q := []) (by simp) fun _ => rfl
  rwa [List.append_nil] at this

/-! ## Threads -/

structure Threads (ι L : Type) where
  /-- What is left of the current path of each thread. -/
  rest : ι → List (LockAct L)
  owner : L → Option ι

inductive ThreadAct (ι L : Type) where
  /-- A thread begins a path. -/
  | start (t : ι) (path : List (LockAct L))
  | next (t : ι)

variable {ι : Type} [DecidableEq ι]

namespace Threads

def init : Threads ι L where
  rest := fun _ => []
  owner := fun _ => none

def step (s : Threads ι L) : ThreadAct ι L → Option (Threads ι L)
  | .start t path =>
    match s.rest t with
    | [] => some { s with rest := Function.update s.rest t path }
    | _ => none
  | .next t =>
    match s.rest t with
    | [] => none
    | .acquire l :: path =>
      match s.owner l with
      | none => some { rest := Function.update s.rest t path, owner := Function.update s.owner l (some t) }
      | some _ => none
    | .release l :: path => some { rest := Function.update s.rest t path, owner := Function.update s.owner l none }

def Runs (P : List (LockAct L) → Prop) (_ : Threads ι L) : ThreadAct ι L → Prop
  | .start _ path => P path
  | .next _ => True

/-- The thread cannot go on before `l` is released. -/
def Waits (s : Threads ι L) (t : ι) (l : L) : Prop :=
  (∃ path, s.rest t = .acquire l :: path) ∧ (s.owner l).isSome = true

/-- All threads of `D` wait for locks that threads of `D` hold. -/
def Deadlocked (s : Threads ι L) (D : Set ι) : Prop :=
  D.Nonempty ∧ ∀ t ∈ D, ∃ l, s.Waits t l ∧ ∃ u ∈ D, s.owner l = some u

/-- What a thread holds, it has taken in order. -/
def InOrder (rank : L → Nat) (s : Threads ι L) : Prop :=
  ∀ t, Ordered rank (fun l => decide (s.owner l = some t)) (s.rest t)

theorem InOrder.init : InOrder rank (init : Threads ι L) := fun _ _ => rfl

theorem holds_update (owner : L → Option ι) (l : L) (o : Option ι) (t : ι) :
    (fun x => decide (Function.update owner l o x = some t)) =
      Function.update (fun x => decide (owner x = some t)) l (decide (o = some t)) := by
  funext x
  by_cases hx : x = l
  · subst hx
    rw [Function.update_self, Function.update_self]
  · rw [Function.update_of_ne hx, Function.update_of_ne hx]

/-- A lock that passes between others is nothing to this thread. -/
theorem holds_other {owner : L → Option ι} {l : L} {o : Option ι} {t : ι} (hl : owner l ≠ some t) (ho : o ≠ some t) :
    (fun x => decide (Function.update owner l o x = some t)) = fun x => decide (owner x = some t) := by
  have hf : decide (owner l = some t) = false := decide_eq_false hl
  rw [holds_update, decide_eq_false ho, ← hf, Function.update_eq_self]

/-- A change that only one thread sees. -/
theorem InOrder.update {s : Threads ι L} (h : InOrder rank s) {t : ι} {path : List (LockAct L)} {owner : L → Option ι}
    (ht : Ordered rank (fun l => decide (owner l = some t)) path)
    (hother : ∀ u ≠ t, (fun l => decide (owner l = some u)) = fun l => decide (s.owner l = some u)) :
    InOrder rank { rest := Function.update s.rest t path, owner := owner } := by
  intro u
  by_cases hut : u = t
  · subst hut
    simp only [Function.update_self]
    exact ht
  · simp only [Function.update_of_ne hut, hother u hut]
    exact h u

theorem InOrder.step {P : List (LockAct L) → Prop} (hP : ∀ path, P path → Ordered rank (fun _ => false) path)
    {s s' : Threads ι L} {a : ThreadAct ι L} (h : InOrder rank s) (ha : Runs P s a) (hst : s.step a = some s') :
    InOrder rank s' := by
  cases a with
  | start t path =>
    simp only [Threads.step] at hst
    split at hst <;> cases hst
    rename_i hrest
    -- a thread without a path holds nothing
    have ht := h t
    rw [hrest] at ht
    refine h.update ?_ fun _ _ => rfl
    rw [funext ht]
    exact hP path ha
  | next t =>
    have ht := h t
    simp only [Threads.step] at hst
    split at hst
    · cases hst
    · rename_i l path hrest
      split at hst <;> cases hst
      rename_i hfree
      rw [hrest] at ht
      refine h.update ?_ fun u hut => holds_other (by simp [hfree]) (by simpa using Ne.symm hut)
      rw [holds_update, decide_eq_true rfl]
      exact ht.2
    · rename_i l path hrest
      cases hst
      rw [hrest] at ht
      have howner : s.owner l = some t := by simpa using ht.1
      refine h.update ?_ fun u hut => holds_other (by simpa [howner] using Ne.symm hut) (by simp)
      rw [holds_update, decide_eq_false (Option.some_ne_none t).symm]
      exact ht.2

theorem InOrder.waits {s : Threads ι L} (h : InOrder rank s) {t : ι} {l m : L} (hw : s.Waits t m)
    (hl : s.owner l = some t) : rank l < rank m := by
  obtain ⟨⟨path, hrest⟩, -⟩ := hw
  have ht := h t
  rw [hrest] at ht
  exact ht.1 l (by simpa using hl)

/-- With bounded ranks no set of threads waits for itself. -/
theorem InOrder.not_deadlocked {s : Threads ι L} (h : InOrder rank s) {n : Nat} (hn : ∀ l, rank l ≤ n) (D : Set ι) :
    ¬ s.Deadlocked D := by
  rintro ⟨⟨t₀, ht₀⟩, hD⟩
  -- the locks that are waited for climb for ever
  have hclimb : ∀ k, ∃ t ∈ D, ∃ l, s.Waits t l ∧ k ≤ rank l := by
    intro k
    induction k with
    | zero =>
      obtain ⟨l, hw, -⟩ := hD t₀ ht₀
      exact ⟨t₀, ht₀, l, hw, Nat.zero_le _⟩
    | succ k ih =>
      obtain ⟨t, ht, l, hw, hk⟩ := ih
      obtain ⟨l', hw', u, hu, howner⟩ := hD t ht
      obtain rfl : l = l' := by
        obtain ⟨⟨p, hp⟩, -⟩ := hw
        obtain ⟨⟨q, hq⟩, -⟩ := hw'
        rw [hp] at hq
        exact LockAct.acquire.inj (List.cons.inj hq).1
      obtain ⟨m, hwu, -⟩ := hD u hu
      exact ⟨u, hu, m, hwu, hk.trans_lt (h.waits hwu howner)⟩
  obtain ⟨t, -, l, -, hk⟩ := hclimb (n + 1)
  have := hn l
  omega

/-- No interleaving of ordered paths has a deadlock. -/
theorem run_not_deadlocked {P : List (LockAct L) → Prop} (hP : ∀ path, P path → Ordered rank (fun _ => false) path)
    {n : Nat} (hn : ∀ l, rank l ≤ n) {acts : List (ThreadAct ι L)} {s : Threads ι L} (hrun : Run step init acts s)
    (hacts : Meets step (Runs P) init acts) (D : Set ι) : ¬ s.Deadlocked D := by
  have hinv : InOrder rank s :=
    hrun.invariant_of_meets (fun _ _ _ h ha hst => h.step hP ha hst) hacts InOrder.init
  exact hinv.not_deadlocked hn D

end Threads

end Uvrgw.Lib
