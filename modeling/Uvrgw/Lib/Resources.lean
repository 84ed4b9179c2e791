import Mathlib.Data.List.Range

/-!
# Resources that are taken and given back

A program that takes resources and gives them back keeps a log of it. The rules say what a resource
needs; a log that follows them never has a resource without what it needs.
-/

namespace Uvrgw.Lib.Resources

variable {R E α : Type}

/-! ## What is held -/

abbrev Held (R : Type) := R → Bool

inductive Act (R E : Type) where
  | take (r : R)
  | drop (r : R)
  | event (e : E)

section Held

variable [DecidableEq R]

def Held.add (held : Held R) (l : List R) : Held R := fun r => held r || decide (r ∈ l)

def Held.remove (held : Held R) (l : List R) : Held R := fun r => held r && !decide (r ∈ l)

def Held.after (held : Held R) : Act R E → Held R
  | .take r => held.add [r]
  | .drop r => held.remove [r]
  | .event _ => held

def Held.afterAll (held : Held R) (acts : List (Act R E)) : Held R := acts.foldl Held.after held

variable {held : Held R} {l m : List R} {r : R}

theorem Held.add_eq_true : held.add l r = true ↔ held r = true ∨ r ∈ l := by simp [Held.add]

theorem Held.remove_eq_true : held.remove l r = true ↔ held r = true ∧ r ∉ l := by simp [Held.remove]

theorem Held.add_of_notMem (h : r ∉ l) : held.add l r = held r := by simp [Held.add, h]

theorem Held.remove_of_notMem (h : r ∉ l) : held.remove l r = held r := by simp [Held.remove, h]

theorem Held.remove_of_mem (h : r ∈ l) : held.remove l r = false := by simp [Held.remove, h]

theorem Held.add_nil : held.add [] = held := by
  funext r
  simp [Held.add]

theorem Held.remove_nil : held.remove [] = held := by
  funext r
  simp [Held.remove]

theorem Held.add_add : (held.add l).add m = held.add (l ++ m) := by
  funext r
  simp [Held.add, Bool.or_assoc]

theorem Held.remove_remove : (held.remove l).remove m = held.remove (l ++ m) := by
  funext r
  simp [Held.remove, Bool.and_assoc]

theorem Held.remove_congr (h : ∀ r, r ∈ l ↔ r ∈ m) : held.remove l = held.remove m := by
  funext r
  simp [Held.remove, h r]

/-- What was taken and given back was not held before. -/
theorem Held.add_remove (hlm : ∀ r ∈ l, r ∈ m) (hm : ∀ r ∈ m, held r = false) : (held.add l).remove m = held := by
  funext r
  by_cases hr : r ∈ m
  · rw [remove_of_mem hr, hm r hr]
  · rw [remove_of_notMem hr, add_of_notMem fun h => hr (hlm r h)]

theorem Held.remove_of_free (h : ∀ r ∈ l, held r = false) : held.remove l = held := by
  funext r
  by_cases hr : r ∈ l
  · rw [remove_of_mem hr, h r hr]
  · exact remove_of_notMem hr

end Held

/-! ## Rules -/

structure Rules (R E : Type) where
  /-- A resource is held only while those that it needs are held. -/
  needs : R → R → Prop
  /-- The second resource is not given back while the first one is held. -/
  uses : R → R → Prop
  allows : E → Held R → Prop

variable [DecidableEq R]

def Legal (rules : Rules R E) (held : Held R) : Act R E → Prop
  | .take r => held r = false ∧ ∀ q, rules.needs r q → held q = true
  | .drop r => held r = true ∧ ∀ q, rules.needs q r ∨ rules.uses q r → held q = false
  | .event e => rules.allows e held

def LegalRun (rules : Rules R E) : Held R → List (Act R E) → Prop
  | _, [] => True
  | held, a :: acts => Legal rules held a ∧ LegalRun rules (held.after a) acts

variable {rules : Rules R E} {held : Held R} {acts acts' : List (Act R E)}

theorem legalRun_append : LegalRun rules held (acts ++ acts') ↔
    LegalRun rules held acts ∧ LegalRun rules (held.afterAll acts) acts' := by
  induction acts generalizing held with
  | nil => simp [LegalRun, Held.afterAll]
  | cons a acts ih =>
    rw [List.cons_append, LegalRun, LegalRun, ih, and_assoc]
    rfl

/-- No resource is held without those that it needs. -/
def Sound (rules : Rules R E) (held : Held R) : Prop :=
  ∀ r q, held r = true → rules.needs r q → held q = true

theorem Sound.after {a : Act R E} (h : Sound rules held) (ha : Legal rules held a) :
    Sound rules (held.after a) := by
  intro r q hr hneeds
  cases a with
  | take t =>
    rw [Held.after, Held.add_eq_true] at hr ⊢
    rcases hr with hr | hr
    · exact .inl (h r q hr hneeds)
    · rw [List.mem_singleton.mp hr] at hneeds
      exact .inl (ha.2 q hneeds)
  | drop t =>
    rw [Held.after, Held.remove_eq_true] at hr ⊢
    refine ⟨h r q hr.1 hneeds, fun hq => ?_⟩
    rw [List.mem_singleton.mp hq] at hneeds
    rw [ha.2 r (.inl hneeds)] at hr
    cases hr.1
  | event e => exact h r q hr hneeds

/-- **Safety.** At no point of a log that follows the rules a resource is held without those that it needs. -/
theorem LegalRun.sound (h : LegalRun rules held acts) (hheld : Sound rules held)
    {before after : List (Act R E)} (hacts : acts = before ++ after) : Sound rules (held.afterAll before) := by
  subst hacts
  replace h := (legalRun_append.mp h).1
  induction before generalizing held with
  | nil => exact hheld
  | cons a before ih => exact ih (hheld.after h.1) h.2

/-- How often a resource is taken. -/
def takes (r : R) (acts : List (Act R E)) : Nat :=
  acts.countP fun | .take q => q = r | _ => false

def drops (r : R) (acts : List (Act R E)) : Nat :=
  acts.countP fun | .drop q => q = r | _ => false

/-- **Balance.** What is held has been taken once more than given back. -/
theorem LegalRun.balance (h : LegalRun rules held acts) (r : R) :
    takes r acts + (held r).toNat = drops r acts + (held.afterAll acts r).toNat := by
  induction acts generalizing held with
  | nil => rfl
  | cons a acts ih =>
    have ih := ih h.2
    change _ = _ + ((held.after a).afterAll acts r).toNat
    cases a with
    | take q =>
      have hq : held q = false := h.1.1
      by_cases hqr : q = r
      · subst hqr
        simp [takes, drops, Held.after, Held.add, hq] at ih ⊢
        omega
      · have hmem : r ∉ [q] := fun hr => hqr (List.mem_singleton.mp hr).symm
        rw [Held.after, Held.add_of_notMem hmem] at ih
        simpa [takes, drops, hqr, Held.after] using ih
    | drop q =>
      have hq : held q = true := h.1.1
      by_cases hqr : q = r
      · subst hqr
        simp [takes, drops, Held.after, Held.remove, hq] at ih ⊢
        omega
      · have hmem : r ∉ [q] := fun hr => hqr (List.mem_singleton.mp hr).symm
        rw [Held.after, Held.remove_of_notMem hmem] at ih
        simpa [takes, drops, hqr, Held.after] using ih
    | event e => simpa [takes, drops, Held.after] using ih

/-! ## The book of a program -/

/-- What a program holds, and what it did. -/
structure Book (R E : Type) where
  held : Held R := fun _ => false
  log : List (Act R E) := []

namespace Book

def act (b : Book R E) (a : Act R E) : Book R E := ⟨b.held.after a, b.log ++ [a]⟩

def take (b : Book R E) (r : R) : Book R E := b.act (.take r)

def drop (b : Book R E) (r : R) : Book R E := b.act (.drop r)

/-- Give a resource back if it is held. -/
def release (b : Book R E) (r : R) : Book R E := if b.held r then b.drop r else b

end Book

/-- From one book to a later one by the rules. -/
def Goes (rules : Rules R E) (b c : Book R E) : Prop :=
  ∃ acts, c.log = b.log ++ acts ∧ LegalRun rules b.held acts ∧ c.held = b.held.afterAll acts

variable {b c d : Book R E}

theorem Goes.refl (b : Book R E) : Goes rules b b := ⟨[], (List.append_nil _).symm, trivial, rfl⟩

theorem Goes.trans (h : Goes rules b c) (h' : Goes rules c d) : Goes rules b d := by
  obtain ⟨l, hl, hlegal, hheld⟩ := h
  obtain ⟨m, hm, hlegal', hheld'⟩ := h'
  refine ⟨l ++ m, by rw [hm, hl, List.append_assoc], legalRun_append.mpr ⟨hlegal, hheld ▸ hlegal'⟩, ?_⟩
  rw [hheld', hheld, Held.afterAll, Held.afterAll, Held.afterAll, List.foldl_append]

theorem goes_act {a : Act R E} (h : Legal rules b.held a) : Goes rules b (b.act a) :=
  ⟨[a], rfl, ⟨h, trivial⟩, rfl⟩

theorem goes_take {r : R} (hr : b.held r = false) (hneeds : ∀ q, rules.needs r q → b.held q = true) :
    Goes rules b (b.take r) := goes_act ⟨hr, hneeds⟩

theorem goes_drop {r : R} (hr : b.held r = true)
    (husers : ∀ q, rules.needs q r ∨ rules.uses q r → b.held q = false) : Goes rules b (b.drop r) :=
  goes_act ⟨hr, husers⟩

@[simp] theorem Book.take_held (b : Book R E) (r : R) : (b.take r).held = b.held.add [r] := rfl

@[simp] theorem Book.drop_held (b : Book R E) (r : R) : (b.drop r).held = b.held.remove [r] := rfl

@[simp] theorem Book.release_held (b : Book R E) (r : R) : (b.release r).held = b.held.remove [r] := by
  unfold Book.release
  split
  · rfl
  · rename_i h
    refine (Held.remove_of_free fun q hq => ?_).symm
    rw [List.mem_singleton.mp hq]
    simpa using h

theorem goes_release {r : R} (husers : ∀ q, rules.needs q r ∨ rules.uses q r → b.held q = false) :
    Goes rules b (b.release r) := by
  unfold Book.release
  split
  · exact goes_drop ‹_› husers
  · exact .refl b

/-- Taking something and giving it back at once. -/
theorem take_drop_held {r : R} (hr : b.held r = false) : ((b.take r).drop r).held = b.held :=
  Held.add_remove (fun _ h => h) fun _ h => List.mem_singleton.mp h ▸ hr

/-! ## Parts -/

/-- Start one part after the other, until one fails. -/
def startAll (one : α → Book R E → Bool × Book R E) : List α → Book R E → Bool × Book R E
  | [], b => (true, b)
  | a :: l, b =>
    match one a b with
    | (true, b) => startAll one l b
    | (false, b) => (false, b)

def stopAll (one : α → Book R E → Book R E) (l : List α) (b : Book R E) : Book R E := l.foldl (fun b a => one a b) b

/-- A start takes `up`, or fails and leaves nothing behind. -/
def Starts (rules : Rules R E) (up : List R) (b : Book R E) (result : Bool × Book R E) : Prop :=
  Goes rules b result.2 ∧ result.2.held = if result.1 then b.held.add up else b.held

/-- Where `ready` is all that a part needs beside its own resources, the parts start one after the other; those
before a failing one stay up. -/
theorem startAll_spec (rules : Rules R E) (one : α → Book R E → Bool × Book R E) (up own : α → List R)
    (ready : Held R → Prop) {l : List α} (hmono : ∀ a ∈ l, ∀ held, ready held → ready (held.add (up a)))
    (hone : ∀ a ∈ l, ∀ b : Book R E, ready b.held → (∀ r ∈ own a, b.held r = false) → Starts rules (up a) b (one a b))
    (hdisjoint : l.Pairwise fun a a' => ∀ r ∈ up a, r ∉ own a') {b : Book R E} (hb : ready b.held)
    (hfree : ∀ a ∈ l, ∀ r ∈ own a, b.held r = false) :
    Goes rules b (startAll one l b).2 ∧ ∃ k, (startAll one l b).2.held = b.held.add ((l.take k).flatMap up) ∧
      ((startAll one l b).1 = true → k = l.length) := by
  induction l generalizing b with
  | nil => exact ⟨.refl b, 0, Held.add_nil.symm, fun _ => rfl⟩
  | cons a l ih =>
    obtain ⟨hgoes, hheld⟩ := hone a List.mem_cons_self b hb (hfree a List.mem_cons_self)
    rw [List.pairwise_cons] at hdisjoint
    unfold startAll
    cases hone' : one a b with
    | mk ok c =>
      rw [hone'] at hgoes hheld
      cases ok with
      | false => exact ⟨hgoes, 0, by rw [hheld]; exact Held.add_nil.symm, fun h => absurd h (by simp)⟩
      | true =>
        have hheld : c.held = b.held.add (up a) := hheld
        have hfree' : ∀ a' ∈ l, ∀ r ∈ own a', c.held r = false := by
          intro a' ha' r hr
          rw [hheld, Held.add_of_notMem fun h => hdisjoint.1 a' ha' r h hr]
          exact hfree a' (List.mem_cons_of_mem _ ha') r hr
        obtain ⟨hgoes', k, hk, hok⟩ := ih (fun a' ha' => hmono a' (List.mem_cons_of_mem _ ha'))
          (fun a' ha' => hone a' (List.mem_cons_of_mem _ ha')) hdisjoint.2
          (hheld ▸ hmono a List.mem_cons_self _ hb) hfree'
        refine ⟨hgoes.trans hgoes', k + 1, ?_, fun h => by rw [hok h]; rfl⟩
        rw [hk, hheld, Held.add_add, List.take_succ_cons, List.flatMap_cons]

omit [DecidableEq R] in
/-- What the first parts take is what the parts own. -/
theorem mem_part {up own : α → List R} (h : ∀ {a r}, r ∈ up a → r ∈ own a) {l : List α} {k : Nat} {r : R}
    (hr : r ∈ (l.take k).flatMap up) : r ∈ l.flatMap own := by
  obtain ⟨a, ha, hr⟩ := List.mem_flatMap.mp hr
  exact List.mem_flatMap.mpr ⟨a, List.mem_of_mem_take ha, h hr⟩

omit [DecidableEq R] in
theorem startAll_ok {one : α → Book R E → Bool × Book R E} {l : List α}
    (h : ∀ a ∈ l, ∀ b : Book R E, (one a b).1 = true) (b : Book R E) : (startAll one l b).1 = true := by
  induction l generalizing b with
  | nil => rfl
  | cons a l ih =>
    have ha := h a List.mem_cons_self b
    unfold startAll
    cases hone : one a b with
    | mk ok c =>
      rw [hone] at ha
      cases ha
      exact ih (fun a' ha' => h a' (List.mem_cons_of_mem _ ha')) c

/-- Where `quiet` is all that stopping a part asks for, the parts stop one after the other. -/
theorem stopAll_spec (rules : Rules R E) (one : α → Book R E → Book R E) (own : α → List R)
    (quiet : Held R → Prop) {l : List α} (hmono : ∀ a ∈ l, ∀ held, quiet held → quiet (held.remove (own a)))
    (hone : ∀ a ∈ l, ∀ b : Book R E, quiet b.held →
      Goes rules b (one a b) ∧ (one a b).held = b.held.remove (own a)) {b : Book R E} (hb : quiet b.held) :
    Goes rules b (stopAll one l b) ∧ (stopAll one l b).held = b.held.remove (l.flatMap own) := by
  induction l generalizing b with
  | nil => exact ⟨.refl b, Held.remove_nil.symm⟩
  | cons a l ih =>
    obtain ⟨hgoes, hheld⟩ := hone a List.mem_cons_self b hb
    obtain ⟨hgoes', hheld'⟩ := ih (fun a' ha' => hmono a' (List.mem_cons_of_mem _ ha'))
      (fun a' ha' => hone a' (List.mem_cons_of_mem _ ha')) (b := one a b) (hheld ▸ hmono a List.mem_cons_self _ hb)
    refine ⟨hgoes.trans hgoes', ?_⟩
    change (stopAll one l (one a b)).held = _
    rw [hheld', hheld, Held.remove_remove, List.flatMap_cons]

end Uvrgw.Lib.Resources
