import Mathlib.Algebra.GroupWithZero.Nat
import Mathlib.Data.Finset.Card
import Mathlib.Data.List.Chain
import Mathlib.Logic.Relation
import Mathlib.Order.WellFounded

/-! # Relations without cycles -/

namespace Uvrgw.Lib

open Relation

variable {α : Type} {r : α → α → Prop}

/-- No way leads back to its start. -/
def Acyclic (r : α → α → Prop) : Prop := ∀ a, ¬ TransGen r a a

/-- No way leads out of the explored part, and none in it leads back to its start. -/
structure Explored (r : α → α → Prop) (S : α → Prop) : Prop where
  closed : ∀ a b, S a → r a b → S b
  acyclic : ∀ a, S a → ¬ TransGen r a a

theorem Explored.reach {S : α → Prop} (h : Explored r S) {a b : α} (ha : S a) (hab : ReflTransGen r a b) : S b := by
  induction hab with
  | refl => exact ha
  | tail _ hbc ih => exact h.closed _ _ ih hbc

theorem Explored.insert {S T : α → Prop} (h : Explored r S) {e : α} (he : ¬ S e) (hsucc : ∀ b, r e b → S b)
    (hT : ∀ a, T a ↔ a = e ∨ S a) : Explored r T := by
  constructor
  · intro a b ha hab
    rw [hT] at ha ⊢
    rcases ha with rfl | ha
    · exact .inr (hsucc b hab)
    · exact .inr (h.closed a b ha hab)
  · intro a ha hcycle
    rw [hT] at ha
    rcases ha with rfl | ha
    · obtain ⟨b, hab, hba⟩ := TransGen.head'_iff.mp hcycle
      exact he (h.reach (hsucc b hab) hba)
    · exact h.acyclic a ha hcycle

theorem reflTransGen_of_chain {l : List α} {a b : α} (h : (l ++ [b]).IsChain r) (ha : a ∈ l ++ [b]) :
    ReflTransGen r a b := by
  induction l generalizing a with
  | nil =>
    rw [List.mem_singleton.mp ha]
  | cons c l ih =>
    obtain ⟨hhead, hl⟩ := List.isChain_cons.mp h
    rcases List.mem_cons.mp ha with rfl | ha
    · obtain ⟨d, hd⟩ : ∃ d, (l ++ [b]).head? = some d := by
        cases l <;> exact ⟨_, rfl⟩
      exact .head (hhead d hd) (ih hl (List.mem_of_mem_head? hd))
    · exact ih hl ha

/-! ## Depth first search -/

/-- The way from the root to the current element, with all that has been left for good. -/
structure Trail (r : α → α → Prop) (path : List α) (done : α → Prop) : Prop where
  chain : path.IsChain r
  nodup : path.Nodup
  fresh : ∀ a ∈ path, ¬ done a
  explored : Explored r done

theorem Trail.nil {done : α → Prop} (h : Explored r done) : Trail r [] done where
  chain := .nil
  nodup := .nil
  fresh := by simp
  explored := h

theorem Trail.push {path : List α} {done : α → Prop} (h : Trail r path done) {a : α} (hpath : a ∉ path)
    (hdone : ¬ done a) (hlast : ∀ b ∈ path.getLast?, r b a) : Trail r (path ++ [a]) done where
  chain := List.isChain_append.mpr ⟨h.chain, .singleton a, fun b hb c hc => by
    obtain rfl : a = c := by simpa using hc
    exact hlast b hb⟩
  nodup := by
    rw [List.nodup_append_comm]
    exact List.nodup_cons.mpr ⟨hpath, h.nodup⟩
  fresh := by
    intro b hb
    rcases List.mem_append.mp hb with hb | hb
    · exact h.fresh b hb
    · exact List.mem_singleton.mp hb ▸ hdone
  explored := h.explored

/-- An element is left when all that it leads to has been. -/
theorem Trail.pop {path : List α} {done done' : α → Prop} {a : α} (h : Trail r (path ++ [a]) done)
    (hsucc : ∀ b, r a b → done b) (hdone : ∀ b, done' b ↔ b = a ∨ done b) : Trail r path done' where
  chain := (List.isChain_append.mp h.chain).1
  nodup := (List.nodup_append.mp h.nodup).1
  fresh := by
    intro b hb hd
    rcases (hdone b).mp hd with rfl | hd
    · exact (List.nodup_append.mp h.nodup).2.2 b hb b (by simp) rfl
    · exact h.fresh b (List.mem_append_left _ hb) hd
  explored := h.explored.insert (h.fresh a (by simp)) hsucc hdone

/-- The current element leads back to one on the way. -/
theorem Trail.cycle {path : List α} {done : α → Prop} {a b : α} (h : Trail r (path ++ [a]) done)
    (hb : b ∈ path ++ [a]) (hab : r a b) : TransGen r b b :=
  .tail' (reflTransGen_of_chain h.chain hb) hab

/-! ## Ranks -/

/-- On a finite set, every step goes down. -/
theorem Acyclic.exists_rank (h : Acyclic r) (s : Finset α) (hs : ∀ a b, r a b → b ∈ s) :
    ∃ rank : α → Nat, ∀ a b, r a b → rank b < rank a := by
  classical
  refine ⟨fun a => (s.filter fun b => TransGen r a b).card, fun a b hab => Finset.card_lt_card ?_⟩
  rw [Finset.ssubset_iff_of_subset]
  · exact ⟨b, Finset.mem_filter.mpr ⟨hs a b hab, .single hab⟩, fun hb => h b (Finset.mem_filter.mp hb).2⟩
  · intro c hc
    obtain ⟨hcs, hbc⟩ := Finset.mem_filter.mp hc
    exact Finset.mem_filter.mpr ⟨hcs, .head hab hbc⟩

theorem Acyclic.of_rank {rank : α → Nat} (h : ∀ a b, r a b → rank a < rank b) : Acyclic r := by
  have htrans : ∀ {a b}, TransGen r a b → rank a < rank b := by
    intro a b hab
    induction hab with
    | single hab => exact h _ _ hab
    | tail _ hbc ih => exact ih.trans (h _ _ hbc)
  exact fun a ha => lt_irrefl _ (htrans ha)

/-- A weight that pays for the weights of all successors. -/
theorem Acyclic.exists_weight (h : Acyclic r) (s : Finset α) (hs : ∀ a b, r a b → b ∈ s) (base : α → Nat)
    (succ : α → List α) (hsucc : ∀ a, ∀ b ∈ succ a, r a b) :
    ∃ weight : α → Nat, ∀ a, weight a = base a + ((succ a).map weight).sum := by
  obtain ⟨rank, hrank⟩ := h.exists_rank s hs
  have hwf : WellFounded fun a b => rank a < rank b := InvImage.wf rank Nat.lt_wfRel.wf
  let step (a : α) (ih : ∀ b, rank b < rank a → Nat) : Nat :=
    base a + ((succ a).attach.map fun b => ih b.1 (hrank a b.1 (hsucc a b.1 b.2))).sum
  refine ⟨hwf.fix step, fun a => ?_⟩
  rw [hwf.fix_eq]
  simp only [step, List.map_attach_eq_pmap, List.pmap_eq_map]

end Uvrgw.Lib
