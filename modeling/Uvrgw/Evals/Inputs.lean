import Mathlib.Algebra.Order.BigOperators.Group.Finset
import Mathlib.Data.List.Perm.Subperm
import Uvrgw.Evals.Code
import Uvrgw.Lib.Lists

/-! # The inputs that `compile_eval` records -/

namespace Uvrgw.Evals

open Uvrgw.Lib

/-! ## `add_index` -/

@[simp] theorem mem_addIndex {l : List Nat} {i k : Nat} : k ∈ addIndex l i ↔ k ∈ l ∨ k = i := by
  unfold addIndex
  split
  · constructor
    · exact .inl
    · rintro (h | rfl) <;> assumption
  · simp

theorem prefix_addIndex (l : List Nat) (i : Nat) : l <+: addIndex l i := by
  unfold addIndex
  split
  · exact List.prefix_refl l
  · exact List.prefix_append ..

theorem addIndex_nodup {l : List Nat} {i : Nat} (h : l.Nodup) : (addIndex l i).Nodup := by
  unfold addIndex
  split
  · exact h
  · rename_i hi
    rw [List.nodup_append_comm]
    exact List.nodup_cons.mpr ⟨hi, h⟩

theorem addIndex_eq_of_length {l : List Nat} {i : Nat} (h : (addIndex l i).length = l.length) :
    addIndex l i = l :=
  ((prefix_addIndex l i).eq_of_length h.symm).symm

/-! ## `walk` -/

/-- The list of an own value: indices of inputs, none twice. -/
structure Indices (l : List Nat) (count : Nat) : Prop where
  nodup : l.Nodup
  lt : ∀ k ∈ l, k < count

theorem Indices.addIndex {l : List Nat} {count i : Nat} (h : Indices l count) (hi : i < count) :
    Indices (addIndex l i) count where
  nodup := addIndex_nodup h.nodup
  lt := fun k hk => by
    rcases mem_addIndex.mp hk with hk | rfl
    · exact h.lt k hk
    · exact hi

theorem Indices.mono {l : List Nat} {m n : Nat} (h : Indices l m) (hmn : m ≤ n) : Indices l n :=
  ⟨h.nodup, fun k hk => Nat.lt_of_lt_of_le (h.lt k hk) hmn⟩

/-- The input that stands for the outside value in slot `slot`. -/
def inputOf (n : Nat) (cands : List String) (slot : Nat) : EvalIn :=
  { disp := cands.getD (slot - 1 - n) "", slot := slot }

section Walk

variable (n : Nat) (cands : List String)

structure WalkState.Ok (s : WalkState) : Prop where
  cand : ∀ c k, s.candIns c = some k → s.ins[k]? = some (inputOf n cands (1 + n + c))
  vIns : Indices s.vIns s.ins.length

structure WalkState.Le (s t : WalkState) : Prop where
  ins : s.ins <+: t.ins
  vIns : s.vIns ⊆ t.vIns
  vRefs : s.vRefs ⊆ t.vRefs

/-- What a step of the walk does to a state that is in order. -/
def WalkState.Step (s t : WalkState) : Prop := s.Ok n cands → t.Ok n cands ∧ s.Le t

variable {n cands}

theorem WalkState.Step.refl (s : WalkState) : s.Step n cands s :=
  fun h => ⟨h, ⟨List.prefix_refl _, fun _ => id, fun _ => id⟩⟩

theorem WalkState.Step.trans (s t u : WalkState) (h₁ : s.Step n cands t) (h₂ : t.Step n cands u) :
    s.Step n cands u := by
  intro hs
  obtain ⟨ht, hst⟩ := h₁ hs
  obtain ⟨hu, htu⟩ := h₂ ht
  exact ⟨hu, ⟨hst.ins.trans htu.ins, fun _ h => htu.vIns (hst.vIns h),
    fun _ h => htu.vRefs (hst.vRefs h)⟩⟩

def WalkState.Has (n own : Nat) (cands : List String) (s : WalkState) (slot : Nat) : Prop :=
  (slot ≠ 0 → slot ≤ n → slot - 1 ≠ own → slot - 1 ∈ s.vRefs) ∧
  (n < slot → ∃ k ∈ s.vIns, s.ins[k]? = some (inputOf n cands slot))

theorem WalkState.Has.mono {s t : WalkState} {own slot : Nat} (h : s.Has n own cands slot)
    (hst : s.Le t) : t.Has n own cands slot := by
  refine ⟨fun h0 hn ho => hst.vRefs (h.1 h0 hn ho), fun hn => ?_⟩
  obtain ⟨k, hk, hki⟩ := h.2 hn
  exact ⟨k, hst.vIns hk, getElem?_mono hst.ins hki⟩

theorem walkVar_spec (own slot : Nat) (s : WalkState) :
    s.Step n cands (walkVar n own cands slot s) ∧
      (s.Ok n cands → (walkVar n own cands slot s).Has n own cands slot) := by
  unfold walkVar
  split
  · exact ⟨.refl s, fun _ => ⟨fun h => absurd ‹_› h, fun h => by omega⟩⟩
  split
  · split
    · exact ⟨.refl s, fun _ => ⟨fun _ _ h => absurd ‹_› h, fun h => by omega⟩⟩
    · refine ⟨fun h => ⟨⟨h.cand, h.vIns⟩, ⟨List.prefix_refl _, fun _ => id, fun k hk => ?_⟩⟩,
        fun _ => ⟨fun _ _ _ => ?_, fun h => by omega⟩⟩
      · exact mem_addIndex.mpr (.inl hk)
      · exact mem_addIndex.mpr (.inr rfl)
  · have hslot : 1 + n + (slot - 1 - n) = slot := by omega
    dsimp only
    split
    · rename_i k hk
      have hget := fun h : s.Ok n cands => hslot ▸ h.cand _ _ hk
      refine ⟨fun h => ⟨⟨h.cand, h.vIns.addIndex ?_⟩, ⟨List.prefix_refl _, fun j hj => ?_, fun _ => id⟩⟩,
        fun h => ⟨fun _ _ _ => by omega, fun _ => ⟨k, ?_, hget h⟩⟩⟩
      · exact (List.getElem?_eq_some_iff.mp (hget h)).1
      · exact mem_addIndex.mpr (.inl hj)
      · exact mem_addIndex.mpr (.inr rfl)
    · have hpre : s.ins <+: s.ins ++ [inputOf n cands slot] := List.prefix_append ..
      have hlen : s.ins.length ≤ (s.ins ++ [inputOf n cands slot]).length := by simp
      refine ⟨fun h => ⟨⟨?_, (h.vIns.mono hlen).addIndex (by simp)⟩, ⟨hpre, fun j hj => ?_, fun _ => id⟩⟩,
        fun h => ⟨fun _ _ _ => by omega, fun _ => ⟨s.ins.length, ?_, ?_⟩⟩⟩
      · intro c k hc
        by_cases hcc : c = slot - 1 - n
        · subst hcc
          simp only [Function.update_self, Option.some.injEq] at hc
          subst hc
          simp [hslot, inputOf]
        · simp only [Function.update_of_ne hcc] at hc
          have hk := h.cand c k hc
          have hlt := (List.getElem?_eq_some_iff.mp hk).1
          exact (List.getElem?_append_left hlt).trans hk
      · exact mem_addIndex.mpr (.inl hj)
      · exact mem_addIndex.mpr (.inr rfl)
      · simp [inputOf]

theorem walk_spec (own : Nat) (expr : TeExpr Nat) (s : WalkState) :
    s.Step n cands (walk n own cands expr s) ∧
      (s.Ok n cands → ∀ slot ∈ expr.vars, (walk n own cands expr s).Has n own cands slot) := by
  induction expr generalizing s with
  | const value => exact ⟨.refl s, fun _ slot h => by simp [TeExpr.vars] at h⟩
  | var bound =>
    refine ⟨(walkVar_spec own bound s).1, fun hs slot h => ?_⟩
    obtain rfl := List.mem_singleton.mp h
    exact (walkVar_spec own slot s).2 hs
  | fn arity function parameters ih =>
    have hstep := fun s (i : Fin arity) (_ : i ∈ List.finRange arity) => (ih i s).1
    refine ⟨foldl_rel (R := WalkState.Step n cands) .refl .trans _ hstep s, fun hs slot h => ?_⟩
    obtain ⟨i, hi, hslot⟩ := List.mem_flatMap.mp h
    obtain ⟨u, hu, hend⟩ := foldl_through (R := WalkState.Step n cands) .refl .trans hstep hi s
    have huok := (hu hs).1
    exact ((ih i u).2 huok slot hslot).mono (hend ((ih i u).1 huok).1).2

end Walk

/-! ## `close_inputs` -/

section Close

variable (n count : Nat)

/-- What filling the lists of the values below `n` does. -/
structure Closing.Le (s t : Closing) : Prop where
  list : ∀ v, s.1 v <+: t.1 v
  same : t.2 = false → s.2 = false ∧ t.1 = s.1
  grow : s.2 = false → t.2 = true → ∃ v < n, (s.1 v).length < (t.1 v).length

def Closing.Ok (s : Closing) : Prop := ∀ v, Indices (s.1 v) count

def Closing.Step (s t : Closing) : Prop := s.Ok count → t.Ok count ∧ s.Le n t

variable {n count}

theorem Closing.Step.refl (s : Closing) : s.Step n count s :=
  fun h => ⟨h, ⟨fun _ => List.prefix_refl _, fun h => ⟨h, rfl⟩, fun h h' => by simp [h] at h'⟩⟩

theorem Closing.Le.trans {s t u : Closing} (h₁ : s.Le n t) (h₂ : t.Le n u) : s.Le n u where
  list := fun v => (h₁.list v).trans (h₂.list v)
  same := fun hu => by
    obtain ⟨ht, hut⟩ := h₂.same hu
    exact ⟨(h₁.same ht).1, hut.trans (h₁.same ht).2⟩
  grow := fun hs hu => by
    cases ht : t.2 with
    | true =>
      obtain ⟨v, hv, hlt⟩ := h₁.grow hs ht
      exact ⟨v, hv, hlt.trans_le (h₂.list v).length_le⟩
    | false =>
      obtain ⟨v, hv, hlt⟩ := h₂.grow ht hu
      exact ⟨v, hv, (h₁.list v).length_le.trans_lt hlt⟩

theorem Closing.Step.trans (s t u : Closing) (h₁ : s.Step n count t) (h₂ : t.Step n count u) :
    s.Step n count u :=
  fun hs => ⟨(h₂ (h₁ hs).1).1, (h₁ hs).2.trans (h₂ (h₁ hs).1).2⟩

theorem closeIndex_step {v : Nat} (hv : v < n) {j : Nat} (hj : j < count) (s : Closing) :
    s.Step n count (closeIndex v s j) := by
  intro hs
  refine ⟨fun w => ?_, fun w => ?_, fun hf => ?_, fun hf ht => ⟨v, hv, ?_⟩⟩
  · by_cases hw : w = v
    · subst hw
      simpa [closeIndex] using (hs w).addIndex hj
    · simpa [closeIndex, Function.update_of_ne hw] using hs w
  · by_cases hw : w = v
    · subst hw
      simpa [closeIndex] using prefix_addIndex (s.1 w) j
    · simp [closeIndex, Function.update_of_ne hw]
  · simp only [closeIndex, Bool.or_eq_false_iff, bne_eq_false_iff_eq] at hf
    refine ⟨hf.1, ?_⟩
    rw [closeIndex, addIndex_eq_of_length hf.2]
    exact Function.update_eq_self v s.1
  · have hle := (prefix_addIndex (s.1 v) j).length_le
    simp only [closeIndex, hf, Bool.false_or, bne_iff_ne] at ht
    simp only [closeIndex, Function.update_self]
    omega

theorem closeFrom_step {v : Nat} (hv : v < n) (r : Nat) (s : Closing) :
    s.Step n count ((s.1 r).foldl (closeIndex v) s) := by
  intro hs
  refine foldl_rel (R := Closing.Step n count) .refl .trans _ (fun t j hj => ?_) s hs
  exact closeIndex_step hv ((hs r).lt j hj) t

theorem closeValue_step {v : Nat} (hv : v < n) (refs : List Nat) (s : Closing) :
    s.Step n count (refs.foldl (fun s r => (s.1 r).foldl (closeIndex v) s) s) :=
  foldl_rel (R := Closing.Step n count) .refl .trans _ (fun t r _ => closeFrom_step hv r t) s

variable (refs : Nat → List Nat)

theorem closePass_step (ins : Nat → List Nat) :
    Closing.Step n count (ins, false) (closePass n refs ins) :=
  foldl_rel (R := Closing.Step n count) .refl .trans _
    (fun t v hv => closeValue_step (List.mem_range.mp hv) (refs v) t) _

/-- A pass hands the inputs of a value to each value that reads it. -/
theorem closePass_covers {ins : Nat → List Nat} (hok : Closing.Ok count (ins, false)) {v r j : Nat}
    (hv : v < n) (hr : r ∈ refs v) (hj : j ∈ ins r) : j ∈ (closePass n refs ins).1 v := by
  obtain ⟨s, hs, hsend⟩ := foldl_through (R := Closing.Step n count) .refl .trans
    (fun t v hv => closeValue_step (List.mem_range.mp hv) (refs v) t) (List.mem_range.mpr hv) (ins, false)
  obtain ⟨hsok, hins⟩ := hs hok
  obtain ⟨t, ht, htend⟩ := foldl_through (R := Closing.Step n count) .refl .trans
    (fun t r _ => closeFrom_step hv r t) hr s
  obtain ⟨htok, hst⟩ := ht hsok
  have hjt : j ∈ t.1 r := (hst.list r).subset ((hins.list r).subset hj)
  obtain ⟨u, hu, huend⟩ := foldl_through (R := Closing.Step n count) .refl .trans
    (fun u k hk => closeIndex_step hv ((htok r).lt k hk) u) hjt t
  obtain ⟨huok, -⟩ := hu htok
  have hju : j ∈ (closeIndex v u j).1 v := by simp [closeIndex]
  have h₁ := huend (closeIndex_step hv ((htok r).lt j hjt) u huok).1
  have h₂ := htend (closeFrom_step hv r t htok).1
  have h₃ := hsend (closeValue_step hv (refs v) s hsok).1
  exact (h₃.2.list v).subset ((h₂.2.list v).subset ((h₁.2.list v).subset hju))

theorem Indices.length_le {l : List Nat} (h : Indices l count) : l.length ≤ count := by
  have := (h.nodup.subperm (fun k hk => List.mem_range.mpr (h.lt k hk))).length_le
  simpa using this

/-- A pass that changes something makes the lists longer. -/
theorem closePass_grow {ins : Nat → List Nat} (hok : Closing.Ok count (ins, false))
    (hflag : (closePass n refs ins).2 = true) :
    ∑ v ∈ Finset.range n, (ins v).length < ∑ v ∈ Finset.range n, ((closePass n refs ins).1 v).length := by
  obtain ⟨v, hv, hlt⟩ := (closePass_step (n := n) refs ins hok).2.grow rfl hflag
  refine Finset.sum_lt_sum (fun w _ => ?_) ⟨v, Finset.mem_range.mpr hv, hlt⟩
  exact ((closePass_step (n := n) refs ins hok).2.list w).length_le

theorem lengths_le {ins : Nat → List Nat} (hok : Closing.Ok count (ins, false)) :
    ∑ v ∈ Finset.range n, (ins v).length ≤ n * count := by
  calc ∑ v ∈ Finset.range n, (ins v).length
      ≤ ∑ _v ∈ Finset.range n, count := Finset.sum_le_sum fun v _ => (hok v).length_le
    _ = n * count := by simp

theorem closed_repeats {ins : Nat → List Nat} (hok : Closing.Ok count (ins, false)) :
    Repeats (closePass n refs) ins (saturate (closePass n refs) (n * count) ins) :=
  saturate_repeats (fun ins => Closing.Ok count (ins, false)) (fun ins => ∑ v ∈ Finset.range n, (ins v).length)
    (n * count) (fun ins h => (closePass_step refs ins h).1) (fun _ h => closePass_grow refs h)
    (fun _ => lengths_le) _ _ hok (by omega)

theorem closed_fixed {ins : Nat → List Nat} (hok : Closing.Ok count (ins, false)) :
    Closing.Ok count (saturate (closePass n refs) (n * count) ins, false) ∧
      closePass n refs (saturate (closePass n refs) (n * count) ins) =
        (saturate (closePass n refs) (n * count) ins, false) :=
  (closed_repeats refs hok).fixed (I := fun ins => Closing.Ok count (ins, false))
    (fun ins h => (closePass_step refs ins h).1)
    (fun ins h hflag => ((closePass_step refs ins h).2.same hflag).2) hok

theorem prefix_closed {ins : Nat → List Nat} (hok : Closing.Ok count (ins, false)) (v : Nat) :
    ins v <+: saturate (closePass n refs) (n * count) ins v := by
  have h := saturate_rel (closePass n refs)
    (R := fun a b => Closing.Ok count (a, false) → Closing.Ok count (b, false) ∧ ∀ v, a v <+: b v)
    (fun a b c hab hbc ha => ⟨(hbc (hab ha).1).1, fun v => ((hab ha).2 v).trans ((hbc (hab ha).1).2 v)⟩)
    (fun a ha => ⟨(closePass_step refs a ha).1, (closePass_step (n := n) refs a ha).2.list⟩)
    (n * count) ins
  exact (h hok).2 v

theorem closed_covers {ins : Nat → List Nat} (hok : Closing.Ok count (ins, false)) {v r : Nat}
    (hv : v < n) (hr : r ∈ refs v) :
    saturate (closePass n refs) (n * count) ins r ⊆ saturate (closePass n refs) (n * count) ins v := by
  obtain ⟨hclosed, hfix⟩ := closed_fixed (n := n) refs hok
  intro j hj
  have := closePass_covers refs hclosed hv hr hj
  rwa [hfix] at this

end Close

/-! ## `compile_eval` -/

/-- The value in slot `slot` is an own value or an input that value number `own` lists. -/
def Listed (n own : Nat) (cands : List String) (ins : List EvalIn) (v : EvalVal) (slot : Nat) : Prop :=
  (slot ≠ 0 → slot ≤ n → slot - 1 ≠ own → slot - 1 ∈ v.refs) ∧
  (n < slot → ∃ k ∈ v.ins, ∃ i, ins[k]? = some i ∧ i.disp = cands.getD (slot - 1 - n) "" ∧ i.slot = slot)

/-- Value number `own` after the walk of its expression. -/
structure Walked (n own : Nat) (cands : List String) (ins : List EvalIn) (v : EvalVal) : Prop where
  slot : v.slot = 1 + own
  listed : ∀ slot ∈ v.expr.vars, Listed n own cands ins v slot
  indices : Indices v.ins ins.length

theorem Walked.mono {n own : Nat} {cands : List String} {ins ins' : List EvalIn} {v : EvalVal}
    (h : Walked n own cands ins v) (hp : ins <+: ins') : Walked n own cands ins' v where
  slot := h.slot
  listed := fun slot hs => by
    obtain ⟨hown, hout⟩ := h.listed slot hs
    refine ⟨hown, fun hn => ?_⟩
    obtain ⟨k, hk, i, hi, hd⟩ := hout hn
    exact ⟨k, hk, i, getElem?_mono hp hi, hd⟩
  indices := h.indices.mono hp.length_le

theorem compileValues_spec {vars : List (String × Nat)} {n : Nat} {cands : List String} (vs : List EvalVal)
    (own : Nat) (s : WalkState) (vs' : List EvalVal) (s' : WalkState) (hs : s.Ok n cands)
    (hfresh : ∀ v ∈ vs, v.ins = []) (h : compileValues vars n cands own vs s = some (vs', s')) :
    s'.Ok n cands ∧ s.ins <+: s'.ins ∧ vs'.length = vs.length ∧
      ∀ (i : Nat) v', vs'[i]? = some v' → Walked n (own + i) cands s'.ins v' ∧
        ∃ v, vs[i]? = some v ∧ v.exprStr.compile vars = some v'.expr ∧
          v' = { v with slot := v'.slot, expr := v'.expr, ins := v'.ins, refs := v'.refs } := by
  induction vs generalizing own s vs' s' with
  | nil =>
    simp only [compileValues, Option.some.injEq, Prod.mk.injEq] at h
    obtain ⟨rfl, rfl⟩ := h
    exact ⟨hs, List.prefix_refl _, rfl, by simp⟩
  | cons v vs ih =>
    simp only [compileValues, Option.pure_def, Option.bind_eq_bind, Option.bind_eq_some_iff] at h
    obtain ⟨expr, hexpr, ⟨vs₁, s₁⟩, hrest, heq⟩ := h
    simp only [Option.some.injEq, Prod.mk.injEq] at heq
    obtain ⟨rfl, rfl⟩ := heq
    have hv : v.ins = [] := hfresh v List.mem_cons_self
    have hs₀ : WalkState.Ok n cands { s with vIns := v.ins, vRefs := v.refs } :=
      ⟨hs.cand, by simp only [hv]; exact ⟨List.nodup_nil, by simp⟩⟩
    obtain ⟨hstep, hhas⟩ := walk_spec own expr { s with vIns := v.ins, vRefs := v.refs }
    obtain ⟨hw, hle⟩ := hstep hs₀
    obtain ⟨hok, hpre, hlen, hall⟩ :=
      ih (own + 1) _ vs₁ s₁ hw (fun u hu => hfresh u (List.mem_cons_of_mem _ hu)) hrest
    refine ⟨hok, hle.ins.trans hpre, by simp [hlen], fun i v' hv' => ?_⟩
    cases i with
    | zero =>
      simp only [List.getElem?_cons_zero, Option.some.injEq] at hv'
      subst hv'
      refine ⟨Walked.mono ⟨rfl, fun slot hslot => ?_, hw.vIns⟩ hpre, v, rfl, hexpr, rfl⟩
      obtain ⟨hown, hout⟩ := hhas hs₀ slot hslot
      refine ⟨hown, fun hn => ?_⟩
      obtain ⟨k, hk, hki⟩ := hout hn
      exact ⟨k, hk, _, hki, rfl, rfl⟩
    | succ i =>
      have := hall i v' (by simpa using hv')
      rwa [Nat.add_right_comm, Nat.add_assoc] at this

/-- What `compile_eval` leaves behind, and evaluations keep. -/
structure Compiled (e : Eval) (cands : List String) : Prop where
  walked : ∀ (i : Nat) v, e.values[i]? = some v → Walked e.values.length i cands e.ins v
  closed : ∀ (i r : Nat) v w, e.values[i]? = some v → r ∈ v.refs → e.values[r]? = some w → w.ins ⊆ v.ins

theorem compileEval_compiled {e e' : Eval} {cands : List String} (hfresh : ∀ v ∈ e.values, v.ins = [])
    (h : compileEval e cands = some e') : Compiled e' cands := by
  simp only [compileEval, Option.pure_def, Option.bind_eq_bind, Option.bind_eq_some_iff] at h
  obtain ⟨⟨vs, s⟩, hvs, heq⟩ := h
  simp only [Option.some.injEq] at heq
  obtain ⟨hok, -, hlen, hall⟩ := compileValues_spec _ 0 {} vs s ⟨by simp, ⟨List.nodup_nil, by simp⟩⟩ hfresh hvs
  have hclose : Closing.Ok s.ins.length (insOf vs, false) := by
    intro i
    cases hi : vs[i]? with
    | none =>
      simp only [insOf, hi, Option.map_none, Option.getD_none]
      exact ⟨List.nodup_nil, by simp⟩
    | some v =>
      simp only [insOf, hi, Option.map_some, Option.getD_some]
      exact (hall i v hi).1.indices
  have hget : ∀ i : Nat, (closeInputs s.ins.length vs)[i]? = vs[i]?.map fun v : EvalVal =>
      { v with ins := saturate (closePass vs.length (refsOf vs)) (vs.length * s.ins.length) (insOf vs) i } := by
    intro i
    simp [closeInputs, List.getElem?_mapIdx]
  subst heq
  constructor
  · intro i v hv
    rw [hget, Option.map_eq_some_iff] at hv
    obtain ⟨u, hu, rfl⟩ := hv
    obtain ⟨hslot, hlisted, -⟩ := (hall i u hu).1
    have hpre := prefix_closed (n := vs.length) (refsOf vs) hclose i
    simp only [insOf, hu, Option.map_some, Option.getD_some] at hpre
    have hn : (closeInputs s.ins.length vs).length = e.values.length := by
      simp [closeInputs, hlen]
    refine ⟨by simpa using hslot, fun slot hs => ?_, ?_⟩
    · rw [hn]
      obtain ⟨hown, hout⟩ := hlisted slot hs
      refine ⟨by simpa using hown, fun hlt => ?_⟩
      obtain ⟨k, hk, hi⟩ := hout hlt
      exact ⟨k, hpre.subset hk, hi⟩
    · exact (closed_fixed (n := vs.length) (refsOf vs) hclose).1 i
  · intro i r v w hv hr hw
    rw [hget, Option.map_eq_some_iff] at hv hw
    obtain ⟨u, hu, rfl⟩ := hv
    obtain ⟨x, hx, rfl⟩ := hw
    have hi : i < vs.length := (List.getElem?_eq_some_iff.mp hu).1
    exact closed_covers (refsOf vs) hclose hi (by simpa [refsOf, hu] using hr)

/-! ## Before `compile_eval` -/

theorem valueConfigure_fresh {cfg : EvalValConf} {v : EvalVal} (h : valueConfigure cfg = some v) :
    v.ins = [] ∧ ∀ name, v.disp = some name → name = v.name := by
  simp only [valueConfigure, Option.pure_def, Option.bind_eq_bind, Option.bind_eq_some_iff] at h
  obtain ⟨-, -, -, -, _, -, -, -, h⟩ := h
  cases h
  refine ⟨rfl, fun name hname => ?_⟩
  dsimp only at hname
  split at hname <;> cases hname
  rfl

theorem configured_ins {cfg : EvalConf} {e : Eval} (h : evalConfigureOne cfg = some e) :
    (∀ v ∈ e.values, v.ins = [] ∧ ∀ name, v.disp = some name → name = v.name) ∧
      e.triggers = [] ∧ e.pending = false := by
  simp only [evalConfigureOne, Option.pure_def, Option.bind_eq_bind, Option.bind_eq_some_iff] at h
  obtain ⟨-, -, -, -, vs, hvs, -, -, h⟩ := h
  cases h
  refine ⟨fun v hv => ?_, rfl, rfl⟩
  obtain ⟨cfg, -, hcfg⟩ := mem_of_mapM hvs hv
  exact valueConfigure_fresh hcfg

/-! ## What the inputs stand for -/

theorem compile_vars {vars : List (String × Nat)} {expr : TeExpr String} {expr' : TeExpr Nat}
    (h : expr.compile vars = some expr') : ∀ slot ∈ expr'.vars, ∃ name, (name, slot) ∈ vars := by
  induction expr generalizing expr' with
  | const value =>
    cases h
    simp [TeExpr.vars]
  | var name =>
    simp only [TeExpr.compile, Option.map_eq_some_iff] at h
    obtain ⟨slot, hslot, rfl⟩ := h
    intro slot' hs
    obtain rfl := List.mem_singleton.mp hs
    obtain ⟨l₁, l₂, rfl, -⟩ := List.lookup_eq_some_iff.mp hslot
    exact ⟨name, by simp⟩
  | fn arity function parameters ih =>
    simp only [TeExpr.compile, Option.dite_none_right_eq_some, Option.some.injEq] at h
    obtain ⟨hall, rfl⟩ := h
    intro slot hs
    obtain ⟨i, -, hi⟩ := List.mem_flatMap.mp hs
    exact ih i (Option.some_get (hall i)).symm slot hi

theorem varList_outside {e : Eval} {cands : List String} {name : String} {slot : Nat}
    (h : (name, slot) ∈ varList e cands) (hn : e.values.length < slot) :
    cands[slot - 1 - e.values.length]? = some name ∧ e.findValue name = none := by
  simp only [varList, List.cons_append, List.mem_cons, Prod.mk.injEq, List.mem_append,
    List.mem_mapIdx, List.mem_filter, Bool.and_eq_true, Option.isNone_iff_eq_none] at h
  rcases h with ⟨-, rfl⟩ | ⟨i, hi, -, rfl⟩ | ⟨⟨i, hi, hname, hslot⟩, -, hfind⟩
  · omega
  · omega
  · refine ⟨?_, hfind⟩
    have hi' : slot - 1 - e.values.length = i := by omega
    rw [hi', List.getElem?_eq_getElem hi, hname]

section Known

variable (n : Nat) (cands : List String) (P : Nat → Prop)

/-- Every input is the only one in its slot, and its slot is one that an expression reads. -/
def WalkState.Known (s : WalkState) : Prop :=
  ∀ (k : Nat) i, s.ins[k]? = some i → n < i.slot ∧ P i.slot ∧
    i.disp = cands.getD (i.slot - 1 - n) "" ∧ s.candIns (i.slot - 1 - n) = some k

variable {n cands P}

theorem WalkState.Known.walkVar {s : WalkState} (h : s.Known n cands P) (own slot : Nat)
    (hslot : n < slot → P slot) : (walkVar n own cands slot s).Known n cands P := by
  unfold Evals.walkVar
  split
  · exact h
  split
  · split <;> exact h
  dsimp only
  split
  · exact h
  rename_i hn hnone
  intro k i hi
  rcases Nat.lt_trichotomy k s.ins.length with hlt | rfl | hgt
  · rw [List.getElem?_append_left hlt] at hi
    obtain ⟨h1, h2, h3, h4⟩ := h k i hi
    refine ⟨h1, h2, h3, (Function.update_of_ne (fun heq => ?_) _ _).trans h4⟩
    simp [heq, hnone] at h4
  · obtain rfl : inputOf n cands slot = i := by simpa [inputOf] using hi
    refine ⟨?_, hslot ?_, rfl, ?_⟩
    · simp only [inputOf]; omega
    · omega
    · exact Function.update_self ..
  · have hlen := (List.getElem?_eq_some_iff.mp hi).1
    simp only [List.length_append, List.length_singleton] at hlen
    omega

theorem WalkState.Known.walk (own : Nat) (expr : TeExpr Nat) (hslots : ∀ slot ∈ expr.vars, n < slot → P slot)
    (s : WalkState) (h : s.Known n cands P) : (walk n own cands expr s).Known n cands P := by
  induction expr generalizing s with
  | const value => exact h
  | var bound => exact h.walkVar own bound (hslots bound (List.mem_singleton.mpr rfl))
  | fn arity function parameters ih =>
    refine foldl_rel (R := fun s t : WalkState => s.Known n cands P → t.Known n cands P)
      (fun _ => id) (fun _ _ _ h₁ h₂ hs => h₂ (h₁ hs)) (List.finRange arity) (fun s i _ hs => ?_) s h
    exact ih i (fun slot hs => hslots slot (List.mem_flatMap.mpr ⟨i, List.mem_finRange i, hs⟩)) s hs

theorem compileValues_known {vars : List (String × Nat)}
    (hvars : ∀ name slot, (name, slot) ∈ vars → n < slot → P slot) (vs : List EvalVal) (own : Nat)
    (s : WalkState) (vs' : List EvalVal) (s' : WalkState)
    (h : compileValues vars n cands own vs s = some (vs', s')) (hs : s.Known n cands P) :
    s'.Known n cands P := by
  induction vs generalizing own s vs' s' with
  | nil =>
    simp only [compileValues, Option.some.injEq, Prod.mk.injEq] at h
    exact h.2 ▸ hs
  | cons v vs ih =>
    simp only [compileValues, Option.pure_def, Option.bind_eq_bind, Option.bind_eq_some_iff] at h
    obtain ⟨expr, hexpr, ⟨vs₁, s₁⟩, hrest, heq⟩ := h
    simp only [Option.some.injEq, Prod.mk.injEq] at heq
    obtain ⟨-, rfl⟩ := heq
    refine ih (own + 1) _ vs₁ s₁ hrest (WalkState.Known.walk own expr (fun slot hslot hn => ?_) _ hs)
    obtain ⟨name, hname⟩ := compile_vars hexpr slot hslot
    exact hvars name slot hname hn

end Known

/-- What each input of a compiled eval stands for. -/
structure Inputs (e : Eval) (cands : List String) : Prop where
  outside : ∀ i ∈ e.ins, e.values.length < i.slot ∧
    cands[i.slot - 1 - e.values.length]? = some i.disp ∧ e.findValue i.disp = none
  distinct : ∀ (k k' : Nat) i i', e.ins[k]? = some i → e.ins[k']? = some i' → i.slot = i'.slot → k = k'

theorem compileEval_values {e e' : Eval} {cands : List String} (h : compileEval e cands = some e') :
    e' = { e with slots := e'.slots, ins := e'.ins, values := e'.values } ∧
      e'.slots.length = 1 + e.values.length + cands.length ∧
      e'.values.map (fun v => (v.name, v.disp, v.isLocal, v.initValue)) =
        e.values.map fun v => (v.name, v.disp, v.isLocal, v.initValue) := by
  simp only [compileEval, Option.pure_def, Option.bind_eq_bind, Option.bind_eq_some_iff] at h
  obtain ⟨⟨vs, s⟩, hvs, heq⟩ := h
  simp only [Option.some.injEq] at heq
  subst heq
  refine ⟨rfl, by simp; omega, ?_⟩
  have hmap : ∀ (us : List EvalVal) own s vs' s', compileValues (varList e cands) e.values.length cands own us s =
      some (vs', s') → vs'.map (fun v => (v.name, v.disp, v.isLocal, v.initValue)) =
        us.map fun v => (v.name, v.disp, v.isLocal, v.initValue) := by
    intro us
    induction us with
    | nil =>
      intro own s vs' s' h
      simp only [compileValues, Option.some.injEq, Prod.mk.injEq] at h
      obtain ⟨rfl, -⟩ := h
      rfl
    | cons v us ih =>
      intro own s vs' s' h
      simp only [compileValues, Option.pure_def, Option.bind_eq_bind, Option.bind_eq_some_iff] at h
      obtain ⟨expr, -, ⟨vs₁, s₁⟩, hrest, heq⟩ := h
      simp only [Option.some.injEq, Prod.mk.injEq] at heq
      obtain ⟨rfl, -⟩ := heq
      simp [ih _ _ _ _ hrest]
  rw [← hmap _ _ _ _ _ hvs]
  refine List.ext_getElem? fun i => ?_
  simp [closeInputs, List.getElem?_mapIdx, Function.comp_def]

theorem findValue_isNone {e : Eval} {name : String} :
    e.findValue name = none ↔ name ∉ e.values.map (·.name) := by
  simp [Eval.findValue]

theorem compileEval_inputs {e e' : Eval} {cands : List String} (h : compileEval e cands = some e') :
    Inputs e' cands := by
  obtain ⟨-, -, hvals⟩ := compileEval_values h
  have hlen : e'.values.length = e.values.length := by simpa using congrArg List.length hvals
  have hnames : e'.values.map (·.name) = e.values.map (·.name) := by
    simpa [Function.comp_def] using congrArg (List.map Prod.fst) hvals
  have hknown : ∃ s, e'.ins = s.ins ∧
      WalkState.Known e.values.length cands (fun slot => ∃ name, (name, slot) ∈ varList e cands) s := by
    simp only [compileEval, Option.pure_def, Option.bind_eq_bind, Option.bind_eq_some_iff] at h
    obtain ⟨⟨vs, s⟩, hvs, heq⟩ := h
    simp only [Option.some.injEq] at heq
    subst heq
    exact ⟨s, rfl, compileValues_known (fun name slot hm _ => ⟨name, hm⟩) _ _ _ _ _ hvs (by simp [WalkState.Known])⟩
  obtain ⟨s, hs, hknown⟩ := hknown
  refine ⟨fun i hi => ?_, fun k k' i i' hk hk' hslot => ?_⟩
  · obtain ⟨k, hk⟩ := List.mem_iff_getElem?.mp (hs ▸ hi)
    obtain ⟨hn, ⟨name, hname⟩, hdisp, -⟩ := hknown k i hk
    obtain ⟨hc, hf⟩ := varList_outside hname hn
    rw [List.getD_eq_getElem?_getD, hc, Option.getD_some] at hdisp
    rw [findValue_isNone] at hf
    refine ⟨hlen ▸ hn, hlen ▸ hdisp ▸ hc, ?_⟩
    rw [findValue_isNone, hnames, hdisp]
    exact hf
  · have h₁ := (hknown k i (hs ▸ hk)).2.2.2
    have h₂ := (hknown k' i' (hs ▸ hk')).2.2.2
    rw [hslot] at h₁
    exact Option.some.inj (h₁.symm.trans h₂)

end Uvrgw.Evals
