import Uvrgw.Evals.Inputs

/-!
# The input closure of an eval (`close_inputs`)

The loop fills the lists in place while other values read them. Its passes end, and the lists are then the
closure of the direct ones over the `refs` lists.
-/

namespace Uvrgw.Evals

open Uvrgw.Lib

/-- Value `a` reads value `b`. -/
def Refs (refs : Nat → List Nat) (a b : Nat) : Prop := b ∈ refs a

instance (refs : Nat → List Nat) (a b : Nat) : Decidable (Refs refs a b) := inferInstanceAs (Decidable (b ∈ refs a))

/-! ## Soundness -/

section Sound

variable {n : Nat} {refs direct : Nat → List Nat}

/-- All that the list of a value has is read by a value that it reaches. -/
def Sourced (refs direct ins : Nat → List Nat) : Prop :=
  ∀ v, ∀ j ∈ ins v, ∃ w, Relation.ReflTransGen (Refs refs) v w ∧ j ∈ direct w

theorem Sourced.closeIndex {s : Closing} (h : Sourced refs direct s.1) {v j : Nat}
    (hj : ∃ w, Relation.ReflTransGen (Refs refs) v w ∧ j ∈ direct w) : Sourced refs direct (closeIndex v s j).1 := by
  intro v' k hk
  unfold Evals.closeIndex at hk
  dsimp only at hk
  by_cases hv : v' = v
  · subst hv
    rw [Function.update_self, mem_addIndex] at hk
    rcases hk with hk | rfl
    · exact h v' k hk
    · exact hj
  · rw [Function.update_of_ne hv] at hk
    exact h v' k hk

theorem Sourced.closeFrom {s : Closing} (h : Sourced refs direct s.1) {v r : Nat} (hr : r ∈ refs v) :
    Sourced refs direct ((s.1 r).foldl (Evals.closeIndex v) s).1 := by
  refine List.foldlRecOn (motive := fun t : Closing => Sourced refs direct t.1) (s.1 r) _ h fun t ht j hj =>
    ht.closeIndex ?_
  obtain ⟨w, hreach, hw⟩ := h r j hj
  exact ⟨w, .head hr hreach, hw⟩

theorem Sourced.closeValue {s : Closing} (h : Sourced refs direct s.1) (v : Nat) :
    Sourced refs direct ((refs v).foldl (fun s r => (s.1 r).foldl (Evals.closeIndex v) s) s).1 :=
  List.foldlRecOn (motive := fun t : Closing => Sourced refs direct t.1) (refs v) _ h fun _ ht _ hr => ht.closeFrom hr

theorem Sourced.closePass {ins : Nat → List Nat} (h : Sourced refs direct ins) :
    Sourced refs direct (closePass n refs ins).1 :=
  List.foldlRecOn (motive := fun t : Closing => Sourced refs direct t.1) (List.range n) _ h fun _ ht v _ =>
    ht.closeValue v

end Sound

/-! ## The loop -/

section Loop

variable {n count : Nat} {refs direct : Nat → List Nat}

/-- The loop ends with the closure, for values below `n`. -/
theorem closed_iff (hout : ∀ v, n ≤ v → refs v = []) (hok : Closing.Ok count (direct, false)) (v j : Nat) :
    j ∈ saturate (closePass n refs) (n * count) direct v ↔
      ∃ w, Relation.ReflTransGen (Refs refs) v w ∧ j ∈ direct w := by
  refine closure_iff (fun v j => j ∈ direct v) (fun v j => j ∈ saturate (closePass n refs) (n * count) direct v)
    ?_ ?_ ?_ v j
  · exact fun v j hj => (prefix_closed refs hok v).subset hj
  · intro v r j hr hj
    have hv : v < n := by
      by_contra hv
      have hempty := hout v (by omega)
      unfold Refs at hr
      rw [hempty] at hr
      cases hr
    exact closed_covers refs hok hv hr hj
  · have hstart : Sourced refs direct direct := fun v j hj => ⟨v, .refl, hj⟩
    exact (closed_repeats _ hok).invariant (fun ins h => Sourced.closePass h) hstart

end Loop

theorem insOf_ok {values : List EvalVal} {count : Nat} (hnodup : ∀ v ∈ values, v.ins.Nodup)
    (hlt : ∀ v ∈ values, ∀ j ∈ v.ins, j < count) : Closing.Ok count (insOf values, false) := by
  intro idx
  show Indices (insOf values idx) count
  unfold insOf
  cases hv : values[idx]? with
  | none => exact ⟨List.nodup_nil, fun k hk => nomatch hk⟩
  | some v =>
    have hmem := List.mem_of_getElem? hv
    exact ⟨hnodup v hmem, hlt v hmem⟩

theorem refsOf_out {values : List EvalVal} {idx : Nat} (h : values.length ≤ idx) : refsOf values idx = [] := by
  unfold refsOf
  rw [List.getElem?_eq_none h]
  rfl

theorem exists_bound (values : List EvalVal) : ∃ count, ∀ v ∈ values, ∀ j ∈ v.ins, j < count := by
  refine ⟨(values.flatMap (·.ins)).sum + 1, fun v hv j hj => ?_⟩
  exact Nat.lt_succ_of_le (List.le_sum_of_mem (List.mem_flatMap.mpr ⟨v, hv, hj⟩))

/-- **The input closure.** The loop of `close_inputs` ends, and the list of each value is then made of the outside
values that the own values it reaches read directly, none twice. -/
theorem close_inputs_exact (values : List EvalVal) (hnodup : ∀ v ∈ values, v.ins.Nodup) :
    ∃ closed, Repeats (closePass values.length (refsOf values)) (insOf values) closed ∧
      (∀ insCount, (∀ v ∈ values, ∀ j ∈ v.ins, j < insCount) →
        closeInputs insCount values = values.mapIdx fun idx v => { v with ins := closed idx }) ∧
      ∀ idx, (closed idx).Nodup ∧
        ∀ j, j ∈ closed idx ↔ ∃ w, Relation.ReflTransGen (Refs (refsOf values)) idx w ∧ j ∈ insOf values w := by
  obtain ⟨count, hcount⟩ := exists_bound values
  have hok := insOf_ok hnodup hcount
  refine ⟨_, closed_repeats _ hok, fun insCount hins => ?_, fun idx => ⟨?_, ?_⟩⟩
  · unfold closeInputs
    rw [(closed_repeats _ (insOf_ok hnodup hins)).unique (closed_repeats _ hok)]
  · exact ((closed_fixed (refsOf values) hok).1 idx).nodup
  · exact closed_iff (fun v hv => refsOf_out hv) hok idx

/-- Two values that read each other, with an outside value each. -/
def mutualValues : List EvalVal :=
  [{ name := "a", exprStr := .const (.fin 0), ins := [0], refs := [1] },
    { name := "b", exprStr := .const (.fin 0), ins := [1], refs := [0] }]

theorem close_inputs_exact_mutual : ∃ closed,
    Repeats (closePass 2 (refsOf mutualValues)) (insOf mutualValues) closed ∧
    1 ∈ closed 0 ∧ 0 ∈ closed 1 := by
  obtain ⟨closed, hloop, -, hclosed⟩ := close_inputs_exact mutualValues (by simp [mutualValues])
  refine ⟨closed, hloop, (hclosed 0).2 1 |>.mpr ⟨1, .single ?_, ?_⟩, (hclosed 1).2 0 |>.mpr ⟨0, .single ?_, ?_⟩⟩
  · decide
  · decide
  · decide
  · decide

end Uvrgw.Evals
