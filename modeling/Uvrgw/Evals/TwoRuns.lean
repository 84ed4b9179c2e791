import Uvrgw.Evals.Steps
import Uvrgw.Evals.Validity

/-!
# The list of a value covers all that it depends on

Two runs of an eval that read the same pairs for the listed inputs of a value, and any others for
the rest, agree on the value. The comparison is between values whose lists are covered, and slots
that such a value reads or writes.
-/

namespace Uvrgw.Evals

open Uvrgw.Lib

/-! ## Expressions -/

theorem TeExpr.eval_congr {expr : TeExpr Nat} {f g : Nat → Double} (h : ∀ slot ∈ expr.vars, f slot = g slot) :
    expr.eval f = expr.eval g := by
  induction expr with
  | const value => rfl
  | var bound => exact h bound (List.mem_singleton.mpr rfl)
  | fn arity function parameters ih =>
    unfold eval
    congr 1
    funext i
    refine ih i fun slot hslot => h slot ?_
    exact List.mem_flatMap.mpr ⟨i, List.mem_finRange i, hslot⟩

/-! ## What is compared -/

/-- The slots `S` are those that the values with lists in `L` use, and hold nothing else. -/
structure Covers (L : List Nat) (S : Nat → Prop) (e : Eval) : Prop where
  zero : ¬ S 0
  reads : ∀ v ∈ e.values, v.ins ⊆ L → S v.slot ∧ ∀ slot ∈ v.expr.vars, slot = 0 ∨ S slot
  own : ∀ v ∈ e.values, S v.slot → v.ins ⊆ L
  outside : ∀ i ∈ e.ins, S i.slot → ∃ k ∈ L, ∃ x, e.ins[k]? = some x ∧ x.disp = i.disp

structure Twin (L : List Nat) (v w : EvalVal) : Prop where
  config : v.config = w.config
  state : v.ins ⊆ L → v.hasLast = w.hasLast ∧ v.lastTs = w.lastTs ∧ v.valid = w.valid

def SameSlots (S : Nat → Prop) (slots slots' : List Double) : Prop :=
  slots.length = slots'.length ∧ ∀ slot, S slot → slots.getD slot .nan = slots'.getD slot .nan

structure Twins (L : List Nat) (S : Nat → Prop) (t u : Eval) : Prop where
  values : List.Forall₂ (Twin L) t.values u.values
  ins : t.ins.map (fun i => (i.disp, i.slot)) = u.ins.map fun i => (i.disp, i.slot)
  slots : SameSlots S t.slots u.slots

theorem Twins.refl (L : List Nat) (S : Nat → Prop) (e : Eval) : Twins L S e e where
  values := List.forall₂_same.mpr fun _ _ => ⟨rfl, fun _ => ⟨rfl, rfl, rfl⟩⟩
  ins := rfl
  slots := ⟨rfl, fun _ _ => rfl⟩

theorem SameSlots.set {S : Nat → Prop} {slots slots' : List Double} (h : SameSlots S slots slots') {slot : Nat}
    {x y : Double} (hxy : S slot → x = y) : SameSlots S (slots.set slot x) (slots'.set slot y) := by
  refine ⟨by simp [h.1], fun k hk => ?_⟩
  have hget := h.2 k hk
  simp only [List.getD_eq_getElem?_getD, List.getElem?_set] at hget ⊢
  by_cases hs : slot = k
  · subst hs
    rw [if_pos rfl, if_pos rfl, hxy hk, h.1]
  · rw [if_neg hs, if_neg hs]
    exact hget

theorem SameSlots.set_self {S : Nat → Prop} {slots slots' : List Double} (h : SameSlots S slots slots') (slot : Nat)
    (x : Double) : (slots.set slot x).getD slot .nan = (slots'.set slot x).getD slot .nan := by
  simp only [List.getD_eq_getElem?_getD, List.getElem?_set, if_true, h.1]

theorem SameSlots.symm {S : Nat → Prop} {slots slots' : List Double} (h : SameSlots S slots slots') :
    SameSlots S slots' slots :=
  ⟨h.1.symm, fun slot hS => (h.2 slot hS).symm⟩

theorem SameSlots.left {S : Nat → Prop} {slots slots' : List Double} (h : SameSlots S slots slots') {slot : Nat}
    (hslot : ¬ S slot) (x : Double) : SameSlots S (slots.set slot x) slots' := by
  refine ⟨by simp [h.1], fun k hk => ?_⟩
  have hne : slot ≠ k := by
    rintro rfl
    exact hslot hk
  rw [← h.2 k hk, List.getD_eq_getElem?_getD, List.getD_eq_getElem?_getD, List.getElem?_set_ne hne]

theorem SameSlots.right {S : Nat → Prop} {slots slots' : List Double} (h : SameSlots S slots slots') {slot : Nat}
    (hslot : ¬ S slot) (x : Double) : SameSlots S slots (slots'.set slot x) :=
  (h.symm.left hslot x).symm

section Evaluation

variable {L : List Nat} {S : Nat → Prop} {reads reads' : String → Double × Bool}

/-! ## One evaluation in both runs -/

theorem refresh_same {ins ins' : List EvalIn} {slots slots' : List Double} (hslots : SameSlots S slots slots')
    (hins : ins.map (fun i => (i.disp, i.slot)) = ins'.map fun i => (i.disp, i.slot))
    (hreads : ∀ i ∈ ins, S i.slot → reads i.disp = reads' i.disp) :
    SameSlots S (refresh reads ins slots).2 (refresh reads' ins' slots').2 := by
  induction ins generalizing ins' slots slots' with
  | nil =>
    obtain rfl : ins' = [] := by simpa using hins.symm
    exact hslots
  | cons i ins ih =>
    cases ins' with
    | nil => cases hins
    | cons j ins' =>
      simp only [List.map_cons, List.cons.injEq, Prod.mk.injEq] at hins
      obtain ⟨⟨hdisp, hslot⟩, hins⟩ := hins
      have hi := hreads i List.mem_cons_self
      simp only [refresh, ← hdisp, ← hslot]
      refine ih (hslots.set fun hS => ?_) hins fun i' hi' => hreads i' (List.mem_cons_of_mem i hi')
      rw [hi hS]

def SameFlags (L : List Nat) (ins ins' : List EvalIn) : Prop :=
  ∀ k ∈ L, (ins[k]?.map (·.valid)).getD false = (ins'[k]?.map (·.valid)).getD false

theorem sameFlags_all {ins ins' : List EvalIn} (hflags : SameFlags L ins ins') {list : List Nat} (hL : list ⊆ L) :
    (list.all fun i => (ins[i]?.map (·.valid)).getD false) =
      list.all fun i => (ins'[i]?.map (·.valid)).getD false := by
  rw [Bool.eq_iff_iff, List.all_eq_true, List.all_eq_true]
  exact forall₂_congr fun k hk => by rw [hflags k (hL hk)]

section Value

variable {ins ins' : List EvalIn} {slots slots' : List Double} {v w : EvalVal}

theorem evalResult_same (now : Int) (hvw : Twin L v w) (hL : v.ins ⊆ L) (hslots : SameSlots S slots slots')
    (hzero : ¬ S 0) (hreads : ∀ slot ∈ v.expr.vars, slot = 0 ∨ S slot) :
    (v.expr.eval fun slot => (slots.set 0 (v.dt now)).getD slot .nan) =
      w.expr.eval fun slot => (slots'.set 0 (w.dt now)).getD slot .nan := by
  obtain ⟨hexpr, -⟩ := EvalVal.config_fields hvw.config
  obtain ⟨hlast, hts, -⟩ := hvw.state hL
  have hdt : v.dt now = w.dt now := by
    unfold EvalVal.dt
    rw [hlast, hts]
  rw [← hexpr, ← hdt]
  refine TeExpr.eval_congr fun slot hslot => ?_
  rcases hreads slot hslot with rfl | hS
  · exact hslots.set_self 0 (v.dt now)
  · exact ((hslots.left hzero _).right hzero _).2 slot hS

theorem evalValue_same (now : Int) (hvw : Twin L v w) (hslots : SameSlots S slots slots')
    (hflags : SameFlags L ins ins') (hzero : ¬ S 0)
    (hreads : v.ins ⊆ L → S v.slot ∧ ∀ slot ∈ v.expr.vars, slot = 0 ∨ S slot)
    (hown : S v.slot → v.ins ⊆ L) :
    Twin L (evalValue now ins slots v).1 (evalValue now ins' slots' w).1 ∧
      SameSlots S (evalValue now ins slots v).2 (evalValue now ins' slots' w).2 := by
  obtain ⟨-, hslot, hins, -⟩ := EvalVal.config_fields hvw.config
  have hconfig : (evalValue now ins slots v).1.config = (evalValue now ins' slots' w).1.config := hvw.config
  have hstart := (hslots.left hzero (v.dt now)).right hzero (w.dt now)
  by_cases hL : v.ins ⊆ L
  · have hr := evalResult_same now hvw hL hslots hzero (hreads hL).2
    obtain ⟨hlast, hts, -⟩ := hvw.state hL
    refine ⟨⟨hconfig, fun _ => ?_⟩, ?_⟩
    · simp only [evalValue, hr, hts, ← hins, sameFlags_all hflags hL, and_self]
    · simp only [evalValue, hr, ← hslot]
      split
      · exact hstart.set fun _ => rfl
      · exact hstart
  · have hS : ¬ S v.slot := fun h => hL (hown h)
    refine ⟨⟨hconfig, fun h => absurd h hL⟩, ?_⟩
    simp only [evalValue, ← hslot]
    split <;> split
    · exact (hstart.left hS _).right hS _
    · exact hstart.left hS _
    · exact hstart.right hS _
    · exact hstart

end Value

theorem evalValues_same (now : Int) {ins ins' : List EvalIn} (hflags : SameFlags L ins ins') (hzero : ¬ S 0)
    {vs ws : List EvalVal} (hvs : List.Forall₂ (Twin L) vs ws) {slots slots' : List Double}
    (hslots : SameSlots S slots slots')
    (hreads : ∀ v ∈ vs, v.ins ⊆ L → S v.slot ∧ ∀ slot ∈ v.expr.vars, slot = 0 ∨ S slot)
    (hown : ∀ v ∈ vs, S v.slot → v.ins ⊆ L) :
    List.Forall₂ (Twin L) (evalValues now ins vs slots).1 (evalValues now ins' ws slots').1 ∧
      SameSlots S (evalValues now ins vs slots).2 (evalValues now ins' ws slots').2 := by
  induction hvs generalizing slots slots' with
  | nil => exact ⟨.nil, hslots⟩
  | @cons v w vs ws hvw _ ih =>
    obtain ⟨hhead, hslots'⟩ := evalValue_same now hvw hslots hflags hzero (hreads v List.mem_cons_self)
      (hown v List.mem_cons_self)
    obtain ⟨htail, hend⟩ := ih hslots' (fun v' hv' => hreads v' (List.mem_cons_of_mem v hv'))
      fun v' hv' => hown v' (List.mem_cons_of_mem v hv')
    exact ⟨.cons hhead htail, hend⟩

theorem Twins.evaluate {t u : Eval} (h : Twins L S t u) (hc : Covers L S t) (now : Int)
    (hreads : ∀ k ∈ L, ∀ x, t.ins[k]? = some x → reads x.disp = reads' x.disp) :
    Twins L S (evaluate t now reads) (evaluate u now reads') := by
  have hslots : SameSlots S (refresh reads t.ins t.slots).2 (refresh reads' u.ins u.slots).2 := by
    refine refresh_same h.slots h.ins fun i hi hS => ?_
    obtain ⟨k, hk, x, hx, hd⟩ := hc.outside i hi hS
    rw [← hd]
    exact hreads k hk x hx
  have hflags : SameFlags L (refresh reads t.ins t.slots).1 (refresh reads' u.ins u.slots).1 := by
    intro k hk
    have hget := congrArg (·[k]?) h.ins
    simp only [List.getElem?_map] at hget
    rw [refresh_ins, refresh_ins, List.getElem?_map, List.getElem?_map]
    cases ht : t.ins[k]? with
    | none =>
      rw [ht] at hget
      rw [Option.map_eq_none_iff.mp hget.symm]
      rfl
    | some x =>
      rw [ht] at hget
      obtain ⟨y, hy, heq⟩ := Option.map_eq_some_iff.mp hget.symm
      obtain ⟨hd, -⟩ := Prod.mk.inj heq
      rw [hy]
      simp only [Option.map_some, Option.getD_some]
      rw [hd, hreads k hk x ht]
  obtain ⟨hvalues, hend⟩ := evalValues_same now hflags hc.zero h.values hslots hc.reads hc.own
  exact ⟨hvalues, by simpa [Function.comp_def] using h.ins, hend⟩

/-! ## Runs -/

theorem Covers.evaluate {e : Eval} (h : Covers L S e) (now : Int) (reads : String → Double × Bool) :
    Covers L S (evaluate e now reads) := by
  have hold : ∀ v ∈ (Evals.evaluate e now reads).values, ∃ w ∈ e.values, v.config = w.config := by
    intro v hv
    obtain ⟨i, hi⟩ := List.mem_iff_getElem?.mp hv
    obtain ⟨w, hw, hc⟩ := evaluate_get e now reads hi
    exact ⟨w, List.mem_of_getElem? hw, hc⟩
  refine ⟨h.zero, fun v hv hL => ?_, fun v hv hS => ?_, fun i hi hS => ?_⟩
  · obtain ⟨w, hw, hc⟩ := hold v hv
    obtain ⟨hexpr, hslot, hins, -⟩ := EvalVal.config_fields hc
    rw [hexpr, hslot]
    exact h.reads w hw (hins ▸ hL)
  · obtain ⟨w, hw, hc⟩ := hold v hv
    obtain ⟨-, hslot, hins, -⟩ := EvalVal.config_fields hc
    rw [hins]
    exact h.own w hw (hslot ▸ hS)
  · rw [evaluate_ins] at hi
    obtain ⟨j, hj, rfl⟩ := List.mem_map.mp hi
    obtain ⟨k, hk, x, hx, hd⟩ := h.outside j hj hS
    exact ⟨k, hk, { x with valid := (reads x.disp).2 }, by simp [hx], hd⟩

/-- Both runs evaluate at this time, and read the same pairs for the inputs in `L`. -/
def Agree (L : List Nat) (e : Eval) (a b : Int × (String → Double × Bool)) : Prop :=
  a.1 = b.1 ∧ ∀ k ∈ L, ∀ x, e.ins[k]? = some x → a.2 x.disp = b.2 x.disp

theorem Agree.evaluate {e : Eval} {a b : Int × (String → Double × Bool)} (h : Agree L e a b) (now : Int)
    (reads : String → Double × Bool) : Agree L (evaluate e now reads) a b := by
  refine ⟨h.1, fun k hk x hx => ?_⟩
  rw [evaluate_ins, List.getElem?_map] at hx
  obtain ⟨y, hy, rfl⟩ := Option.map_eq_some_iff.mp hx
  exact h.2 k hk y hy

theorem Twins.run {t u t' u' : Eval} {l m : List (Int × (String → Double × Bool))} (h : Twins L S t u)
    (hc : Covers L S t) (hagree : List.Forall₂ (Agree L t) l m) (hl : Run evalStep t l t')
    (hm : Run evalStep u m u') : Twins L S t' u' := by
  induction l generalizing m t u with
  | nil =>
    obtain rfl := List.forall₂_nil_left_iff.mp hagree
    rw [run_nil] at hl hm
    exact hl ▸ hm ▸ h
  | cons a l ih =>
    obtain ⟨b, m, hab, hrest, rfl⟩ := List.forall₂_cons_left_iff.mp hagree
    obtain ⟨t₁, ht₁, hl⟩ := (run_cons ..).mp hl
    obtain ⟨u₁, hu₁, hm⟩ := (run_cons ..).mp hm
    obtain rfl := Option.some.inj ht₁
    obtain rfl := Option.some.inj hu₁
    rw [← hab.1] at hm
    refine ih (h.evaluate hc a.1 hab.2) (hc.evaluate a.1 a.2) ?_ hl hm
    exact hrest.imp fun _ _ hcd => hcd.evaluate a.1 a.2

end Evaluation

/-! ## The slots of covered values -/

def UsedSlot (L : List Nat) (e : Eval) (slot : Nat) : Prop :=
  (∃ v ∈ e.values, v.ins ⊆ L ∧ v.slot = slot) ∨ ∃ k ∈ L, ∃ x, e.ins[k]? = some x ∧ x.slot = slot

theorem Configured.covers {names : List String} {e₀ e : Eval} (h : Configured names e₀ e) (L : List Nat) :
    Covers L (UsedSlot L e) e := by
  have hfit := h.fit
  have hslot : ∀ (i : Nat) v, e.values[i]? = some v → v.slot = 1 + i := fun i v hv => (h.compiled.walked i v hv).slot
  refine ⟨?_, fun v hv hL => ⟨.inl ⟨v, hv, hL, rfl⟩, fun slot hs => ?_⟩, fun v hv hS => ?_, fun i hi hS => ?_⟩
  · rintro (⟨v, hv, -, h0⟩ | ⟨k, -, x, hx, h0⟩)
    · obtain ⟨i, hi⟩ := List.mem_iff_getElem?.mp hv
      have := hslot i v hi
      omega
    · exact (hfit.bound x (List.mem_of_getElem? hx)).2 h0
  · obtain ⟨i, hi⟩ := List.mem_iff_getElem?.mp hv
    obtain ⟨hown, hout⟩ := (h.compiled.walked i v hi).listed slot hs
    by_cases h0 : slot = 0
    · exact .inl h0
    refine .inr ?_
    by_cases hn : slot ≤ e.values.length
    · have hr : slot - 1 < e.values.length := by omega
      have hget := List.getElem?_eq_getElem hr
      refine .inl ⟨_, List.mem_of_getElem? hget, ?_, by rw [hslot _ _ hget]; omega⟩
      by_cases hself : slot - 1 = i
      · subst hself
        rwa [← Option.some.inj (hi.symm.trans hget)]
      · exact List.Subset.trans (h.compiled.closed i (slot - 1) v _ hi (hown h0 hn hself) hget) hL
    · obtain ⟨k, hk, x, hx, -, hxs⟩ := hout (by omega)
      exact .inr ⟨k, hL hk, x, hx, hxs⟩
  · rcases hS with ⟨w, hw, hL, heq⟩ | ⟨k, -, x, hx, heq⟩
    · obtain ⟨i, hi⟩ := List.mem_iff_getElem?.mp hv
      obtain ⟨j, hj⟩ := List.mem_iff_getElem?.mp hw
      have hvs := hslot i v hi
      have hws := hslot j w hj
      obtain rfl : i = j := by omega
      rwa [Option.some.inj (hi.symm.trans hj)]
    · exact absurd heq.symm (hfit.own v hv x (List.mem_of_getElem? hx))
  · rcases hS with ⟨w, hw, -, heq⟩ | ⟨k, hk, x, hx, heq⟩
    · exact absurd heq (hfit.own w hw i hi)
    · obtain ⟨j, hj⟩ := List.mem_iff_getElem?.mp hi
      obtain rfl := h.inputs.distinct k j x i hx hj heq
      exact ⟨k, hk, x, hx, by rw [Option.some.inj (hx.symm.trans hj)]⟩

theorem run_covers {L : List Nat} {S : Nat → Prop} {e e' : Eval} {l : List (Int × (String → Double × Bool))}
    (h : Covers L S e) (hrun : Run evalStep e l e') : Covers L S e' :=
  hrun.invariant (I := Covers L S) (fun _ a _ h hst => Option.some.inj hst ▸ h.evaluate a.1 a.2) h

theorem run_value {e t : Eval} {l : List (Int × (String → Double × Bool))} (hrun : Run evalStep e l t) {i : Nat}
    {v : EvalVal} (hv : e.values[i]? = some v) : ∃ x, t.values[i]? = some x ∧ x.config = v.config := by
  refine hrun.invariant (I := fun e' => ∃ x, e'.values[i]? = some x ∧ x.config = v.config) ?_ ⟨v, hv, rfl⟩
  rintro e' a _ ⟨x, hx, hxc⟩ hst
  obtain rfl := Option.some.inj hst
  have hc := congrArg (·[i]?) (evaluate_config e' a.1 a.2)
  simp only [List.getElem?_map, hx, Option.map_some] at hc
  obtain ⟨y, hy, hyc⟩ := Option.map_eq_some_iff.mp hc
  exact ⟨y, hy, hyc.trans hxc⟩

/-- **The list of a value is closed.** Two runs from one state that evaluate at the same times and
agree on the pair of each listed input of value `i` in every evaluation leave it with the same
number and validity. -/
theorem closure_sound (cfg : EvalConf) (names triggers : List String) (e₀ e₁ e : Eval)
    (l₀ : List (Int × (String → Double × Bool))) (hone : evalConfigureOne cfg = some e₀)
    (htwo : evalConfigureTwo names e₀ triggers = some e₁) (hstart : Run evalStep e₁ l₀ e) (i : Nat) (v : EvalVal)
    (hv : e.values[i]? = some v) (l m : List (Int × (String → Double × Bool)))
    (hagree : List.Forall₂ (Agree v.ins e) l m) (t u : Eval) (hl : Run evalStep e l t) (hm : Run evalStep e m u) :
    ∃ x y, t.values[i]? = some x ∧ u.values[i]? = some y ∧ x.valid = y.valid ∧
      t.slots.getD x.slot .nan = u.slots.getD y.slot .nan := by
  have hc := run_covers ((configured hone htwo).covers v.ins) hstart
  have htwins := (Twins.refl v.ins _ e).run hc hagree hl hm
  obtain ⟨y, hy, -⟩ := run_value hm hv
  obtain ⟨x, hx, hxy⟩ := getElem?_forall₂ htwins.values hy
  obtain ⟨x', hx', hxc⟩ := run_value hl hv
  obtain rfl := Option.some.inj (hx.symm.trans hx')
  have hL : x.ins ⊆ v.ins := by
    rw [(EvalVal.config_fields hxc).2.2.1]
    exact fun _ => id
  obtain ⟨-, hslot, -⟩ := EvalVal.config_fields hxy.config
  have hS := ((run_covers hc hl).reads x (List.mem_of_getElem? hx) hL).1
  refine ⟨x, y, hx, hy, (hxy.state hL).2.2, ?_⟩
  rw [← hslot]
  exact htwins.slots.2 x.slot hS

/-- `value p { expr = "x" }` and `value q { expr = "p + y" }`. -/
def sumConf : EvalConf where
  title := "e"
  values :=
    [{ title := "p", expr := some (.var "x") },
      { title := "q", expr := some (.binary add (.var "p") (.var "y")) }]

def sumReads (d : Double) (name : String) : Double × Bool := if name = "y" then (d, true) else (.fin 1, true)

theorem closure_sound_example :
    ∃ e₀ e₁ v x y, evalConfigureOne sumConf = some e₀ ∧ evalConfigureTwo ["x", "y"] e₀ [] = some e₁ ∧
      e₁.values[0]? = some v ∧ v.ins = [0] ∧
      (evaluate e₁ 5 (sumReads (.fin 2))).values[0]? = some x ∧
      (evaluate e₁ 5 (sumReads .nan)).values[0]? = some y ∧ x.valid = y.valid := by
  have hreads : ∀ k ∈ [0], ∀ x : EvalIn, [{ disp := "x", slot := 3 }, { disp := "y", slot := 4 }][k]? = some x →
      sumReads (.fin 2) x.disp = sumReads .nan x.disp := by
    intro k hk x hx
    obtain rfl := List.mem_singleton.mp hk
    obtain rfl := Option.some.inj hx
    rfl
  obtain ⟨x, y, hx, hy, hvalid, -⟩ := closure_sound sumConf ["x", "y"] [] _ _ _ [] rfl rfl ((run_nil _ _).mpr rfl)
    0 _ rfl [(5, sumReads (.fin 2))] [(5, sumReads .nan)] (.cons ⟨rfl, hreads⟩ .nil) _ _ rfl rfl
  exact ⟨_, _, _, x, y, rfl, rfl, rfl, rfl, hx, hy, hvalid⟩

end Uvrgw.Evals
