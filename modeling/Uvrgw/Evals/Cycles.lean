import Mathlib.Data.List.Perm.Subperm
import Uvrgw.Evals.Triggers
import Uvrgw.Lib.Acyclic
import Uvrgw.Lib.Except

/-! # The check for trigger cycles (`check_cycles`) -/

namespace Uvrgw.Evals

open Uvrgw.Lib Relation

/-! ## The search with its array -/

/-- `EVAL_T **path`. -/
abbrev Path := List (Option Nat)

/-- Why the search ends early. -/
inductive Stop where
  /-- The evals of the message. -/
  | cycle (message : List Nat)
  /-- The recursion is deeper than allowed. -/
  | deep
  /-- An access outside `path`, or to an entry without an eval. -/
  | outside
  deriving DecidableEq, Repr

/-- `path[depth] = e`. -/
def storePath (path : Path) (depth e : Nat) : Except Stop Path :=
  if depth < path.length then .ok (path.set depth (some e)) else .error .outside

/-- `for (i = 0; path[i] != b; i++)`. -/
def indexOnPath (path : Path) (b : Nat) : Except Stop Nat :=
  match path.findIdx? (· = some b) with
  | some i => .ok i
  | none => .error .outside

/-- The evals that the message names: `path[i]` to `path[depth]`, then `b`. -/
def cycleMessage (path : Path) (depth b : Nat) : Except Stop (List Nat) := do
  let i ← indexOnPath path b
  match ((path.take (depth + 1)).drop i).mapM id with
  | some es => return es ++ [b]
  | none => throw .outside

/-- `visit`, with at most `fuel` frames on the stack. -/
def visitPath (evals : List Eval) : Nat → Nat → Nat → Path × (Nat → Visit) → Except Stop (Path × (Nat → Visit))
  | 0, _, _, _ => .error .deep
  | fuel + 1, e, depth, s => do
    let path ← storePath s.1 depth e
    let s ← (List.range evals.length).foldlM
      (fun s b =>
        if s.2 b = .done ∨ ¬ triggeredBy evals b e then pure s
        else if s.2 b = .unseen then visitPath evals fuel b (depth + 1) s
        else do
          let message ← cycleMessage s.1 depth b
          throw (.cycle message))
      (path, Function.update s.2 e .onPath)
    return (s.1, Function.update s.2 e .done)

/-- `check_cycles`, where the recursion may be as deep as there are evals. -/
def checkPath (evals : List Eval) : Except Stop (Path × (Nat → Visit)) :=
  (List.range evals.length).foldlM
    (fun s e => if s.2 e = .unseen then visitPath evals evals.length e 0 s else pure s)
    (List.replicate evals.length none, fun _ => .unseen)

/-! ## Who triggers whom -/

def Publishes (evals : List Eval) (a : Nat) (name : String) : Prop :=
  ∃ e, evals[a]? = some e ∧ ∃ v ∈ e.values, v.disp = some name

def Triggers (evals : List Eval) (a b : Nat) : Prop :=
  ∃ name, Publishes evals a name ∧ ∃ e, evals[b]? = some e ∧ name ∈ e.triggers

/-- `uvrgw_conf_set_producer` refuses a second producer of a name. -/
def OneProducer (evals : List Eval) : Prop :=
  ∀ name a b, Publishes evals a name → Publishes evals b name → a = b

theorem evalOf_eq_some {evals : List Eval} (hone : OneProducer evals) {name : String} {a : Nat} :
    evalOf evals name = some a ↔ Publishes evals a name := by
  have hpub : ∀ b, Publishes evals b name ↔
      ∃ h : b < evals.length, (evals[b].values.any fun v => decide (v.disp = some name)) = true := by
    intro b
    constructor
    · rintro ⟨e, he, v, hv, hd⟩
      obtain ⟨hb, rfl⟩ := List.getElem?_eq_some_iff.mp he
      exact ⟨hb, List.any_eq_true.mpr ⟨v, hv, by simpa using hd⟩⟩
    · rintro ⟨hb, h⟩
      obtain ⟨v, hv, hd⟩ := List.any_eq_true.mp h
      exact ⟨evals[b], List.getElem?_eq_getElem hb, v, hv, by simpa using hd⟩
  unfold evalOf
  rw [List.findIdx?_eq_some_iff_getElem]
  constructor
  · rintro ⟨hlt, h, -⟩
    exact (hpub a).mpr ⟨hlt, h⟩
  · intro h
    obtain ⟨hlt, ha⟩ := (hpub a).mp h
    refine ⟨hlt, ha, fun b hb hany => ?_⟩
    have := hone name b a ((hpub b).mpr ⟨by omega, hany⟩) h
    omega

theorem triggeredBy_iff {evals : List Eval} (hone : OneProducer evals) (a b : Nat) :
    triggeredBy evals b a = true ↔ Triggers evals a b := by
  unfold triggeredBy Triggers
  cases evals[b]? with
  | none => simp
  | some e => simp [evalOf_eq_some hone, and_comm]

theorem triggeredBy_lt {evals : List Eval} {a b : Nat} (h : triggeredBy evals b a = true) : b < evals.length := by
  unfold triggeredBy at h
  split at h
  · exact (List.getElem?_eq_some_iff.mp ‹_›).1
  · cases h

/-! ## What the search keeps -/

/-- A value of eval `a` sets the flag of eval `b`. -/
def Feeds (evals : List Eval) (a b : Nat) : Prop := triggeredBy evals b a = true

/-- The state of the search with `path` on its stack. -/
structure Search (evals : List Eval) (path : List Nat) (s : Path × (Nat → Visit)) : Prop where
  length : s.1.length = evals.length
  held : path.map some <+: s.1
  marked : ∀ a, s.2 a = .onPath ↔ a ∈ path
  lt : ∀ a ∈ path, a < evals.length
  trail : Trail (Feeds evals) path (s.2 · = .done)

theorem Search.init (evals : List Eval) :
    Search evals [] (List.replicate evals.length none, fun _ => .unseen) where
  length := List.length_replicate
  held := List.nil_prefix
  marked := by simp
  lt := by simp
  trail := .nil ⟨by simp, by simp⟩

variable {evals : List Eval} {path : List Nat} {s : Path × (Nat → Visit)}

theorem Search.room (h : Search evals path s) {e : Nat} (he : e ∉ path) (hlt : e < evals.length) :
    path.length < evals.length := by
  have hnodup : (e :: path).Nodup := List.nodup_cons.mpr ⟨he, h.trail.nodup⟩
  have hsub : e :: path ⊆ List.range evals.length := by
    intro a ha
    rcases List.mem_cons.mp ha with rfl | ha
    · exact List.mem_range.mpr hlt
    · exact List.mem_range.mpr (h.lt a ha)
  have hle := (List.subperm_of_subset hnodup hsub).length_le
  rw [List.length_cons, List.length_range] at hle
  omega

theorem set_prefix {l p : Path} (h : l <+: p) (hlt : l.length < p.length) (x : Option Nat) :
    l ++ [x] <+: p.set l.length x := by
  obtain ⟨t, rfl⟩ := h
  cases t with
  | nil => simp at hlt
  | cons y t =>
    rw [List.set_append_right _ _ le_rfl, Nat.sub_self, List.set_cons_zero]
    exact ⟨t, by simp⟩

theorem Search.enter (h : Search evals path s) {e : Nat} (he : s.2 e = .unseen) (hlt : e < evals.length)
    (hlast : ∀ b ∈ path.getLast?, Feeds evals b e) :
    ∃ p, storePath s.1 path.length e = .ok p ∧ Search evals (path ++ [e]) (p, Function.update s.2 e .onPath) := by
  have hpath : e ∉ path := by
    rw [← h.marked, he]
    simp
  have hroom := h.room hpath hlt
  rw [← h.length] at hroom
  have hdone : (fun a => Function.update s.2 e .onPath a = .done) = (s.2 · = .done) := by
    funext a
    by_cases ha : a = e
    · subst ha
      simp [he]
    · rw [Function.update_of_ne ha]
  refine ⟨s.1.set path.length (some e), if_pos hroom, ?_⟩
  constructor
  · rw [List.length_set, h.length]
  · have hset := set_prefix h.held (by simpa using hroom) (some e)
    simpa using hset
  · intro a
    by_cases ha : a = e
    · subst ha
      simp
    · simp [h.marked, ha]
  · intro a ha
    rcases List.mem_append.mp ha with ha | ha
    · exact h.lt a ha
    · exact List.mem_singleton.mp ha ▸ hlt
  · rw [hdone]
    exact h.trail.push hpath (by simp [he]) hlast

theorem Search.leave {e : Nat} (h : Search evals (path ++ [e]) s) (hsucc : ∀ b, Feeds evals e b → s.2 b = .done) :
    Search evals path (s.1, Function.update s.2 e .done) where
  length := h.length
  held := (List.prefix_append _ _).trans (List.map_append ▸ h.held)
  marked := by
    intro a
    by_cases ha : a = e
    · subst ha
      have := (List.nodup_append.mp h.trail.nodup).2.2
      simpa using fun hm => this a hm a (by simp) rfl
    · simp [h.marked, ha]
  lt := fun a ha => h.lt a (List.mem_append_left _ ha)
  trail := h.trail.pop hsucc fun b => by
    by_cases hb : b = e
    · simp [hb]
    · simp [hb]

theorem Search.message (h : Search evals path s) {b depth : Nat} (hb : b ∈ path) (hdepth : path.length = depth + 1) :
    cycleMessage s.1 depth b = .ok (path.dropWhile (· ≠ b) ++ [b]) := by
  obtain ⟨t, ht⟩ := h.held
  have hindex : indexOnPath s.1 b = .ok (path.findIdx (· = b)) := by
    have hfound : path.findIdx? (· = b) = some (path.findIdx (· = b)) :=
      List.findIdx?_eq_some_of_exists ⟨b, hb, by simp⟩
    have hsome : ((fun x : Option Nat => decide (x = some b)) ∘ some) = fun a => decide (a = b) := by
      funext a
      simp
    unfold indexOnPath
    rw [← ht, List.findIdx?_append, List.findIdx?_map, hsome, hfound]
    rfl
  have hall : ((s.1.take (depth + 1)).drop (path.findIdx (· = b))).mapM id =
      some (path.drop (path.findIdx (· = b))) := by
    rw [← ht, ← hdepth, List.take_left' (by simp), ← List.map_drop, mapM_eq_some, List.forall₂_map_left_iff]
    exact List.forall₂_same.mpr fun _ _ => rfl
  have hdrop : path.dropWhile (· ≠ b) = path.drop (path.findIdx (· = b)) := by
    rw [List.dropWhile_eq_drop_findIdx_not]
    simp
  unfold cycleMessage
  rw [hindex, hdrop]
  simp only [bind, Except.bind, hall]
  rfl

/-- What it means that the search ends early, on a path that may still grow to `limit`. -/
def Stop.Means (evals : List Eval) (limit : Nat) : Stop → Prop
  | .cycle _ => ¬ Acyclic (Feeds evals)
  | .deep => limit < evals.length
  | .outside => False

/-- The loop of `visit` at eval `e` has passed the evals of `seen`; what was left before it still is. -/
structure Passed (evals : List Eval) (path : List Nat) (e : Nat) (before : Nat → Visit) (seen : List Nat)
    (s : Path × (Nat → Visit)) : Prop where
  search : Search evals (path ++ [e]) s
  left : ∀ b ∈ seen, Feeds evals e b → s.2 b = .done
  mono : ∀ a, before a = .done → s.2 a = .done

section Loop

variable {e b : Nat} {before : Nat → Visit} {seen : List Nat} {s' : Path × (Nat → Visit)}

theorem Passed.skip (h : Passed evals path e before seen s) (hskip : s.2 b = .done ∨ ¬ Feeds evals e b) :
    Passed evals path e before (seen ++ [b]) s where
  search := h.search
  left := by
    intro c hc hf
    rcases List.mem_append.mp hc with hc | hc
    · exact h.left c hc hf
    · obtain rfl := List.mem_singleton.mp hc
      exact hskip.resolve_right fun hn => hn hf
  mono := h.mono

theorem Passed.visit (h : Passed evals path e before seen s) (hs : Search evals (path ++ [e]) s')
    (hdone : s'.2 b = .done) (hmono : ∀ a, s.2 a = .done → s'.2 a = .done) :
    Passed evals path e before (seen ++ [b]) s' where
  search := hs
  left := by
    intro c hc hf
    rcases List.mem_append.mp hc with hc | hc
    · exact hmono c (h.left c hc hf)
    · exact List.mem_singleton.mp hc ▸ hdone
  mono := fun a ha => hmono a (h.mono a ha)

theorem Passed.cycle (h : Passed evals path e before seen s) (hf : Feeds evals e b) (hseen : s.2 b ≠ .unseen)
    (hdone : s.2 b ≠ .done) :
    ∃ message, cycleMessage s.1 path.length b = .ok message ∧ ¬ Acyclic (Feeds evals) := by
  have hon : b ∈ path ++ [e] := by
    rw [← h.search.marked]
    cases hm : s.2 b with
    | unseen => exact absurd hm hseen
    | onPath => rfl
    | done => exact absurd hm hdone
  exact ⟨_, h.search.message hon (by simp), fun hacyc => hacyc b (h.search.trail.cycle hon hf)⟩

end Loop

theorem visitPath_spec {fuel e : Nat} (h : Search evals path s) (he : s.2 e = .unseen) (hlt : e < evals.length)
    (hlast : ∀ b ∈ path.getLast?, Feeds evals b e) :
    Ends (fun s' => Search evals path s' ∧ s'.2 e = .done ∧ ∀ a, s.2 a = .done → s'.2 a = .done)
      (Stop.Means evals (fuel + path.length)) (visitPath evals fuel e path.length s) := by
  induction fuel generalizing e path s with
  | zero =>
    have hpath : e ∉ path := by
      rw [← h.marked, he]
      simp
    have := h.room hpath hlt
    simpa [visitPath, Ends, Stop.Means] using this
  | succ fuel ih =>
    obtain ⟨p, hp, hin⟩ := h.enter he hlt hlast
    rw [visitPath, hp]
    refine (Ends.foldlM (Passed evals path e s.2) (List.range evals.length) (fun seen b s' hseen hI => ?_)
      ⟨hin, by simp, fun a ha => (Function.update_of_ne ?_ ..).trans ha⟩).bind ?_
    · have hb : b < evals.length := List.mem_range.mp (hseen.subset (by simp))
      split
      · exact hI.skip ‹_›
      rename_i hgo
      rw [not_or, not_not] at hgo
      split
      · rename_i hunseen
        have hfeeds : Feeds evals e b := hgo.2
        have hrec := ih hI.search hunseen hb (by simpa using hfeeds)
        rw [show (path ++ [e]).length = path.length + 1 by simp] at hrec
        refine hrec.mono (fun s'' ⟨hs'', hdone, hmono⟩ => hI.visit hs'' hdone hmono) ?_
        rw [Nat.add_right_comm, Nat.add_assoc]
        exact fun _ => id
      · obtain ⟨message, hmessage, hcycle⟩ := hI.cycle hgo.2 ‹_› hgo.1
        rw [hmessage]
        exact hcycle
    · rintro rfl
      rw [he] at ha
      cases ha
    · rintro s' hI
      refine ⟨hI.search.leave fun b hf => hI.left b (List.mem_range.mpr (triggeredBy_lt hf)) hf, by simp,
        fun a ha => ?_⟩
      by_cases hae : a = e
      · simp [hae]
      · exact (Function.update_of_ne hae ..).trans (hI.mono a ha)

theorem checkPath_spec (evals : List Eval) :
    Ends (fun _ => Acyclic (Feeds evals)) (fun stop => (∃ c, stop = .cycle c) ∧ ¬ Acyclic (Feeds evals))
      (checkPath evals) := by
  let I (seen : List Nat) (s : Path × (Nat → Visit)) : Prop :=
    Search evals [] s ∧ ∀ e ∈ seen, s.2 e = .done
  have hloop : Ends (I (List.range evals.length)) (Stop.Means evals evals.length) (checkPath evals) := by
    refine Ends.foldlM I _ (fun seen e s hseen hI => ?_) ⟨.init evals, by simp⟩
    obtain ⟨hs, hdone⟩ := hI
    have he : e < evals.length := List.mem_range.mp (hseen.subset (by simp))
    split
    · rename_i hunseen
      refine (visitPath_spec hs hunseen he (by simp)).mono (fun s' ⟨hs', hin, hmono⟩ => ⟨hs', fun a ha => ?_⟩)
        fun _ => id
      rcases List.mem_append.mp ha with ha | ha
      · exact hmono a (hdone a ha)
      · exact List.mem_singleton.mp ha ▸ hin
    · rename_i hseen
      refine ⟨hs, fun a ha => ?_⟩
      rcases List.mem_append.mp ha with ha | ha
      · exact hdone a ha
      · obtain rfl := List.mem_singleton.mp ha
        cases hm : s.2 a with
        | unseen => exact absurd hm hseen
        | onPath => exact absurd ((hs.marked a).mp hm) (by simp)
        | done => rfl
  refine hloop.mono (fun s ⟨hs, hdone⟩ a ha => ?_) fun stop hstop => ?_
  · obtain ⟨b, -, hba⟩ := TransGen.tail'_iff.mp ha
    exact hs.trail.explored.acyclic a (hdone a (List.mem_range.mpr (triggeredBy_lt hba))) ha
  · cases stop with
    | cycle c => exact ⟨⟨c, rfl⟩, hstop⟩
    | deep => exact absurd hstop (lt_irrefl _)
    | outside => exact hstop.elim

/-! ## Without the array -/

/-- What an outcome of the search with the array says about the one without it. -/
def SameOutcome (x : Except Stop (Path × (Nat → Visit))) (y : Except (Option (List Nat)) (Nat → Visit)) : Prop :=
  Ends (fun s => y = .ok s.2) (fun stop => ∀ c, stop = .cycle c → ∃ c', y = .error (some c')) x

theorem SameOutcome.bind {x : Except Stop (Path × (Nat → Visit))} {y : Except (Option (List Nat)) (Nat → Visit)}
    {f : Path × (Nat → Visit) → Except Stop (Path × (Nat → Visit))}
    {g : (Nat → Visit) → Except (Option (List Nat)) (Nat → Visit)} (h : SameOutcome x y)
    (hfg : ∀ s, SameOutcome (f s) (g s.2)) : SameOutcome (x >>= f) (y >>= g) := by
  cases x with
  | ok s =>
    rw [show y = .ok s.2 from h]
    exact hfg s
  | error stop =>
    intro c hc
    obtain ⟨c', rfl⟩ := h c hc
    exact ⟨c', rfl⟩

theorem SameOutcome.foldlM {f : Path × (Nat → Visit) → Nat → Except Stop (Path × (Nat → Visit))}
    {g : (Nat → Visit) → Nat → Except (Option (List Nat)) (Nat → Visit)} (l : List Nat)
    (hfg : ∀ s a, SameOutcome (f s a) (g s.2 a)) (s : Path × (Nat → Visit)) :
    SameOutcome (l.foldlM f s) (l.foldlM g s.2) := by
  induction l generalizing s with
  | nil => exact rfl
  | cons a l ih =>
    rw [List.foldlM_cons, List.foldlM_cons]
    exact (hfg s a).bind ih

theorem visitPath_visit {fuel limit : Nat} (hle : fuel ≤ limit) (e depth : Nat) (path : List Nat)
    (s : Path × (Nat → Visit)) :
    SameOutcome (visitPath evals fuel e depth s) (visit evals limit e path s.2) := by
  induction fuel generalizing limit e depth path s with
  | zero => exact fun c hc => nomatch hc
  | succ fuel ih =>
    obtain ⟨limit, rfl⟩ : ∃ k, limit = k + 1 := ⟨limit - 1, by omega⟩
    rw [visitPath, visit]
    unfold storePath
    split
    · refine SameOutcome.bind (SameOutcome.foldlM _ (fun s' b => ?_) (_, _)) fun s' => rfl
      split
      · exact rfl
      split
      · exact ih (by omega) b _ _ s'
      · cases cycleMessage s'.1 depth b with
        | ok message => exact fun c _ => ⟨_, rfl⟩
        | error stop => exact fun c _ => ⟨_, rfl⟩
    · exact fun c hc => nomatch hc

theorem checkPath_checkCycles (evals : List Eval) : SameOutcome (checkPath evals) (checkCycles evals) := by
  refine SameOutcome.foldlM _ (fun s e => ?_) (_, _)
  split
  · exact visitPath_visit (Nat.le_succ _) e 0 [] s
  · exact rfl

/-! ## The check is exact -/

theorem checkPath_isOk (evals : List Eval) : (checkPath evals).isOk = (checkCycles evals).isOk := by
  have hspec := checkPath_spec evals
  have hsame := checkPath_checkCycles evals
  cases hx : checkPath evals with
  | ok s =>
    rw [hx] at hsame
    rw [show checkCycles evals = .ok s.2 from hsame]
    rfl
  | error stop =>
    rw [hx] at hspec hsame
    obtain ⟨⟨c, hc⟩, -⟩ := hspec
    obtain ⟨c', hc'⟩ := hsame c hc
    rw [hc']
    rfl

theorem acyclic_feeds {evals : List Eval} (hone : OneProducer evals) :
    Acyclic (Feeds evals) ↔ Acyclic (Triggers evals) := by
  have heq : Feeds evals = Triggers evals := by
    funext a b
    exact propext (triggeredBy_iff hone a b)
  rw [heq]

theorem checkPath_acyclic {evals : List Eval} (hone : OneProducer evals) :
    (checkPath evals).isOk = true ↔ Acyclic (Triggers evals) := by
  have hspec := checkPath_spec evals
  rw [acyclic_feeds hone] at hspec
  cases hx : checkPath evals with
  | ok s =>
    rw [hx] at hspec
    exact iff_of_true rfl hspec
  | error stop =>
    rw [hx] at hspec
    exact iff_of_false (by simp [Except.isOk, Except.toBool]) hspec.2

theorem checkCycles_isOk {evals : List Eval} (hone : OneProducer evals) :
    (checkCycles evals).isOk = true ↔ Acyclic (Triggers evals) := by
  rw [← checkPath_isOk]
  exact checkPath_acyclic hone

/-- **The check is exact.** It succeeds if and only if no eval triggers itself through others, its
recursion is never deeper than there are evals, and it stays within `path`. -/
theorem check_cycles_exact (evals : List Eval) (hone : OneProducer evals) :
    ((checkCycles evals).isOk = true ↔ Acyclic (Triggers evals)) ∧
      ((checkPath evals).isOk = true ↔ Acyclic (Triggers evals)) ∧
      checkPath evals ≠ .error .deep ∧ checkPath evals ≠ .error .outside := by
  refine ⟨checkCycles_isOk hone, checkPath_acyclic hone, fun hx => ?_, fun hx => ?_⟩
  all_goals
    have hspec := checkPath_spec evals
    rw [hx] at hspec
    obtain ⟨⟨c, hc⟩, -⟩ := hspec
    cases hc

/-- Two evals that trigger each other. -/
def loopEvals : List Eval :=
  [{ name := "a", values := [{ name := "x", exprStr := .var "in", disp := some "x" }], triggers := ["in", "y"] },
   { name := "b", values := [{ name := "y", exprStr := .var "x", disp := some "y" }], triggers := ["x"] }]

theorem loopEvals_oneProducer : OneProducer loopEvals := by
  have hpub : ∀ a name, Publishes loopEvals a name → (a = 0 ∧ name = "x") ∨ (a = 1 ∧ name = "y") := by
    rintro a name ⟨e, he, v, hv, hd⟩
    match a with
    | 0 =>
      obtain rfl : _ = e := Option.some.inj he
      obtain rfl := List.mem_singleton.mp hv
      exact .inl ⟨rfl, (Option.some.inj hd).symm⟩
    | 1 =>
      obtain rfl : _ = e := Option.some.inj he
      obtain rfl := List.mem_singleton.mp hv
      exact .inr ⟨rfl, (Option.some.inj hd).symm⟩
    | a + 2 => cases he
  intro name a b ha hb
  rcases hpub a name ha with ⟨rfl, rfl⟩ | ⟨rfl, rfl⟩ <;> rcases hpub b _ hb with ⟨rfl, hn⟩ | ⟨rfl, hn⟩
  · rfl
  · simp at hn
  · simp at hn
  · rfl

theorem check_cycles_exact_example :
    (checkCycles loopEvals).isOk = false ∧ ¬ Acyclic (Triggers loopEvals) := by
  have hfails : (checkCycles loopEvals).isOk = false := by decide +kernel
  refine ⟨hfails, fun h => ?_⟩
  have := (check_cycles_exact loopEvals loopEvals_oneProducer).1.mpr h
  rw [hfails] at this
  cases this

end Uvrgw.Evals
