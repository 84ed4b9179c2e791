import Mathlib.Data.List.Induction
import Mathlib.Data.List.Perm.Basic
import Uvrgw.Conf.Registry

/-!
# Which registrations are accepted (`uvrgw_conf.c`)

The checks when a module registers and those of `check_dispatchers` together, against conditions on the
list of registrations that do not depend on its order.
-/

namespace Uvrgw.Conf

open Uvrgw.Lib Uvrgw.Dispatch

variable {V : Type}

def accepts (rs : List (Registration V)) : Bool :=
  match registerAll [] rs with
  | none => false
  | some disp => checkDispatchers disp

/-- The calls of a module: it gets the dispatcher before it registers something on it. -/
def Registration.calls (r : Registration V) : List (Registration V) := [.get r.name false, r]

/-- Nothing is registered on a dispatcher that was not obtained before. -/
def Obtained (rs : List (Registration V)) : Prop :=
  ∀ pre r, pre ++ [r] <+: rs → (∃ n b, r = .get n b) ∨ r.name ∈ pre.map Registration.name

/-! ## What the list has to satisfy -/

def Registration.produces : Registration V → Option String
  | produce name .. => some name
  | get .. | needTimeout .. => none

/-- A finite start value and a timeout that is not negative. -/
def Registration.Valid : Registration V → Prop
  | produce _ _ _ _ _ init timeout => init.isfinite = true ∧ 0 ≤ timeout
  | get .. | needTimeout .. => True

structure Acceptable (rs : List (Registration V)) : Prop where
  /-- No name has two producers. -/
  single : (rs.filterMap Registration.produces).Nodup
  valid : ∀ r ∈ rs, r.Valid
  /-- Every name has a producer. -/
  produced : ∀ r ∈ rs, r.name ∈ rs.filterMap Registration.produces
  /-- An input that is read with a timeout has one. -/
  readers : ∀ name reader readerInst module inst val init timeout, .needTimeout name reader readerInst ∈ rs →
    .produce name module inst val true init timeout ∈ rs → 0 < timeout

theorem Acceptable.perm {rs rs' : List (Registration V)} (hp : rs.Perm rs') (h : Acceptable rs) : Acceptable rs' where
  single := (hp.filterMap _).nodup_iff.mp h.single
  valid := fun r hr => h.valid r (hp.mem_iff.mpr hr)
  produced := fun r hr => (hp.filterMap _).mem_iff.mp (h.produced r (hp.mem_iff.mpr hr))
  readers := fun n m i m' i' v d t hn hm =>
    h.readers n m i m' i' v d t (hp.mem_iff.mpr hn) (hp.mem_iff.mpr hm)

theorem mem_produces {rs : List (Registration V)} {name : String} :
    name ∈ rs.filterMap Registration.produces ↔
      ∃ module inst val input init timeout, .produce name module inst val input init timeout ∈ rs := by
  rw [List.mem_filterMap]
  constructor
  · rintro ⟨r, hr, hn⟩
    cases r with
    | get => cases hn
    | needTimeout => cases hn
    | produce n m i v b d t =>
      cases hn
      exact ⟨m, i, v, b, d, t, hr⟩
  · rintro ⟨m, i, v, b, d, t, hr⟩
    exact ⟨_, hr, rfl⟩

/-! ## One registration -/

/-- What the list of dispatchers says about the registrations `rs`. -/
structure Outcome (rs : List (Registration V)) (disp : List (Dispatcher V)) : Prop where
  registry : RegistryOf rs disp
  only : ∀ dp ∈ disp, ∃ r ∈ rs, r.name = dp.name
  reader : ∀ dp ∈ disp, dp.timeoutReader.isSome = true → ∃ module inst, .needTimeout dp.name module inst ∈ rs

theorem Outcome.producer_none {rs : List (Registration V)} {disp : List (Dispatcher V)} (h : Outcome rs disp)
    {dp : Dispatcher V} (hdp : dp ∈ disp) :
    dp.producer = none ↔ dp.name ∉ rs.filterMap Registration.produces := by
  rw [mem_produces]
  constructor
  · rintro hn ⟨m, i, v, b, d, t, hm⟩
    exact ((h.registry.entry dp hdp).unproduced hn).2 m i v b d t hm
  · intro hn
    cases hp : dp.producer with
    | none => rfl
    | some o =>
      obtain ⟨m, i, v, -, hm, -⟩ := (h.registry.entry dp hdp).produced o hp
      exact absurd ⟨m, i, v, _, _, _, hm⟩ hn

/-- What a registration is checked for after the registrations `rs`. -/
def Admissible (rs : List (Registration V)) (r : Registration V) : Prop :=
  r.Valid ∧ ∀ name ∈ r.produces, name ∉ rs.filterMap Registration.produces

theorem onDispatcher_isSome {name : String} {f : Dispatcher V → Option (Dispatcher V)} {disp : List (Dispatcher V)} :
    (onDispatcher name f disp).isSome = true ↔
      (∃ dp ∈ disp, dp.name = name) ∧ ∀ dp ∈ disp, dp.name = name → (f dp).isSome = true := by
  have hall : (∀ dp ∈ disp, (if dp.name = name then f dp else some dp).isSome = true) ↔
      ∀ dp ∈ disp, dp.name = name → (f dp).isSome = true := by
    refine forall_congr' fun dp => forall_congr' fun _ => ?_
    by_cases hn : dp.name = name <;> simp [hn]
  unfold onDispatcher
  split
  · rename_i hany
    rw [mapM_isSome, hall]
    simpa using fun _ => by simpa using hany
  · rename_i hany
    simp only [List.any_eq_true, decide_eq_true_eq] at hany
    simp [hany]

theorem setProducer_isSome {dp : Dispatcher V} {module inst : String} {val : V} {input : Bool} {init : Double}
    {timeout : Int} :
    (setProducer dp module inst val input init timeout).isSome = true ↔
      dp.producer = none ∧ init.isfinite = true ∧ 0 ≤ timeout := by
  unfold setProducer
  split
  · rename_i hp
    obtain ⟨o, ho⟩ := Option.isSome_iff_exists.mp hp
    simp [ho]
  rename_i hp
  split
  · rename_i hf
    simp [show init.isfinite = false by simpa using hf]
  rename_i hf
  split
  · rename_i ht
    simp [ht]
  · rename_i ht
    exact iff_of_true rfl ⟨by simpa using hp, by simpa using hf, by simpa using ht⟩

theorem Outcome.register_isSome {rs : List (Registration V)} {disp : List (Dispatcher V)} (h : Outcome rs disp)
    (r : Registration V) (hget : (∃ n b, r = .get n b) ∨ r.name ∈ disp.map (·.name)) :
    (register disp r).isSome = true ↔ Admissible rs r := by
  cases r with
  | get n b => exact iff_of_true rfl ⟨trivial, by simp [Registration.produces]⟩
  | needTimeout n m i =>
    refine iff_of_true (onDispatcher_isSome.mpr ⟨?_, fun _ _ _ => rfl⟩) ⟨trivial, by simp [Registration.produces]⟩
    obtain ⟨dp, hdp, hn⟩ := List.mem_map.mp (hget.resolve_left (by simp))
    exact ⟨dp, hdp, hn⟩
  | produce n m i v b d t =>
    obtain ⟨dp, hdp, hn⟩ := List.mem_map.mp (hget.resolve_left (by simp))
    obtain rfl : dp.name = n := hn
    have hset : Admissible rs (.produce dp.name m i v b d t) ↔ (setProducer dp m i v b d t).isSome = true := by
      rw [setProducer_isSome, h.producer_none hdp]
      simp only [Admissible, Registration.Valid, Registration.produces, Option.mem_def, Option.some.injEq,
        forall_eq']
      exact and_comm
    rw [hset, show register disp (.produce dp.name m i v b d t) =
      onDispatcher dp.name (setProducer · m i v b d t) disp from rfl, onDispatcher_isSome]
    constructor
    · exact fun hall => hall.2 dp hdp rfl
    · refine fun hsome => ⟨⟨dp, hdp, rfl⟩, fun dq hdq hn => ?_⟩
      rw [name_unique h.registry.nodup hdq hdp hn]
      exact hsome

theorem getDispatcher_entry {disp : List (Dispatcher V)} {name : String} {allocCb : Bool} {dp : Dispatcher V}
    (h : dp ∈ getDispatcher disp name allocCb) :
    dp.name = name ∧ dp.timeoutReader = none ∨
      ∃ dq ∈ disp, dp.name = dq.name ∧ dp.timeoutReader = dq.timeoutReader := by
  obtain ⟨dq, hdq, rfl⟩ := List.mem_map.mp h
  have hold : ∀ dq ∈ disp, ∃ dr ∈ disp,
      (if dq.name = name ∧ allocCb then { dq with valueCount := dq.valueCount + 1 } else dq).name = dr.name ∧
        (if dq.name = name ∧ allocCb then { dq with valueCount := dq.valueCount + 1 } else dq).timeoutReader =
          dr.timeoutReader := by
    intro dq hdq
    refine ⟨dq, hdq, ?_⟩
    split <;> exact ⟨rfl, rfl⟩
  split at hdq
  · exact .inr (hold dq hdq)
  · rcases List.mem_append.mp hdq with hdq | hdq
    · exact .inr (hold dq hdq)
    · obtain rfl := List.mem_singleton.mp hdq
      refine .inl ?_
      split <;> exact ⟨rfl, rfl⟩

theorem setProducer_reader {dp dp' : Dispatcher V} {module inst : String} {val : V} {input : Bool} {init : Double}
    {timeout : Int} (h : setProducer dp module inst val input init timeout = some dp') :
    dp'.timeoutReader = dp.timeoutReader := by
  unfold setProducer at h
  split at h
  · cases h
  split at h
  · cases h
  split at h <;> cases h
  rfl

theorem Outcome.nil : Outcome ([] : List (Registration V)) [] where
  registry := RegistryOf.nil
  only := by simp
  reader := by simp

theorem register_entry {disp disp' : List (Dispatcher V)} {r : Registration V} (hr : register disp r = some disp')
    {dp : Dispatcher V} (hdp : dp ∈ disp') :
    (dp.name = r.name ∧ (dp.timeoutReader = none ∨ ∃ module inst, r = .needTimeout dp.name module inst)) ∨
      ∃ dq ∈ disp, dp.name = dq.name ∧
        (dp.timeoutReader = dq.timeoutReader ∨ ∃ module inst, r = .needTimeout dp.name module inst) := by
  cases r with
  | get n b =>
    cases hr
    rcases getDispatcher_entry hdp with ⟨hn, ht⟩ | ⟨dq, hdq, hn, ht⟩
    · exact .inl ⟨hn, .inl ht⟩
    · exact .inr ⟨dq, hdq, hn, .inl ht⟩
  | produce n m i v b d t =>
    obtain ⟨-, -, hmem⟩ := onDispatcher_spec (fun _ _ => setProducer_name) hr
    obtain ⟨dq, hdq, hn, hyes, hno⟩ := hmem dp hdp
    refine .inr ⟨dq, hdq, hn, .inl ?_⟩
    by_cases hq : dq.name = n
    · exact setProducer_reader (hyes hq)
    · rw [hno hq]
  | needTimeout n m i =>
    have hname : ∀ dp dp' : Dispatcher V, some (needTimeout dp m i) = some dp' → dp'.name = dp.name :=
      fun dp dp' hd => Option.some.inj hd ▸ needTimeout_name dp m i
    obtain ⟨-, -, hmem⟩ := onDispatcher_spec hname hr
    obtain ⟨dq, hdq, hn, -, hno⟩ := hmem dp hdp
    refine .inr ⟨dq, hdq, hn, ?_⟩
    by_cases hq : dq.name = n
    · exact .inr ⟨m, i, by rw [hn, hq]⟩
    · exact .inl (by rw [hno hq])

theorem Outcome.register {rs : List (Registration V)} {disp disp' : List (Dispatcher V)} (h : Outcome rs disp)
    {r : Registration V} (hr : register disp r = some disp') : Outcome (rs ++ [r]) disp' where
  registry := h.registry.register r hr
  only := by
    intro dp hdp
    rcases register_entry hr hdp with ⟨hn, -⟩ | ⟨dq, hdq, hn, -⟩
    · exact ⟨r, by simp, hn.symm⟩
    · obtain ⟨r', hr', hn'⟩ := h.only dq hdq
      exact ⟨r', List.mem_append_left _ hr', hn'.trans hn.symm⟩
  reader := by
    intro dp hdp hsome
    rcases register_entry hr hdp with ⟨-, ht | ⟨m, i, rfl⟩⟩ | ⟨dq, hdq, hn, ht | ⟨m, i, rfl⟩⟩
    · simp [ht] at hsome
    · exact ⟨m, i, by simp⟩
    · obtain ⟨m, i, hm⟩ := h.reader dq hdq (ht ▸ hsome)
      exact ⟨m, i, by rw [hn]; exact List.mem_append_left _ hm⟩
    · exact ⟨m, i, by simp⟩

/-! ## All registrations -/

/-- The conditions that are checked when a module registers. -/
def Sound (rs : List (Registration V)) : Prop :=
  (rs.filterMap Registration.produces).Nodup ∧ ∀ r ∈ rs, r.Valid

theorem sound_append {rs : List (Registration V)} {r : Registration V} :
    Sound (rs ++ [r]) ↔ Sound rs ∧ Admissible rs r := by
  have hnodup : ((rs ++ [r]).filterMap Registration.produces).Nodup ↔
      (rs.filterMap Registration.produces).Nodup ∧ ∀ n ∈ r.produces, n ∉ rs.filterMap Registration.produces := by
    rw [List.filterMap_append]
    cases hr : r.produces with
    | none => simp [List.filterMap_cons_none hr]
    | some n =>
      rw [List.filterMap_cons_some hr, List.filterMap_nil, List.nodup_append_comm]
      simp [and_comm]
  unfold Sound Admissible
  rw [hnodup, List.forall_mem_append, List.forall_mem_singleton]
  tauto

theorem Obtained.initial {pre rs : List (Registration V)} (h : Obtained rs) (hp : pre <+: rs) : Obtained pre :=
  fun pre' r hr => h pre' r (hr.trans hp)

theorem registerAll_concat {rs : List (Registration V)} {r : Registration V} {disp : List (Dispatcher V)} :
    registerAll [] (rs ++ [r]) = some disp ↔
      ∃ disp₀, registerAll [] rs = some disp₀ ∧ register disp₀ r = some disp := by
  simp [registerAll, List.foldlM_append, Option.bind_eq_some_iff]

theorem registerAll_outcome {rs : List (Registration V)} {disp : List (Dispatcher V)}
    (h : registerAll [] rs = some disp) : Outcome rs disp := by
  induction rs using List.reverseRecOn generalizing disp with
  | nil =>
    cases h
    exact Outcome.nil
  | append_singleton rs r ih =>
    obtain ⟨disp₀, h₀, hr⟩ := registerAll_concat.mp h
    exact (ih h₀).register hr

theorem registerAll_isSome {rs : List (Registration V)} (h : Obtained rs) :
    (∃ disp, registerAll [] rs = some disp) ↔ Sound rs := by
  induction rs using List.reverseRecOn with
  | nil => exact iff_of_true ⟨[], rfl⟩ ⟨List.nodup_nil, by simp⟩
  | append_singleton rs r ih =>
    have hone : ∀ disp, registerAll [] rs = some disp → ((register disp r).isSome = true ↔ Admissible rs r) := by
      intro disp h₀
      have ho := registerAll_outcome h₀
      refine ho.register_isSome r ((h rs r (List.prefix_refl _)).imp_right fun hr => ?_)
      obtain ⟨r', hr', hn⟩ := List.mem_map.mp hr
      exact hn ▸ ho.registry.names r' hr'
    rw [sound_append, ← ih (h.initial (List.prefix_append ..))]
    simp only [registerAll_concat]
    constructor
    · rintro ⟨disp, disp₀, h₀, hr⟩
      exact ⟨⟨disp₀, h₀⟩, (hone disp₀ h₀).mp (by simp [hr])⟩
    · rintro ⟨⟨disp₀, h₀⟩, hadm⟩
      obtain ⟨disp, hr⟩ := Option.isSome_iff_exists.mp ((hone disp₀ h₀).mpr hadm)
      exact ⟨disp, disp₀, h₀, hr⟩

/-! ## The final pass -/

/-- `check_dispatchers` sees whether every name has a producer, and a timeout where one is needed. -/
theorem Outcome.check_iff {rs : List (Registration V)} {disp : List (Dispatcher V)} (h : Outcome rs disp)
    (hs : Sound rs) : checkDispatchers disp = true ↔ Acceptable rs := by
  have hentry : ∀ n ∈ rs.map Registration.name, ∃ dp ∈ disp, dp.name = n := by
    intro n hn
    obtain ⟨r, hr, rfl⟩ := List.mem_map.mp hn
    exact List.mem_map.mp (h.registry.names r hr)
  unfold checkDispatchers
  rw [List.all_eq_true]
  constructor
  · intro hall
    refine ⟨hs.1, hs.2, fun r hr => ?_, fun n m i m' i' v d t hn hm => ?_⟩
    · obtain ⟨dp, hdp, hn⟩ := hentry r.name (List.mem_map_of_mem hr)
      have hp := (Bool.and_eq_true_iff.mp (hall dp hdp)).1
      by_contra hnot
      rw [← hn, ← h.producer_none hdp] at hnot
      simp [hnot] at hp
    · obtain ⟨dp, hdp, rfl⟩ := hentry n (List.mem_map.mpr ⟨_, hn, rfl⟩)
      have hreg := h.registry.entry dp hdp
      have ht := (Bool.and_eq_true_iff.mp (hall dp hdp)).2
      obtain ⟨-, hinput, -, htime⟩ := hreg.producer m' i' v true d t hm
      have hpos := (hs.2 _ hm).2
      simp only [hreg.needed m i hn, hinput, htime, Bool.and_self, Bool.true_and, Bool.not_eq_true',
        beq_eq_false_iff_ne] at ht
      omega
  · intro hacc dp hdp
    obtain ⟨r, hr, hn⟩ := h.only dp hdp
    have hprod := hacc.produced r hr
    rw [hn] at hprod
    have hsome : dp.producer.isSome = true := by
      rw [Option.isSome_iff_ne_none]
      exact fun hnone => (h.producer_none hdp).mp hnone hprod
    rw [hsome, Bool.true_and, Bool.not_eq_true']
    by_contra hbad
    simp only [Bool.not_eq_false, Bool.and_eq_true, beq_iff_eq] at hbad
    obtain ⟨⟨hreader, hinput⟩, htime⟩ := hbad
    obtain ⟨m, i, hm⟩ := h.reader dp hdp hreader
    obtain ⟨o, ho⟩ := Option.isSome_iff_exists.mp hsome
    obtain ⟨m', i', v, -, hp, -⟩ := (h.registry.entry dp hdp).produced o ho
    rw [hinput] at hp
    have := hacc.readers dp.name m i m' i' v _ _ hm hp
    omega

theorem accepts_iff {rs : List (Registration V)} (h : Obtained rs) : accepts rs = true ↔ Acceptable rs := by
  unfold accepts
  cases hr : registerAll [] rs with
  | none =>
    refine iff_of_false (by simp) fun hacc => ?_
    obtain ⟨disp, hd⟩ := (registerAll_isSome h).mpr ⟨hacc.single, hacc.valid⟩
    simp [hr] at hd
  | some disp => exact (registerAll_outcome hr).check_iff ((registerAll_isSome h).mp ⟨disp, hr⟩)

/-! ## Order -/

theorem obtained_calls (rs : List (Registration V)) : Obtained (rs.flatMap Registration.calls) := by
  induction rs using List.reverseRecOn with
  | nil =>
    intro pre r hr
    simp at hr
  | append_singleton rs r ih =>
    have hcalls : (rs ++ [r]).flatMap Registration.calls =
        rs.flatMap Registration.calls ++ [.get r.name false] ++ [r] := by
      simp [Registration.calls]
    intro pre r' hr
    rw [hcalls, List.prefix_concat_iff, List.prefix_concat_iff] at hr
    rcases hr with heq | heq | hr
    · obtain ⟨rfl, hlast⟩ := List.append_inj' heq rfl
      obtain rfl := (List.cons.inj hlast).1
      exact .inr (by simp [Registration.name])
    · obtain ⟨-, hlast⟩ := List.append_inj' heq rfl
      exact .inl ⟨_, _, (List.cons.inj hlast).1⟩
    · exact ih pre r' hr

theorem produces_calls (rs : List (Registration V)) :
    (rs.flatMap Registration.calls).filterMap Registration.produces = rs.filterMap Registration.produces := by
  induction rs with
  | nil => rfl
  | cons r rs ih =>
    rw [List.flatMap_cons, List.filterMap_append, ih, ← List.singleton_append, List.filterMap_append]
    rfl

theorem mem_calls {rs : List (Registration V)} {r : Registration V} :
    r ∈ rs.flatMap Registration.calls ↔ r ∈ rs ∨ ∃ r' ∈ rs, r = .get r'.name false := by
  simp only [List.mem_flatMap, Registration.calls, List.mem_cons, List.not_mem_nil, or_false]
  constructor
  · rintro ⟨r', hr', rfl | rfl⟩
    · exact .inr ⟨r', hr', rfl⟩
    · exact .inl hr'
  · rintro (hr | ⟨r', hr', rfl⟩)
    · exact ⟨r, hr, .inr rfl⟩
    · exact ⟨r', hr', .inl rfl⟩

theorem acceptable_calls (rs : List (Registration V)) :
    Acceptable (rs.flatMap Registration.calls) ↔ Acceptable rs := by
  have hin : ∀ r ∈ rs, r ∈ rs.flatMap Registration.calls := fun r hr => mem_calls.mpr (.inl hr)
  constructor
  · intro h
    refine ⟨produces_calls rs ▸ h.single, fun r hr => h.valid r (hin r hr), fun r hr => ?_, ?_⟩
    · exact produces_calls rs ▸ h.produced r (hin r hr)
    · exact fun n m i m' i' v d t hn hm => h.readers n m i m' i' v d t (hin _ hn) (hin _ hm)
  · intro h
    refine ⟨(produces_calls rs).symm ▸ h.single, fun r hr => ?_, fun r hr => ?_, ?_⟩
    · rcases mem_calls.mp hr with hr | ⟨r', -, rfl⟩
      · exact h.valid r hr
      · trivial
    · rw [produces_calls]
      rcases mem_calls.mp hr with hr | ⟨r', hr', rfl⟩
      · exact h.produced r hr
      · exact h.produced r' hr'
    · intro n m i m' i' v d t hn hm
      simp only [mem_calls, reduceCtorEq, and_false, exists_false, or_false] at hn hm
      exact h.readers n m i m' i' v d t hn hm

/-- **Acceptance is exact and does not depend on the order.** Whatever the modules register, each on the
dispatcher that it gets for the name, the configuration is accepted exactly if the list is acceptable.
Getting a dispatcher once more makes no difference. -/
theorem acceptance_exact (rs : List (Registration V)) :
    (accepts (rs.flatMap Registration.calls) = true ↔ Acceptable rs) ∧
      (∀ rs', rs.Perm rs' →
        accepts (rs'.flatMap Registration.calls) = accepts (rs.flatMap Registration.calls)) ∧
      (Obtained rs → accepts rs = accepts (rs.flatMap Registration.calls)) := by
  have hcalls : ∀ rs : List (Registration V), accepts (rs.flatMap Registration.calls) = true ↔ Acceptable rs :=
    fun rs => (accepts_iff (obtained_calls rs)).trans (acceptable_calls rs)
  refine ⟨hcalls rs, fun rs' hp => ?_, fun h => ?_⟩
  · rw [Bool.eq_iff_iff, hcalls, hcalls]
    exact ⟨Acceptable.perm hp.symm, Acceptable.perm hp⟩
  · rw [Bool.eq_iff_iff, hcalls, accepts_iff h]

/-- A power of an input with a timeout, read by a counter that registers first. -/
def readerFirst : List (Registration Nat) :=
  [.get "p" true, .needTimeout "p" "counter" "c", .produce "c" "counter" "c" 0 false (.fin 0) 0,
    .produce "p" "json" "url" 1 true (.fin 0) 1000]

theorem acceptance_exact_reader_first : accepts (readerFirst.reverse.flatMap Registration.calls) = true := by
  rw [(acceptance_exact readerFirst).2.1 readerFirst.reverse (List.reverse_perm readerFirst).symm]
  decide +kernel

end Uvrgw.Conf
