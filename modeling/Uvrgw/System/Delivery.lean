import Uvrgw.Conf.Load
import Uvrgw.Dispatch.Section

/-!
# Delivery in an accepted configuration

All names run side by side. A callback that dispatches another name is a step of that name.
-/

namespace Uvrgw.Conf

open Uvrgw.Lib Uvrgw.Dispatch

def System.dispatcher (sys : System) (name : String) : Dispatcher Val :=
  (sys.disp.find? (·.name = name)).getD { name := name }

/-- Every name after configuration, before any module is started. -/
def System.sections (sys : System) (name : String) : Section.State Val where
  dp := sys.dispatcher name

theorem LoadedSystem.dispatcher {conf : Config} {sys : System} (h : LoadedSystem conf sys)
    {dp : Dispatcher Val} (hdp : dp ∈ sys.disp) : sys.dispatcher dp.name = dp := by
  unfold System.dispatcher
  cases hf : sys.disp.find? (·.name = dp.name) with
  | none => simpa using List.find?_eq_none.mp hf dp hdp
  | some dq =>
    have hn := List.find?_some hf
    exact name_unique h.nodup (List.mem_of_find?_eq_some hf) hdp (by simpa using hn)

theorem dispatcher_listed {sys : System} {name : String} {cb : Option Val} (h : cb ∈ (sys.dispatcher name).valueCbs) :
    name ∈ sys.disp.map (·.name) := by
  unfold System.dispatcher at h
  cases hf : sys.disp.find? (·.name = name) with
  | none =>
    rw [hf] at h
    cases h
  | some dp => exact List.mem_map.mpr ⟨dp, List.mem_of_find?_eq_some hf, by simpa using List.find?_some hf⟩

theorem Loaded.wired {conf : Config} {sys : System} {dp : Dispatcher Val} (h : Loaded conf sys dp) :
    Section.Wired dp where
  init := h.finite
  others := h.others

theorem LoadedSystem.init {conf : Config} {sys : System} (h : LoadedSystem conf sys)
    {dp : Dispatcher Val} (hdp : dp ∈ sys.disp) : Section.Init (sys.sections dp.name) := by
  have hl := h.entry dp hdp
  have heq : (sys.sections dp.name).dp = dp := h.dispatcher hdp
  obtain ⟨-, -, -, hvalid, hvalue⟩ := hl.fresh
  exact
    { wired := by rw [heq]; exact hl.wired
      holder := rfl
      last := rfl
      dispatched := rfl
      stored := rfl
      got := fun _ => rfl
      reads := rfl
      value := by rw [heq, Dispatcher.getVal, hvalue, hvalid] }

theorem LoadedSystem.run {conf : Config} {sys : System} (h : LoadedSystem conf sys)
    {dp : Dispatcher Val} (hdp : dp ∈ sys.disp) {l : List (String × Section.Act)}
    {t : String → Section.State Val} (hrun : Run (product Section.step) sys.sections l t) :
    Section.Inv (t dp.name) ∧ (t dp.name).dp.config = dp.config := by
  have hone := hrun.component dp.name
  have hinv := Section.Inv.init (h.init hdp)
  have hconf : (sys.sections dp.name).dp.config = dp.config := congrArg _ (h.dispatcher hdp)
  exact hone.invariant (I := fun s => Section.Inv s ∧ s.dp.config = dp.config)
    (fun s a u hs hsu => ⟨hs.1.step a hsu, (Section.step_config a hsu).trans hs.2⟩) ⟨hinv, hconf⟩

/-- **Outputs and stored value agree.** For every name of an accepted configuration and every
interleaving: a callback of the name has received the dispatched pairs in the order of the stores,
all of them when `disp_lock` is free, the last one being the stored pair; readers see stored pairs;
and every number is finite. -/
theorem outputs_agree (conf : Config) (sys : System) (hload : load conf = some sys) (dp : Dispatcher Val)
    (hdp : dp ∈ sys.disp) (l : List (String × Section.Act)) (t : String → Section.State Val)
    (hrun : Run (product Section.step) sys.sections l t) :
    (∀ v, Listens conf sys.counters sys.evals dp.name v ↔ ∃ i : Nat, dp.valueCbs[i]? = some (some v)) ∧
    (∀ (i : Nat) v, dp.valueCbs[i]? = some (some v) →
      (t dp.name).got i <+: (t dp.name).stored ∧ (t dp.name).stored <+: (t dp.name).dispatched ∧
      ((t dp.name).holder = none →
        (t dp.name).got i = (t dp.name).dispatched ∧ (t dp.name).stored = (t dp.name).dispatched ∧
        ((t dp.name).dispatched ≠ [] → ((t dp.name).got i).getLast? = some (t dp.name).dp.getVal))) ∧
    (∀ p ∈ (t dp.name).reads,
      p = (dp.initValue, false) ∨ p ∈ (t dp.name).stored) ∧
    ((t dp.name).dp.lastValue.isfinite = true ∧ (∀ p ∈ (t dp.name).dispatched, p.1.isfinite = true) ∧
      ∀ (i : Nat) v, dp.valueCbs[i]? = some (some v) → ∀ p ∈ (t dp.name).got i, p.1.isfinite = true) := by
  have hsys := load_spec hload
  obtain ⟨hinv, hconf⟩ := hsys.run hdp hrun
  obtain ⟨-, hinit, -, -, hcbs⟩ := Dispatcher.config_fields hconf
  have hreg : ∀ (i : Nat) v, dp.valueCbs[i]? = some (some v) → Section.Registered (t dp.name).dp i :=
    fun i v hv => ⟨v, by rw [hcbs]; exact hv⟩
  refine ⟨fun v => ?_, fun i v hv => ?_, ?_, hinv.value_finite, hinv.dispatched_finite, fun i v hv =>
    hinv.got_finite (hreg i v hv)⟩
  · rw [← (hsys.entry dp hdp).cbs v, List.mem_iff_getElem?]
  · obtain ⟨hgot, hstored⟩ := hinv.prefix_got (hreg i v hv)
    refine ⟨hgot, hstored, fun hfree => ?_⟩
    obtain ⟨hall, hsame⟩ := hinv.got_all hfree (hreg i v hv)
    exact ⟨hall, hsame, hinv.last_delivered hfree (hreg i v hv)⟩
  · exact hinit ▸ hinv.reads

/-- An input with timeout, an output and a counter of the same name. -/
def exampleConfig : Config where
  can :=
    [{ inst := "can0", groups :=
        [{ dir := .input, values := [{ title := "p", staleTimeout := some 10 }] },
          { dir := .output, values := [{ title := "p" }] }] }]
  counters := [{ title := "e", source := some "p", integratePower := true }]

def exampleSystem : System := (load exampleConfig).get (by rfl)

example : exampleSystem.disp.map (·.valueCbs) = [[some (.can 1), some (.counter 0)], []] := by rfl

/-- One valid dispatch, with a reader in between. -/
def exampleActs : List (String × Section.Act) :=
  [.disp (.fin 5) true, .getLock, .getFlag, .getValue, .run 3, .run 3, .run 3, .run 3, .run 3, .run 3,
    .run 3].map ("p", ·)

def exampleEnd : String → Section.State Val :=
  (exampleActs.foldlM (product Section.step) exampleSystem.sections).get (by rfl)

theorem outputs_agree_example :
    ((exampleEnd "p").got 1).getLast? = some (exampleEnd "p").dp.getVal ∧
      (exampleEnd "p").dp.getVal = (.fin 5, true) := by
  have h := outputs_agree exampleConfig exampleSystem (Option.some_get _).symm
    (exampleSystem.disp.head (by decide)) (List.head_mem _) exampleActs exampleEnd (Option.some_get _).symm
  exact ⟨((h.2.1 1 (.counter 0) rfl).2.2 rfl).2.2 (by decide), rfl⟩

end Uvrgw.Conf
