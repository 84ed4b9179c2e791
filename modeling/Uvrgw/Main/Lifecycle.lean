import Uvrgw.Main.Subsystems

/-! # What `main` leaves behind -/

namespace Uvrgw.Main

open Uvrgw.Lib.Resources

section Labels

variable {x : Setup} {b : Bool} {s : System} {c : Bool} {n : Nat}

/-! ## The labels -/

theorem failConf_spec (hs : s.held = x.upTo 1 c) : Goes (rules x b) s (failConf s) ∧
    (failConf s).held = x.upTo 0 c := by
  refine ⟨goes_drop_of ?_ (by simp) fun q hq => ?_, ?_⟩
  · simp [hs, Setup.upTo, Setup.started, Resource.stage]
  · rw [hs]
    refine upTo_free ?_
    cases q <;> simp [Setup.needs] at hq
    simp [Resource.stage]
  · change s.held.remove [.exitFd] = _
    rw [hs]
    funext r
    cases r <;> simp [Setup.upTo, Setup.started, Resource.stage, Held.remove]

theorem upTo_zero : x.upTo 0 c = fun _ => false := by
  funext r
  exact upTo_free (Nat.zero_le _)

theorem failCounter_spec (hs : Unwound s.held) : Goes (rules x b) s (failCounter s) ∧
    (failCounter s).held = fun _ => false := by
  obtain ⟨hgoes, hheld⟩ := uvrgwConfCleanup_spec (x := x) (b := b) hs
  obtain ⟨hgoes', hheld'⟩ := failConf_spec (b := b) hheld
  exact ⟨hgoes.trans hgoes', hheld'.trans upTo_zero⟩

theorem failCan_spec (hs : s.held = x.upTo 3 c) : Goes (rules x b) s (failCan s) ∧
    (failCan s).held = fun _ => false := by
  obtain ⟨hgoes, hheld⟩ := counterShutdown_spec (b := b) hs
  have hunwound : Unwound (counterShutdown s).held := by
    rw [hheld]
    refine ⟨?_, ?_, fun r hr => ?_⟩
    · simp [Setup.upTo, Setup.started, Resource.stage]
    · simp [Setup.upTo, Setup.started, Resource.stage]
    · have := upTo_stage hr
      cases r <;> simp [Resource.stage, Setup.upTo] at this hr ⊢
  obtain ⟨hgoes', hheld'⟩ := failCounter_spec (x := x) (b := b) hunwound
  exact ⟨hgoes.trans hgoes', hheld'⟩

theorem failMqtt_spec (hs : s.held = x.upTo 4 c) : Goes (rules x b) s (failMqtt x s) ∧
    (failMqtt x s).held = fun _ => false := by
  obtain ⟨hgoes, hheld⟩ := canShutdown_spec (x := x) (b := b) (s := s)
    (by rw [hs]; exact upTo_free (by simp [Resource.stage]))
  have hheld : (canShutdown x s).held = x.upTo 3 c := by
    rw [hheld, hs, ← upTo_can, Held.add_remove fun _ h => h]
    exact fun r hr => upTo_free (canUp_free hr).ge
  obtain ⟨hgoes', hheld'⟩ := failCan_spec (b := b) hheld
  exact ⟨hgoes.trans hgoes', hheld'⟩

theorem failWatchdog_spec (hs : s.held = x.upTo 5 c) : Goes (rules x b) s (failWatchdog x s) ∧
    (failWatchdog x s).held = fun _ => false := by
  obtain ⟨hgoes, hheld⟩ := counterStop_spec (x := x) (b := b) (s := s)
  rw [hs, upTo_remove_counterThread] at hheld
  have hclosable : Closable x b (counterStop s).held := by
    rw [hheld]
    refine ⟨?_, fun conn h => ?_, fun conn h => ?_, fun _ r hr hne => ?_⟩
    · simp [Setup.upTo, Setup.started, Resource.stage]
    · simpa [Setup.upTo, Setup.started, Resource.stage] using h
    · simpa [Setup.upTo, Setup.started, Resource.stage] using h
    · cases r <;> simp [Resource.isSource] at hr hne <;> simp [Setup.upTo, Resource.stage]
  obtain ⟨hstop, hstopped⟩ := mqttShutdown_spec hclosable
  have hheld₄ : (mqttShutdown x (counterStop s)).held = x.upTo 4 false := by
    rw [hstopped, hheld]
    funext r
    cases r <;> simp [Setup.upTo, Setup.started, Resource.stage, Held.remove, mqttOwn]
  obtain ⟨hfail, hfailed⟩ := failMqtt_spec (b := b) hheld₄
  exact ⟨(hgoes.trans hstop).trans hfail, hfailed⟩

theorem failEval_spec (hs : s.held = x.upTo 6 c) : Goes (rules x b) s (failEval x s) ∧
    (failEval x s).held = fun _ => false := by
  have hgoes : Goes (rules x b) s (uvrgwConfShutdown s) :=
    goes_stop (by simp) fun q hq => by cases q <;> simp [Setup.needs] at hq
  have hheld : (uvrgwConfShutdown s).held = x.upTo 5 c := by
    rw [uvrgwConfShutdown, Book.release_held, hs, ← upTo_conf]
  obtain ⟨hfail, hfailed⟩ := failWatchdog_spec (b := b) hheld
  exact ⟨hgoes.trans hfail, hfailed⟩

theorem failMb_spec (hs : s.held = x.upTo 7 c) : Goes (rules x b) s (failMb x s) ∧
    (failMb x s).held = fun _ => false := by
  have hgoes : Goes (rules x b) s (evalShutdown s) :=
    goes_stop (by simp) fun q hq => by cases q <;> simp [Setup.needs] at hq
  have hheld : (evalShutdown s).held = x.upTo 6 c := by rw [evalShutdown, Book.release_held, hs, ← upTo_eval]
  obtain ⟨hfail, hfailed⟩ := failEval_spec (b := b) hheld
  exact ⟨hgoes.trans hfail, hfailed⟩

theorem failRest_spec (hs : s.held = x.upTo 8 c) : Goes (rules x b) s (failRest x s) ∧
    (failRest x s).held = fun _ => false := by
  obtain ⟨hgoes, hheld⟩ := mbShutdown_spec (x := x) (b := b) (s := s)
  have hheld : (mbShutdown x s).held = x.upTo 7 c := by
    rw [hheld, hs, ← upTo_mb, Held.add_add, Held.add_remove]
    · intro r hr
      refine (List.mem_append.mp hr).elim (fun h => List.mem_append_left _ ?_) fun h => List.mem_append_right _ ?_
      · exact mem_part masterUp_own (k := x.rtuMasters.zipIdx.length) (by rwa [List.take_length])
      · exact mem_part masterUp_own (k := x.tcpMasters.zipIdx.length) (by rwa [List.take_length])
    · exact fun r hr => upTo_free (mbOwn_stage hr).ge
  obtain ⟨hfail, hfailed⟩ := failMb_spec (b := b) hheld
  exact ⟨hgoes.trans hfail, hfailed⟩

theorem failSunspec_spec (hs : s.held = x.upTo 9 c) : Goes (rules x b) s (failSunspec x s) ∧
    (failSunspec x s).held = fun _ => false := by
  obtain ⟨hgoes, hheld⟩ := restShutdown_spec (x := x) (b := b) (s := s)
    (by simp [hs, Setup.upTo, Setup.started, Resource.stage])
    (fun conn h => by simpa [hs, Setup.upTo, Setup.started, Resource.stage] using h)
  have hheld : (restShutdown x s).held = x.upTo 8 c := by
    rw [hheld, hs]
    funext r
    cases r <;> simp [Setup.upTo, Setup.started, Resource.stage, Held.remove]
  obtain ⟨hfail, hfailed⟩ := failRest_spec (b := b) hheld
  exact ⟨hgoes.trans hfail, hfailed⟩

theorem failLoop_spec (hs : s.held = x.upTo 10 c) : Goes (rules x b) s (failLoop x s) ∧
    (failLoop x s).held = fun _ => false := by
  obtain ⟨hgoes, hheld⟩ := sunspecShutdown_spec (x := x) (b := b) (s := s)
  have hheld : (sunspecShutdown x s).held = x.upTo 9 c := by
    rw [hheld, hs, ← upTo_sunspec, Held.add_remove fun _ h => h]
    exact fun r hr => upTo_free (serverUp_stage hr).ge
  obtain ⟨hfail, hfailed⟩ := failSunspec_spec (b := b) hheld
  exact ⟨hgoes.trans hfail, hfailed⟩

/-! ## `main.c` -/

/-- When `main` returns, nothing is held. -/
def Ends (x : Setup) (b : Bool) (result : Option Nat × System) : Prop :=
  Goes (rules x b) {} result.2 ∧ (result.1.isSome = true → result.2.held = fun _ => false)

theorem Ends.of_label {t : System} {ret : Option Nat} (hgoes : Goes (rules x b) {} s)
    (hlabel : Goes (rules x b) s t ∧ t.held = fun _ => false) : Ends x b (ret, t) :=
  ⟨hgoes.trans hlabel.1, fun _ => hlabel.2⟩

/-- One startup of `main`, with its label. -/
theorem Ends.stage {result : Bool × System} {label : System → System} {next : System → Option Nat × System}
    (hgoes : Goes (rules x b) {} s)
    (hlabel : ∀ t : System, t.held = x.upTo n true → Goes (rules x b) t (label t) ∧ (label t).held = fun _ => false)
    (hnext : ∀ t : System, Goes (rules x b) {} t → t.held = x.upTo (n + 1) true → Ends x b (next t)) :
    Advances x b n s result → Ends x b (match result with
      | (false, t) => (some 1, label t)
      | (true, t) => next t) := by
  obtain ⟨ok, t⟩ := result
  rintro ⟨hstart, hheld⟩
  cases ok with
  | false => exact .of_label (hgoes.trans hstart) (hlabel t hheld)
  | true => exact hnext t (hgoes.trans hstart) hheld

theorem counterPublish_spec (hs : s.held = x.upTo 5 c) : Goes (rules x b) s (counterPublish s) := by
  refine goes_act fun conn hconn => ?_
  rw [hs]
  simpa [Setup.upTo, Setup.started, Resource.stage] using hconn

/-- The loop of `main`, with everything up. -/
theorem loop_ends {passes : List Pass} (hgoes : Goes (rules x b) {} s) (hs : s.held = x.upTo 10 true) :
    Ends x b (match mainLoop passes with
      | none => (none, s.take .mainLoop)
      | some ret => (some ret, failLoop x ((s.take .mainLoop).drop .mainLoop))) := by
  have hfree : s.held .mainLoop = false := by
    rw [hs]
    exact upTo_free (Nat.le_refl 10)
  have htake : Goes (rules x b) s (s.take .mainLoop) := by
    refine goes_take_of hfree ?_
    simp [Setup.needs, hs, Setup.upTo, Setup.started, Resource.stage]
  cases mainLoop passes with
  | none => exact ⟨hgoes.trans htake, fun h => by cases h⟩
  | some ret =>
    refine .of_label ((hgoes.trans htake).trans (goes_drop_of (by simp [Held.add]) (by simp) fun q hq => ?_))
      (failLoop_spec ((take_drop_held hfree).trans hs))
    cases q <;> simp [Setup.needs] at hq

theorem main_ends (env : Call → Bool) (passes : List Pass) (hstrict : b = true → MqttStarts x env) :
    Ends x b (main x env passes) := by
  unfold main
  dsimp only
  split
  · exact ⟨.refl _, fun _ => rfl⟩
  have hexit : Goes (rules x b) {} (({} : System).take .exitFd) := goes_take_of rfl (by simp [Setup.needs])
  have hexit' : (({} : System).take .exitFd).held = x.upTo 1 true := by
    funext r
    cases r <;> simp [Setup.upTo, Setup.started, Resource.stage, Held.add]
  split
  · obtain ⟨hlabel, hlabel'⟩ := failConf_spec (b := b) hexit'
    exact .of_label hexit ⟨hlabel, hlabel'.trans upTo_zero⟩
  have hconf : Goes (rules x b) {} ((({} : System).take .exitFd).take .conf) :=
    hexit.trans (goes_take_of (by rw [hexit']; exact upTo_free (Nat.le_refl 1)) (by simp [Setup.needs]))
  have hconf' : ((({} : System).take .exitFd).take .conf).held = x.upTo 2 true := by
    funext r
    cases r <;> simp [Setup.upTo, Setup.started, Resource.stage, Held.add]
  obtain ⟨hcounter, hup, hunwound⟩ := counterStartup_spec (b := b) env hconf'
  split
  · rename_i s hstart
    rw [hstart] at hcounter hunwound
    exact .of_label (hconf.trans hcounter) (failCounter_spec (hunwound rfl))
  rename_i s hstart
  rw [hstart] at hcounter hup
  have hs' : s.held = x.upTo 3 true := hup rfl
  refine .stage (hconf.trans hcounter) (fun t => failCan_spec) (fun s₁ hs₁ hs₁' => ?_) (canStartup_spec hs')
  refine .stage hs₁ (fun t => failMqtt_spec) (fun s₂ hs₂ hs₂' => ?_) (mqttStartup_spec hstrict hs₁')
  refine .stage (hs₂.trans (counterPublish_spec hs₂')) (fun t => failWatchdog_spec) (fun s₃ hs₃ hs₃' => ?_)
    (uvrgwConfStartup_spec hs₂')
  refine .stage hs₃ (fun t => failEval_spec) (fun s₄ hs₄ hs₄' => ?_) (evalStartup_spec hs₃')
  refine .stage hs₄ (fun t => failMb_spec) (fun s₅ hs₅ hs₅' => ?_) (mbStartup_spec hs₄')
  refine .stage hs₅ (fun t => failRest_spec) (fun s₆ hs₆ hs₆' => ?_) (restStartup_spec hs₅')
  exact .stage hs₆ (fun t => failSunspec_spec) (fun s₇ hs₇ hs₇' => loop_ends hs₇ hs₇') (sunspecStartup_spec hs₆')

end Labels

/-! ## Every run -/

/-- **Startup and shutdown.** Whatever call of a startup fails, and however the loop ends: a resource is taken only
when what it needs is there, given back only when nothing that needs it is left, so it is never held without
that, and the final states of the counters are saved only when no source runs. When `main` returns, everything
is given back as often as it was taken. -/
theorem main_orderly (x : Setup) (env : Call → Bool) (passes : List Pass) :
    LegalRun (rules x false) (fun _ => false) (main x env passes).2.log ∧
      (∀ before after, (main x env passes).2.log = before ++ after →
        Sound (rules x false) (Held.afterAll (fun _ => false) before)) ∧
      ((main x env passes).1.isSome = true →
        ∀ r, takes r (main x env passes).2.log = drops r (main x env passes).2.log) := by
  obtain ⟨⟨acts, hlog, hlegal, hheld⟩, hend⟩ := main_ends (x := x) (b := false) env passes (by simp)
  rw [hlog]
  refine ⟨hlegal, fun before after hacts => ?_, fun hret r => ?_⟩
  · exact LegalRun.sound hlegal (fun r q h _ => by cases h) hacts
  · have := LegalRun.balance hlegal r
    rw [← hheld, hend hret] at this
    simpa using this

/-- **Outputs outlive the sources.** No MQTT instance is destroyed while a thread runs that dispatches values, unless
`mqtt_startup` itself fails. -/
theorem outputs_outlive_sources (x : Setup) (env : Call → Bool) (passes : List Pass) (h : MqttStarts x env) :
    LegalRun (rules x true) (fun _ => false) (main x env passes).2.log := by
  obtain ⟨⟨acts, hlog, hlegal, -⟩, -⟩ := main_ends (b := true) env passes fun _ => h
  rw [hlog]
  exact hlegal

/-- Two counters and a connection with a logger. -/
def exampleSetup : Setup where
  counters := 2
  ifaces := 0
  conns := [{ hasPassword := true, stateTopic := true }]
  loggers := true
  needed := true
  evals := 1
  rtuMasters := []
  tcpMasters := []
  restConns := 0
  servers := 0

theorem outputs_outlive_sources_example :
    LegalRun (rules exampleSetup true) (fun _ => false) (main exampleSetup (· ≠ .evalThread) []).2.log := by
  refine outputs_outlive_sources exampleSetup (· ≠ .evalThread) [] ⟨by decide, ?_, by decide⟩
  intro conn hconn
  obtain rfl := List.mem_singleton.mp hconn
  exact ⟨by decide, by decide, by decide, by decide⟩

-- `mqtt_startup` destroys the instance while the counter thread still dispatches to it.
example : (main exampleSetup (· ≠ .loggerThread) []).2.log =
    [.take .exitFd, .take .conf, .take .counterDir, .take .counterThread, .take .mosqLib, .take (.mosq 0),
      .take (.mosqThread 0), .drop (.mosqThread 0), .drop (.mosq 0), .drop .mosqLib, .drop .counterThread,
      .event .save, .drop .counterDir, .drop .conf, .drop .exitFd] := rfl

end Uvrgw.Main
