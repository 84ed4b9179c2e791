import Mathlib.Data.List.Nodup
import Uvrgw.Main.Rules

/-! # Startup and shutdown of the subsystems -/

namespace Uvrgw.Main

open Uvrgw.Lib.Resources

variable {x : Setup} {b : Bool} {s : System} {c : Bool} {n : Nat}

/-- A startup brings up stage `n`, or leaves what it found. -/
def Advances (x : Setup) (b : Bool) (n : Nat) (s : System) (result : Bool × System) : Prop :=
  Goes (rules x b) s result.2 ∧ result.2.held = x.upTo (bif result.1 then n + 1 else n) true

/-! ## `counter.c` -/

/-- Nothing is held but what `uvrgw_conf_cleanup` and the last label give back. -/
structure Unwound (held : Held Resource) : Prop where
  exitFd : held .exitFd = true
  conf : held .conf = true
  only : ∀ r, held r = true → r = .exitFd ∨ r = .conf ∨ r = .counterDir

theorem unwound_upTo : Unwound (x.upTo 2 c) where
  exitFd := by simp [Setup.upTo, Setup.started, Resource.stage]
  conf := by simp [Setup.upTo, Setup.started, Resource.stage]
  only r h := by
    have := upTo_stage h
    cases r <;> simp [Resource.stage] at this ⊢

theorem Unwound.add_counterDir {held : Held Resource} (h : Unwound held) : Unwound (held.add [.counterDir]) where
  exitFd := Held.add_eq_true.mpr (.inl h.exitFd)
  conf := Held.add_eq_true.mpr (.inl h.conf)
  only r hr := by
    rcases Held.add_eq_true.mp hr with hr | hr
    · exact h.only r hr
    · exact .inr (.inr (List.mem_singleton.mp hr))

theorem counterStartup_spec (env : Call → Bool) (hs : s.held = x.upTo 2 true) :
    Goes (rules x b) s (counterStartup x env s).2 ∧
      ((counterStartup x env s).1 = true → (counterStartup x env s).2.held = x.upTo 3 true) ∧
      ((counterStartup x env s).1 = false → Unwound (counterStartup x env s).2.held) := by
  have hdir : Goes (rules x b) s (s.take .counterDir) := by
    refine goes_take_of (by rw [hs]; exact upTo_free (Nat.le_refl 2)) ?_
    simp [Setup.needs, hs, Setup.upTo, Setup.started, Resource.stage]
  have hunwound : Unwound (s.take .counterDir).held := by
    rw [Book.take_held, hs]
    exact unwound_upTo.add_counterDir
  unfold counterStartup
  split
  · rename_i hzero
    refine ⟨.refl s, fun _ => ?_, fun h => by cases h⟩
    rw [hs]
    funext r
    cases r <;> simp [Setup.upTo, Setup.started, Resource.stage, hzero]
  rename_i hcounters
  split
  · exact ⟨.refl s, fun h => by (cases h), fun _ => hs ▸ unwound_upTo⟩
  dsimp only
  split
  · exact ⟨hdir, fun h => by (cases h), fun _ => hunwound⟩
  split
  · exact ⟨hdir, fun h => by (cases h), fun _ => hunwound⟩
  refine ⟨hdir.trans (goes_take_of ?_ ?_), fun _ => ?_, fun h => by cases h⟩
  · rw [Book.take_held, Held.add_of_notMem (by simp), hs]
    exact upTo_free (Nat.le_refl 2)
  · simp [Setup.needs, hs, Setup.upTo, Setup.started, Resource.stage, Held.add]
  · rw [Book.take_held, Book.take_held, hs]
    funext r
    cases r <;> simp [Setup.upTo, Setup.started, Resource.stage, Held.add, hcounters]

theorem counterStop_spec : Goes (rules x b) s (counterStop s) ∧
    (counterStop s).held = s.held.remove [.counterThread] := by
  refine ⟨goes_stop (by simp) fun q hq => ?_, Book.release_held _ _⟩
  cases q <;> simp [Setup.needs] at hq

theorem upTo_remove_counterThread : (x.upTo n c).remove [.counterThread] = x.upTo n false := by
  funext r
  cases r <;> simp [Setup.upTo, Held.remove]

theorem counterShutdown_spec (hs : s.held = x.upTo 3 c) : Goes (rules x b) s (counterShutdown s) ∧
    (counterShutdown s).held = x.upTo 3 false := by
  obtain ⟨hgoes, hheld⟩ := counterStop_spec (x := x) (b := b) (s := s)
  rw [hs, upTo_remove_counterThread] at hheld
  unfold counterShutdown
  dsimp only
  split
  · refine ⟨hgoes.trans (goes_act fun r hr => ?_), hheld⟩
    rw [hheld]
    by_contra h
    have := upTo_stage (eq_true_of_ne_false h)
    cases r <;> simp [Resource.isSource, Resource.stage, Setup.upTo] at hr this h
  · exact ⟨hgoes, hheld⟩

/-! ## `can.c` -/

def canUp (iface : Nat) : List Resource := [.canFd iface, .canThread iface]

theorem canUp_free {l : List Nat} {r : Resource} (h : r ∈ l.flatMap canUp) : r.stage = 3 := by
  obtain ⟨iface, -, hr⟩ := List.mem_flatMap.mp h
  rcases List.mem_cons.mp hr with rfl | hr
  · rfl
  · rw [List.mem_singleton.mp hr]
    rfl

theorem ifaceStop_spec {iface : Nat} (hloop : s.held .mainLoop = false) :
    Goes (rules x b) s ((s.release (.canThread iface)).release (.canFd iface)) ∧
      ((s.release (.canThread iface)).release (.canFd iface)).held = s.held.remove (canUp iface) := by
  refine ⟨(goes_stop (by simp) fun q hq => ?_).trans (goes_release_of (by simp) fun q hq => ?_), ?_⟩
  · cases q <;> simp [Setup.needs] at hq
  · cases q <;> simp [Setup.needs] at hq
    · subst hq
      simp [Held.remove]
    · simp [Held.remove, hloop]
  · rw [Book.release_held, Book.release_held, Held.remove_remove]
    refine Held.remove_congr fun r => ?_
    simp only [canUp, List.mem_append, List.mem_cons, List.not_mem_nil, or_false]
    exact or_comm

theorem canShutdown_spec (hloop : s.held .mainLoop = false) : Goes (rules x b) s (canShutdown x s) ∧
    (canShutdown x s).held = s.held.remove ((List.range x.ifaces).flatMap canUp) :=
  stopAll_spec (rules x b) _ canUp (fun held => held .mainLoop = false)
    (fun iface _ held h => by rw [Held.remove_of_notMem (by simp [canUp])]; exact h)
    (fun iface _ s h => ifaceStop_spec h) hloop

theorem ifaceStartup_spec {env : Call → Bool} {iface : Nat} (hconf : s.held .conf = true)
    (hloop : s.held .mainLoop = false) (hfree : ∀ r ∈ canUp iface, s.held r = false) :
    Starts (rules x b) (canUp iface) s (ifaceStartup env iface s) := by
  have hfd : s.held (.canFd iface) = false := hfree _ (by simp [canUp])
  have hthread : s.held (.canThread iface) = false := hfree _ (by simp [canUp])
  have htake : Goes (rules x b) s (s.take (.canFd iface)) := goes_take_of hfd (by simp [Setup.needs, hconf])
  have hfail : Starts (rules x b) (canUp iface) s (false, (s.take (.canFd iface)).drop (.canFd iface)) := by
    refine ⟨htake.trans (goes_drop_of (by simp [Held.add]) (by simp) fun q hq => ?_), take_drop_held hfd⟩
    cases q <;> simp [Setup.needs] at hq
    · subst hq
      simp [Held.add, hthread]
    · simp [Held.add, hloop]
  unfold ifaceStartup
  split
  · exact ⟨.refl s, rfl⟩
  dsimp only
  split
  · exact hfail
  split
  · exact hfail
  split
  · exact hfail
  refine ⟨htake.trans (goes_take_of (by simp [Held.add, hthread]) (by simp [Setup.needs, Held.add, hconf])), ?_⟩
  rw [if_pos rfl, Book.take_held, Book.take_held, Held.add_add]
  rfl

theorem pairwise_disjoint {up : Nat → List Resource} {l : List Nat} (hl : l.Nodup)
    (h : ∀ i j, i ≠ j → ∀ r ∈ up i, r ∉ up j) : l.Pairwise fun i j => ∀ r ∈ up i, r ∉ up j :=
  hl.imp fun hij => h _ _ hij

theorem canUp_add {l : List Nat} {held : Held Resource} :
    (held.add (l.flatMap canUp)) .mainLoop = held .mainLoop := by
  refine Held.add_of_notMem fun h => ?_
  have := canUp_free h
  simp [Resource.stage] at this

theorem upTo_can : (x.upTo 3 c).add ((List.range x.ifaces).flatMap canUp) = x.upTo 4 c := by
  funext r
  cases r <;> simp [Setup.upTo, Setup.started, Resource.stage, Held.add, canUp]

theorem canStartup_spec {env : Call → Bool} (hs : s.held = x.upTo 3 true) :
    Advances x b 3 s (canStartup x env s) := by
  have hfree : ∀ r ∈ (List.range x.ifaces).flatMap canUp, s.held r = false := by
    intro r hr
    rw [hs]
    exact upTo_free (canUp_free hr).ge
  obtain ⟨hgoes, k, hheld, hok⟩ := startAll_spec (rules x b) (ifaceStartup env) canUp canUp
    (fun held => held .conf = true ∧ held .mainLoop = false) (l := List.range x.ifaces) (b := s)
    (fun iface _ held h => ⟨Held.add_eq_true.mpr (.inl h.1), by rw [Held.add_of_notMem (by simp [canUp])]; exact h.2⟩)
    (fun iface _ s h hfree => ifaceStartup_spec h.1 h.2 hfree)
    (pairwise_disjoint List.nodup_range fun i j hij r hr => by
      simp [canUp] at hr ⊢
      rcases hr with rfl | rfl <;> simpa using hij)
    (by simp [hs, Setup.upTo, Setup.started, Resource.stage])
    (fun iface h r hr => hfree r (List.mem_flatMap.mpr ⟨iface, h, hr⟩))
  unfold canStartup
  split
  · rename_i s' hstart
    rw [hstart] at hgoes hheld hok
    rw [hok rfl, List.take_length, hs, upTo_can] at hheld
    exact ⟨hgoes, hheld⟩
  · rename_i s' hstart
    rw [hstart] at hgoes hheld
    obtain ⟨hstop, hstopped⟩ := canShutdown_spec (x := x) (b := b) (s := s')
      (by rw [hheld, canUp_add, hs]; exact upTo_free (by simp [Resource.stage]))
    refine ⟨hgoes.trans hstop, ?_⟩
    dsimp only
    rw [hstopped, hheld, Held.add_remove _ hfree, hs]
    · rfl
    · intro r hr
      obtain ⟨iface, hi, hr⟩ := List.mem_flatMap.mp hr
      exact List.mem_flatMap.mpr ⟨iface, List.mem_of_mem_take hi, hr⟩

/-! ## `mqtt.c` -/

theorem zipIdx_flatMap {α β : Type} (l : List α) (f : Nat → List β) :
    (l.zipIdx.flatMap fun a => f a.2) = (List.range l.length).flatMap f := by
  rw [List.range_eq_range', ← List.zipIdx_map_snd, List.flatMap_map]

theorem take_zipIdx_flatMap {α β : Type} (l : List α) (f : Nat → List β) (k : Nat) :
    ((l.zipIdx.take k).flatMap fun a => f a.2) = ((List.range l.length).take k).flatMap f := by
  rw [List.range_eq_range', ← List.zipIdx_map_snd, ← List.map_take, List.flatMap_map]

theorem zipIdx_map {α β : Type} (l : List α) (f : Nat → β) :
    (l.zipIdx.flatMap fun a => [f a.2]) = (List.range l.length).map f := by
  rw [zipIdx_flatMap l fun i => [f i], List.map_eq_flatMap]

theorem zipIdx_pairwise {α : Type} (l : List α) : l.zipIdx.Pairwise fun a b => a.2 ≠ b.2 := by
  have : (List.range' 0 l.length).Nodup := List.nodup_range'
  rw [← List.zipIdx_map_snd] at this
  exact List.pairwise_map.mp this

def connUp (conn : Nat) : List Resource := [.mosq conn, .mosqThread conn]

/-- No call of `conn_startup` fails. -/
structure ConnStarts (env : Call → Bool) (conn : ConnSetup × Nat) : Prop where
  mosqNew : env (.mosqNew conn.2) = true
  usernamePwSet : conn.1.hasPassword = true → env (.usernamePwSet conn.2) = true
  willSet : conn.1.stateTopic = true → env (.willSet conn.2) = true
  loopStart : env (.loopStart conn.2) = true

/-- No call of `mqtt_startup` fails. -/
structure MqttStarts (x : Setup) (env : Call → Bool) : Prop where
  libInit : env .mosqLibInit = true
  conns : ∀ conn ∈ x.conns.zipIdx, ConnStarts env conn
  logger : x.loggers = true → env .loggerThread = true

theorem connStartup_spec {env : Call → Bool} {conn : ConnSetup × Nat}
    (hstrict : b = true → ConnStarts env conn) (hconf : s.held .conf = true) (hlib : s.held .mosqLib = true)
    (hlogger : s.held .loggerThread = false) (hfree : ∀ r ∈ connUp conn.2, s.held r = false) :
    Starts (rules x b) (connUp conn.2) s (connStartup env conn s) := by
  have hmosq : s.held (.mosq conn.2) = false := hfree _ (by simp [connUp])
  have hthread : s.held (.mosqThread conn.2) = false := hfree _ (by simp [connUp])
  have htake : Goes (rules x b) s (s.take (.mosq conn.2)) := goes_take_of hmosq (by simp [Setup.needs, hconf, hlib])
  have hfail (h : ¬ ConnStarts env conn) :
      Starts (rules x b) (connUp conn.2) s (false, (s.take (.mosq conn.2)).drop (.mosq conn.2)) := by
    refine ⟨htake.trans (goes_drop (by simp [Held.add]) fun q hq => ?_), take_drop_held hmosq⟩
    rcases users_iff.mp hq with hq | hq
    · cases q <;> simp [Setup.needs] at hq
      · subst hq
        simp [Held.add, hthread]
      · simp [Held.add, hlogger]
    · exact absurd (hstrict hq.1) h
  unfold connStartup
  split
  · exact ⟨.refl s, rfl⟩
  dsimp only
  split
  · rename_i h
    simp only [Bool.and_eq_true, Bool.not_eq_true'] at h
    exact hfail fun hstarts => by simp [hstarts.usernamePwSet h.1] at h
  split
  · rename_i h
    simp only [Bool.and_eq_true, Bool.not_eq_true'] at h
    exact hfail fun hstarts => by simp [hstarts.willSet h.1] at h
  split
  · rename_i h
    exact hfail fun hstarts => by simp [hstarts.loopStart] at h
  refine ⟨htake.trans (goes_take_of (by simp [Held.add, hthread]) (by simp [Setup.needs, Held.add, hconf])), ?_⟩
  rw [if_pos rfl, Book.take_held, Book.take_held, Held.add_add]
  rfl

/-- What `mqtt_shutdown` can find. -/
structure Closable (x : Setup) (b : Bool) (held : Held Resource) : Prop where
  lib : held .mosqLib = true
  running : ∀ conn, held (.mosqThread conn) = true → held (.mosq conn) = true
  mosq : ∀ conn, held (.mosq conn) = true → conn < x.conns.length
  calm : b = true → ∀ r, r.isSource = true → (∀ conn, r ≠ .mosqThread conn) → held r = false

def mqttOwn (x : Setup) : List Resource :=
  [.loggerThread] ++ (List.range x.conns.length).map .mosqThread ++ (List.range x.conns.length).map .mosq ++
    [.mosqLib]

theorem connStop_spec {conn : ConnSetup × Nat}
    (h : s.held (.mosqThread conn.2) = true → s.held (.mosq conn.2) = true) :
    Goes (rules x b) s (connStop conn s) ∧ (connStop conn s).held = s.held.remove [.mosqThread conn.2] := by
  unfold connStop
  split
  · refine ⟨goes_stop (by simp) fun q hq => ?_, Book.release_held _ _⟩
    cases q <;> simp [Setup.needs] at hq
  · rename_i hmosq
    refine ⟨.refl s, (Held.remove_of_free fun r hr => ?_).symm⟩
    rw [List.mem_singleton.mp hr]
    exact eq_false_of_ne_true fun hthread => hmosq (h hthread)

/-- No thread is left that needs an MQTT instance. -/
structure Unused (b : Bool) (held : Held Resource) : Prop where
  threads : ∀ conn, held (.mosqThread conn) = false
  logger : held .loggerThread = false
  calm : b = true → ∀ r, r.isSource = true → held r = false

theorem Unused.remove {held : Held Resource} (h : Unused b held) (l : List Resource) : Unused b (held.remove l) := by
  have hfree : ∀ r, held r = false → held.remove l r = false := by
    intro r hr
    simp [Held.remove, hr]
  exact ⟨fun conn => hfree _ (h.threads conn), hfree _ h.logger, fun hstrict r hr => hfree _ (h.calm hstrict r hr)⟩

theorem connDestroy_spec {conn : ConnSetup × Nat} (h : Unused b s.held) :
    Goes (rules x b) s (connDestroy conn s) ∧ (connDestroy conn s).held = s.held.remove [.mosq conn.2] := by
  refine ⟨goes_release fun q hq => ?_, Book.release_held _ _⟩
  rcases users_iff.mp hq with hq | hq
  · cases q <;> simp [Setup.needs] at hq
    · exact h.threads _
    · exact h.logger
  · exact h.calm hq.1 q hq.2.1

theorem mqttShutdown_spec (h : Closable x b s.held) : Goes (rules x b) s (mqttShutdown x s) ∧
    (mqttShutdown x s).held = s.held.remove (mqttOwn x) := by
  have hlogger : Goes (rules x b) s (s.release .loggerThread) := by
    refine goes_stop (by simp) fun q hq => ?_
    cases q <;> simp [Setup.needs] at hq
  obtain ⟨hstop, hstopped⟩ := stopAll_spec (rules x b) connStop (fun conn => [.mosqThread conn.2])
    (fun held => ∀ conn, held (.mosqThread conn) = true → held (.mosq conn) = true) (l := x.conns.zipIdx)
    (fun conn _ held h i hi => by
      rw [Held.remove_eq_true] at hi ⊢
      exact ⟨h i hi.1, by simp⟩)
    (fun conn _ s h => connStop_spec (h conn.2)) (b := s.release .loggerThread)
    (fun i hi => by
      rw [Book.release_held, Held.remove_eq_true] at hi ⊢
      exact ⟨h.running i hi.1, by simp⟩)
  rw [zipIdx_map x.conns Resource.mosqThread, Book.release_held, Held.remove_remove] at hstopped
  generalize hs₁ : stopAll connStop x.conns.zipIdx (s.release .loggerThread) = s₁ at hstop hstopped
  have hunused : Unused b s₁.held := by
    have hthread : ∀ conn, s₁.held (.mosqThread conn) = false := by
      intro conn
      by_contra hne
      rw [hstopped] at hne
      obtain ⟨hheld, hnot⟩ := Held.remove_eq_true.mp (eq_true_of_ne_false hne)
      have := h.mosq conn (h.running conn hheld)
      exact hnot (by simp [this])
    refine ⟨hthread, by rw [hstopped]; exact Held.remove_of_mem (by simp), fun hstrict r hr => ?_⟩
    by_cases hr' : ∃ conn, r = .mosqThread conn
    · obtain ⟨conn, rfl⟩ := hr'
      exact hthread conn
    · rw [hstopped, Held.remove, h.calm hstrict r hr (not_exists.mp hr')]
      rfl
  obtain ⟨hdestroy, hdestroyed⟩ := stopAll_spec (rules x b) connDestroy (fun conn => [.mosq conn.2])
    (Unused b) (l := x.conns.zipIdx) (fun conn _ held h => h.remove _) (fun conn _ s h => connDestroy_spec h)
    hunused
  rw [zipIdx_map x.conns Resource.mosq, hstopped, Held.remove_remove] at hdestroyed
  generalize hs₂ : stopAll connDestroy x.conns.zipIdx s₁ = s₂ at hdestroy hdestroyed
  have heq : mqttShutdown x s = s₂.drop .mosqLib := by rw [← hs₂, ← hs₁]; rfl
  rw [heq]
  refine ⟨((hlogger.trans hstop).trans hdestroy).trans (goes_drop_of ?_ (by simp) fun q hq => ?_), ?_⟩
  · rw [hdestroyed, Held.remove_of_notMem (by simp)]
    exact h.lib
  · cases q <;> simp [Setup.needs] at hq
    rename_i conn
    by_contra hne
    rw [hdestroyed] at hne
    obtain ⟨hheld, hnot⟩ := Held.remove_eq_true.mp (eq_true_of_ne_false hne)
    exact hnot (by simp [h.mosq conn hheld])
  · rw [Book.drop_held, hdestroyed, Held.remove_remove]
    rfl

theorem connStartup_ok {env : Call → Bool} {conn : ConnSetup × Nat} (h : ConnStarts env conn) (s : System) :
    (connStartup env conn s).1 = true := by
  unfold connStartup
  rw [h.mosqNew, h.loopStart]
  cases hpassword : conn.1.hasPassword <;> cases htopic : conn.1.stateTopic <;>
    simp [h.usernamePwSet, h.willSet, hpassword, htopic]

def connsUp (x : Setup) : List Resource := (List.range x.conns.length).flatMap connUp

theorem connsUp_stage {r : Resource} (h : r ∈ connsUp x) : r.stage = 4 ∧ r ≠ .mosqLib ∧ r ≠ .loggerThread := by
  obtain ⟨conn, -, hr⟩ := List.mem_flatMap.mp h
  rcases List.mem_cons.mp hr with rfl | hr
  · simp [Resource.stage]
  · rw [List.mem_singleton.mp hr]
    simp [Resource.stage]

theorem upTo_mqtt (c : Bool) : (((x.upTo 4 c).add [.mosqLib]).add (connsUp x)).add
    (if x.loggers then [.loggerThread] else []) = x.upTo 5 c := by
  funext r
  cases hloggers : x.loggers <;>
    cases r <;> simp [Setup.upTo, Setup.started, Resource.stage, Held.add, connsUp, connUp, hloggers]

theorem mqttOwn_add {l : List Resource} (hl : ∀ r ∈ l, r ∈ mqttOwn x) :
    ((x.upTo 4 c).add l).remove (mqttOwn x) = x.upTo 4 c := by
  refine Held.add_remove hl fun r hr => upTo_free ?_
  simp only [mqttOwn, List.mem_append, List.mem_singleton, List.mem_map] at hr
  rcases hr with ((rfl | ⟨_, -, rfl⟩) | ⟨_, -, rfl⟩) | rfl <;> exact Nat.le_refl 4

theorem mem_conns {l : List Nat} {conn : Nat} : (.mosq conn ∈ l.flatMap connUp ↔ conn ∈ l) ∧
    (.mosqThread conn ∈ l.flatMap connUp ↔ conn ∈ l) := by
  simp [connUp]

/-- What `mqtt_startup` has up when it fails behind `mosquitto_lib_init`. -/
theorem closable_part (hfail : b = false) (k : Nat) :
    Closable x b (((x.upTo 4 c).add [.mosqLib]).add (((List.range x.conns.length).take k).flatMap connUp)) := by
  have hmem : ∀ r : Resource, r.stage = 4 → r ≠ .mosqLib →
      (((x.upTo 4 c).add [.mosqLib]).add (((List.range x.conns.length).take k).flatMap connUp) r = true ↔
        r ∈ ((List.range x.conns.length).take k).flatMap connUp) := by
    intro r hstage hlib
    rw [Held.add_eq_true, Held.add_eq_true, upTo_free hstage.ge]
    simp [hlib]
  refine ⟨by simp [Held.add], fun conn h => ?_, fun conn h => ?_, fun h => by rw [hfail] at h; cases h⟩
  · rw [hmem _ rfl (by simp)] at h ⊢
    exact mem_conns.1.mpr (mem_conns.2.mp h)
  · rw [hmem _ rfl (by simp)] at h
    exact List.mem_range.mp (List.mem_of_mem_take (mem_conns.1.mp h))

theorem part_own (k : Nat) :
    ∀ r ∈ [.mosqLib] ++ ((List.range x.conns.length).take k).flatMap connUp, r ∈ mqttOwn x := by
  intro r hr
  rcases List.mem_append.mp hr with hr | hr
  · rw [List.mem_singleton.mp hr]
    simp [mqttOwn]
  · obtain ⟨conn, hconn, hr⟩ := List.mem_flatMap.mp hr
    have := List.mem_range.mp (List.mem_of_mem_take hconn)
    rcases List.mem_cons.mp hr with rfl | hr
    · simp [mqttOwn, this]
    · rw [List.mem_singleton.mp hr]
      simp [mqttOwn, this]

theorem mqttStartup_spec {env : Call → Bool} (hstrict : b = true → MqttStarts x env) (hs : s.held = x.upTo 4 true) :
    Advances x b 4 s (mqttStartup x env s) := by
  have hlib : Goes (rules x b) s (s.take .mosqLib) :=
    goes_take_of (by rw [hs]; exact upTo_free (Nat.le_refl 4)) (by simp [Setup.needs])
  have hconf : s.held .conf = true := by simp [hs, Setup.upTo, Setup.started, Resource.stage]
  have hfree : ∀ r ∈ connsUp x, (s.take .mosqLib).held r = false := by
    intro r hr
    obtain ⟨hstage, hne, -⟩ := connsUp_stage hr
    rw [Book.take_held, Held.add_of_notMem (by simpa using hne), hs]
    exact upTo_free hstage.ge
  obtain ⟨hgoes, k, hheld, hok⟩ := startAll_spec (rules x b) (connStartup env) (fun conn => connUp conn.2)
    (fun conn => connUp conn.2) (fun held => held .conf = true ∧ held .mosqLib = true ∧ held .loggerThread = false)
    (l := x.conns.zipIdx) (b := s.take .mosqLib)
    (fun conn _ held h => ⟨Held.add_eq_true.mpr (.inl h.1), Held.add_eq_true.mpr (.inl h.2.1),
      by rw [Held.add_of_notMem (by simp [connUp])]; exact h.2.2⟩)
    (fun conn hconn s h hfree => connStartup_spec (fun hst => (hstrict hst).conns conn hconn) h.1 h.2.1 h.2.2 hfree)
    ((zipIdx_pairwise _).imp fun hij r hr => by
      simp [connUp] at hr ⊢
      rcases hr with rfl | rfl <;> simpa using hij)
    ⟨by simp [Held.add, hconf], by simp [Held.add],
      by rw [Book.take_held, Held.add_of_notMem (by simp), hs]; exact upTo_free (Nat.le_refl 4)⟩
    (fun conn hconn r hr => hfree r (List.mem_flatMap.mpr ⟨conn.2, by
      rw [List.mem_range]
      have := List.snd_lt_of_mem_zipIdx hconn
      omega, hr⟩))
  rw [take_zipIdx_flatMap x.conns connUp, Book.take_held, hs] at hheld
  have hfail {s' : System} (h : b = false) (hgoes : Goes (rules x b) s s')
      (hheld : s'.held = ((x.upTo 4 true).add [.mosqLib]).add (((List.range x.conns.length).take k).flatMap connUp)) :
      Goes (rules x b) s (mqttShutdown x s') ∧ (mqttShutdown x s').held = x.upTo 4 true := by
    obtain ⟨hstop, hstopped⟩ := mqttShutdown_spec (s := s') (hheld ▸ closable_part h k)
    refine ⟨hgoes.trans hstop, ?_⟩
    rw [hstopped, hheld, Held.add_add, mqttOwn_add (part_own k)]
  unfold mqttStartup
  split
  · exact ⟨.refl s, hs⟩
  split
  · rename_i s' hstart
    rw [hstart] at hgoes hheld
    refine hfail ?_ (hlib.trans hgoes) hheld
    by_contra hst
    have := startAll_ok (fun conn hconn s => connStartup_ok ((hstrict (eq_true_of_ne_false hst)).conns conn hconn) s)
      (s.take .mosqLib)
    rw [hstart] at this
    cases this
  · rename_i s' hstart
    rw [hstart] at hgoes hheld hok
    have hall : s'.held = ((x.upTo 4 true).add [.mosqLib]).add (connsUp x) := by
      rw [hheld, hok rfl, List.take_of_length_le (by simp)]
      rfl
    have hup := upTo_mqtt (x := x) true
    unfold mqttLoggerStartup
    cases hloggers : x.loggers with
    | false =>
      rw [hloggers, if_neg (by simp), Held.add_nil] at hup
      exact ⟨hlib.trans hgoes, hall.trans hup⟩
    | true =>
      rw [hloggers, if_pos rfl] at hup
      cases hlogger : env .loggerThread with
      | false =>
        refine hfail ?_ (hlib.trans hgoes) hheld
        by_contra hst
        rw [(hstrict (eq_true_of_ne_false hst)).logger hloggers] at hlogger
        cases hlogger
      | true =>
        refine ⟨(hlib.trans hgoes).trans (goes_take_of ?_ ?_), ?_⟩
        · rw [hall, Held.add_of_notMem fun h => (connsUp_stage h).2.2 rfl, Held.add_of_notMem (by simp)]
          exact upTo_free (Nat.le_refl 4)
        · rw [hall]
          simp [Setup.needs, Held.add, connsUp, connUp, Setup.upTo, Setup.started, Resource.stage]
        · change s'.held.add _ = _
          rw [hall, hup]
          rfl

/-! ## `uvrgw_conf.c` and `eval.c` -/

theorem uvrgwConfCleanup_spec (hs : Unwound s.held) : Goes (rules x b) s (uvrgwConfCleanup s) ∧
    (uvrgwConfCleanup s).held = x.upTo 1 true := by
  have hfree : ∀ q, q ≠ .exitFd → q ≠ .conf → q ≠ .counterDir → s.held q = false := by
    intro q h₁ h₂ h₃
    by_contra h
    rcases hs.only q (eq_true_of_ne_false h) with rfl | rfl | rfl <;> contradiction
  have hdir : Goes (rules x b) s (s.release .counterDir) := by
    refine goes_release_of (by simp) fun q hq => hfree q ?_ ?_ ?_ <;> rintro rfl <;> simp [Setup.needs] at hq
  unfold uvrgwConfCleanup
  refine ⟨hdir.trans (goes_drop_of ?_ (by simp) fun q hq => ?_), ?_⟩
  · rw [Book.release_held, Held.remove_of_notMem (by simp)]
    exact hs.conf
  · rw [Book.release_held]
    by_cases hdir : q = .counterDir
    · exact Held.remove_of_mem (List.mem_singleton.mpr hdir)
    · rw [Held.remove_of_notMem (by simpa using hdir)]
      refine hfree q ?_ ?_ hdir <;> rintro rfl <;> simp [Setup.needs] at hq
  · rw [Book.drop_held, Book.release_held, Held.remove_remove]
    funext r
    by_cases hexit : r = .exitFd
    · subst hexit
      simp [Held.remove, hs.exitFd, Setup.upTo, Setup.started, Resource.stage]
    · rw [upTo_free (by cases r <;> simp [Resource.stage] at hexit ⊢)]
      by_contra h
      obtain ⟨hr, hnot⟩ := Held.remove_eq_true.mp (eq_true_of_ne_false h)
      rcases hs.only r hr with rfl | rfl | rfl <;> simp at hexit hnot

theorem upTo_conf : x.upTo 5 c = (x.upTo 6 c).remove [.watchdog] := by
  funext r
  cases r <;> simp [Setup.upTo, Setup.started, Resource.stage, Held.remove]

theorem upTo_eval : x.upTo 6 c = (x.upTo 7 c).remove [.evalThread] := by
  funext r
  cases r <;> simp [Setup.upTo, Setup.started, Resource.stage, Held.remove]

theorem uvrgwConfStartup_spec {env : Call → Bool} (hs : s.held = x.upTo 5 true) :
    Advances x b 5 s (uvrgwConfStartup x env s) := by
  unfold uvrgwConfStartup
  split
  · rename_i hneeded
    refine ⟨.refl s, ?_⟩
    rw [hs]
    funext r
    cases r <;> simp [Setup.upTo, Setup.started, Resource.stage] at hneeded ⊢
    exact hneeded
  rename_i hneeded
  split
  · exact ⟨.refl s, hs⟩
  refine ⟨goes_take_of (by rw [hs]; exact upTo_free (Nat.le_refl 5)) ?_, ?_⟩
  · simp [Setup.needs, hs, Setup.upTo, Setup.started, Resource.stage]
  · rw [Book.take_held, hs]
    funext r
    cases r <;> simp [Setup.upTo, Setup.started, Resource.stage, Held.add] at hneeded ⊢
    exact hneeded

theorem evalStartup_spec {env : Call → Bool} (hs : s.held = x.upTo 6 true) :
    Advances x b 6 s (evalStartup x env s) := by
  unfold evalStartup
  split
  · rename_i hevals
    refine ⟨.refl s, ?_⟩
    rw [hs]
    funext r
    cases r <;> simp [Setup.upTo, Setup.started, Resource.stage, hevals]
  rename_i hevals
  split
  · exact ⟨.refl s, hs⟩
  refine ⟨goes_take_of (by rw [hs]; exact upTo_free (Nat.le_refl 6)) ?_, ?_⟩
  · simp [Setup.needs, hs, Setup.upTo, Setup.started, Resource.stage]
  · rw [Book.take_held, hs]
    funext r
    cases r <;> simp [Setup.upTo, Setup.started, Resource.stage, Held.add, hevals]

/-! ## `mb.c` -/

def masterUp (tcp : Bool) (master : Bool × Nat) : List Resource :=
  .mbCtx tcp master.2 :: if master.1 then [.mbThread tcp master.2] else []

def masterOwn (tcp : Bool) (master : Bool × Nat) : List Resource := [.mbThread tcp master.2, .mbCtx tcp master.2]

theorem masterOpen_spec {env : Call → Bool} {tcp : Bool} {master : Bool × Nat} (hconf : s.held .conf = true)
    (hfree : ∀ r ∈ masterOwn tcp master, s.held r = false) :
    Starts (rules x b) (masterUp tcp master) s (masterOpen env tcp master s) := by
  have hctx : s.held (.mbCtx tcp master.2) = false := hfree _ (by simp [masterOwn])
  have hthread : s.held (.mbThread tcp master.2) = false := hfree _ (by simp [masterOwn])
  have htake : Goes (rules x b) s (s.take (.mbCtx tcp master.2)) := goes_take_of hctx (by simp [Setup.needs, hconf])
  have hfail : Starts (rules x b) (masterUp tcp master) s
      (false, (s.take (.mbCtx tcp master.2)).drop (.mbCtx tcp master.2)) := by
    refine ⟨htake.trans (goes_drop_of (by simp [Held.add]) (by simp) fun q hq => ?_), take_drop_held hctx⟩
    cases q <;> simp [Setup.needs] at hq
    obtain ⟨rfl, rfl⟩ := hq
    simp [Held.add, hthread]
  unfold masterOpen
  split
  · exact ⟨.refl s, rfl⟩
  dsimp only
  split
  · exact hfail
  unfold masterStartup
  cases hslaves : master.1 with
  | false =>
    refine ⟨htake, ?_⟩
    simp [masterUp, hslaves]
  | true =>
    cases env (.mbThread tcp master.2) with
    | false => exact hfail
    | true =>
      refine ⟨htake.trans (goes_take_of (by simp [Held.add, hthread]) (by simp [Setup.needs, Held.add, hconf])), ?_⟩
      simp [masterUp, hslaves, Held.add_add]

theorem masterShutdown_spec {tcp : Bool} {master : Bool × Nat} :
    Goes (rules x b) s (masterShutdown tcp master s) ∧
      (masterShutdown tcp master s).held = s.held.remove (masterOwn tcp master) := by
  refine ⟨(goes_stop (by simp) fun q hq => ?_).trans (goes_release_of (by simp) fun q hq => ?_), ?_⟩
  · cases q <;> simp [Setup.needs] at hq
  · cases q <;> simp [Setup.needs] at hq
    obtain ⟨rfl, rfl⟩ := hq
    simp [Held.remove]
  · rw [masterShutdown, Book.release_held, Book.release_held, Held.remove_remove]
    rfl

def mbOwn (x : Setup) : List Resource :=
  x.rtuMasters.zipIdx.flatMap (masterOwn false) ++ x.tcpMasters.zipIdx.flatMap (masterOwn true)

theorem mbShutdown_spec : Goes (rules x b) s (mbShutdown x s) ∧ (mbShutdown x s).held = s.held.remove (mbOwn x) := by
  obtain ⟨hrtu, hrtu'⟩ := stopAll_spec (rules x b) (masterShutdown false) (masterOwn false) (fun _ => True)
    (l := x.rtuMasters.zipIdx) (fun _ _ _ _ => trivial) (fun _ _ _ _ => masterShutdown_spec) (b := s) trivial
  obtain ⟨htcp, htcp'⟩ := stopAll_spec (rules x b) (masterShutdown true) (masterOwn true) (fun _ => True)
    (l := x.tcpMasters.zipIdx) (fun _ _ _ _ => trivial) (fun _ _ _ _ => masterShutdown_spec)
    (b := stopAll (masterShutdown false) x.rtuMasters.zipIdx s) trivial
  rw [hrtu', Held.remove_remove] at htcp'
  exact ⟨hrtu.trans htcp, htcp'⟩

theorem mem_masters {tcp : Bool} {l : List (Bool × Nat)} {r : Resource} (h : r ∈ l.flatMap (masterOwn tcp)) :
    r.stage = 7 := by
  obtain ⟨master, -, hr⟩ := List.mem_flatMap.mp h
  rcases List.mem_cons.mp hr with rfl | hr
  · rfl
  · rw [List.mem_singleton.mp hr]
    rfl

theorem masterUp_own {tcp : Bool} {master : Bool × Nat} {r : Resource} (h : r ∈ masterUp tcp master) :
    r ∈ masterOwn tcp master := by
  unfold masterUp at h
  rcases List.mem_cons.mp h with rfl | h
  · simp [masterOwn]
  · split at h
    · rw [List.mem_singleton.mp h]
      simp [masterOwn]
    · cases h

theorem masters_spec (env : Call → Bool) (tcp : Bool) {l : List Bool} (hconf : s.held .conf = true)
    (hfree : ∀ r ∈ l.zipIdx.flatMap (masterOwn tcp), s.held r = false) :
    Goes (rules x b) s (startAll (masterOpen env tcp) l.zipIdx s).2 ∧
      ∃ k, (startAll (masterOpen env tcp) l.zipIdx s).2.held = s.held.add ((l.zipIdx.take k).flatMap (masterUp tcp)) ∧
        ((startAll (masterOpen env tcp) l.zipIdx s).1 = true → k = l.zipIdx.length) :=
  startAll_spec (rules x b) (masterOpen env tcp) (masterUp tcp) (masterOwn tcp) (fun held => held .conf = true)
    (fun _ _ _ h => Held.add_eq_true.mpr (.inl h)) (fun _ _ _ h hfree => masterOpen_spec h hfree)
    ((zipIdx_pairwise l).imp fun hij r hr => by
      replace hr := masterUp_own hr
      simp [masterOwn] at hr ⊢
      rcases hr with rfl | rfl <;> simpa using hij)
    hconf (fun master h r hr => hfree r (List.mem_flatMap.mpr ⟨master, h, hr⟩))

theorem mbCtx_mem {tcp tcp' : Bool} {l : List Bool} {master : Nat} :
    .mbCtx tcp master ∈ l.zipIdx.flatMap (masterUp tcp') ↔ tcp = tcp' ∧ master < l.length := by
  rw [List.mem_flatMap]
  constructor
  · rintro ⟨⟨slaves, i⟩, hi, hr⟩
    simp [masterUp] at hr
    have := List.snd_lt_of_mem_zipIdx hi
    obtain ⟨rfl, rfl⟩ := hr
    exact ⟨rfl, by simpa using this⟩
  · rintro ⟨rfl, hlt⟩
    exact ⟨(l[master], master), List.mem_zipIdx_iff_getElem?.mpr (List.getElem?_eq_getElem hlt), by simp [masterUp]⟩

theorem mbThread_mem {tcp tcp' : Bool} {l : List Bool} {master : Nat} :
    .mbThread tcp master ∈ l.zipIdx.flatMap (masterUp tcp') ↔ tcp = tcp' ∧ l[master]? = some true := by
  rw [List.mem_flatMap]
  constructor
  · rintro ⟨⟨slaves, i⟩, hi, hr⟩
    cases slaves <;> simp [masterUp] at hr
    obtain ⟨rfl, rfl⟩ := hr
    exact ⟨rfl, List.mem_zipIdx_iff_getElem?.mp hi⟩
  · rintro ⟨rfl, hlt⟩
    exact ⟨(true, master), List.mem_zipIdx_iff_getElem?.mpr hlt, by simp [masterUp]⟩

theorem upTo_mb : ((x.upTo 7 c).add (x.rtuMasters.zipIdx.flatMap (masterUp false))).add
    (x.tcpMasters.zipIdx.flatMap (masterUp true)) = x.upTo 8 c := by
  funext r
  rw [Bool.eq_iff_iff, Held.add_eq_true, Held.add_eq_true]
  by_cases hstage : r.stage = 7
  · rw [upTo_free hstage.ge]
    cases r <;> simp [Resource.stage] at hstage
    · rename_i tcp master
      rw [mbCtx_mem, mbCtx_mem]
      cases tcp <;> simp [Setup.upTo, Setup.started, Setup.masters, Resource.stage]
    · rename_i tcp master
      rw [mbThread_mem, mbThread_mem]
      cases tcp <;> simp [Setup.upTo, Setup.started, Setup.masters, Resource.stage]
  · have hup : ∀ (tcp : Bool) (l : List (Bool × Nat)), r ∉ l.flatMap (masterUp tcp) := by
      intro tcp l h
      obtain ⟨master, hm, hr⟩ := List.mem_flatMap.mp h
      exact hstage (mem_masters (List.mem_flatMap.mpr ⟨master, hm, masterUp_own hr⟩))
    simp only [hup, or_false]
    have : r.stage < 7 ↔ r.stage < 8 := by omega
    simp only [Setup.upTo, this]

theorem mbOwn_stage {r : Resource} (h : r ∈ mbOwn x) : r.stage = 7 := by
  rcases List.mem_append.mp h with h | h <;> exact mem_masters h

theorem mbStartup_spec {env : Call → Bool} (hs : s.held = x.upTo 7 true) :
    Advances x b 7 s (mbStartup x env s) := by
  have hfree : ∀ r ∈ mbOwn x, s.held r = false := by
    intro r hr
    rw [hs]
    exact upTo_free (mbOwn_stage hr).ge
  have hfail {l : List Resource} {s' : System} (hl : ∀ r ∈ l, r ∈ mbOwn x) (hgoes : Goes (rules x b) s s')
      (hheld : s'.held = s.held.add l) :
      Goes (rules x b) s (mbShutdown x s') ∧ (mbShutdown x s').held = x.upTo 7 true := by
    obtain ⟨hstop, hstopped⟩ := mbShutdown_spec (x := x) (b := b) (s := s')
    rw [hheld, Held.add_remove hl hfree, hs] at hstopped
    exact ⟨hgoes.trans hstop, hstopped⟩
  obtain ⟨hrtu, k, hrtu', hrtuOk⟩ := masters_spec (x := x) (b := b) (s := s) env false (l := x.rtuMasters)
    (by simp [hs, Setup.upTo, Setup.started, Resource.stage]) fun r hr => hfree r (List.mem_append_left _ hr)
  unfold mbStartup
  split
  · rename_i s₁ hstart
    rw [hstart] at hrtu hrtu'
    exact hfail (fun r hr => List.mem_append_left _ (mem_part masterUp_own hr)) hrtu hrtu'
  rename_i s₁ hstart
  rw [hstart] at hrtu hrtu' hrtuOk
  rw [hrtuOk rfl, List.take_length] at hrtu'
  have hfree₁ : ∀ r ∈ x.tcpMasters.zipIdx.flatMap (masterOwn true), s₁.held r = false := by
    intro r hr
    rw [hrtu', Held.add_of_notMem fun h => ?_]
    · exact hfree r (List.mem_append_right _ hr)
    · obtain ⟨master, -, hr⟩ := List.mem_flatMap.mp hr
      obtain ⟨master', -, h⟩ := List.mem_flatMap.mp h
      replace h := masterUp_own h
      simp [masterOwn] at hr h
      rcases hr with rfl | rfl <;> simp at h
  obtain ⟨htcp, m, htcp', htcpOk⟩ := masters_spec (x := x) (b := b) (s := s₁) env true (l := x.tcpMasters)
    (by rw [hrtu', Held.add_eq_true]; exact .inl (by simp [hs, Setup.upTo, Setup.started, Resource.stage])) hfree₁
  rw [hrtu', Held.add_add] at htcp'
  cases hstart₂ : startAll (masterOpen env true) x.tcpMasters.zipIdx s₁ with
  | mk ok s₂ =>
    rw [hstart₂] at htcp htcp' htcpOk
    cases ok with
    | false =>
      refine hfail (fun r hr => ?_) (hrtu.trans htcp) htcp'
      rcases List.mem_append.mp hr with hr | hr
      · exact List.mem_append_left _ (mem_part masterUp_own (k := x.rtuMasters.zipIdx.length)
          (by rwa [List.take_length]))
      · exact List.mem_append_right _ (mem_part masterUp_own hr)
    | true =>
      rw [htcpOk rfl, List.take_length, hs, ← Held.add_add, upTo_mb] at htcp'
      exact ⟨hrtu.trans htcp, htcp'⟩

/-! ## `rest.c` -/

theorem restShutdown_spec (hcurl : s.held .curl = true)
    (hbound : ∀ conn, s.held (.restThread conn) = true → conn < x.restConns) :
    Goes (rules x b) s (restShutdown x s) ∧
      (restShutdown x s).held = s.held.remove ((List.range x.restConns).map .restThread ++ [.curl]) := by
  obtain ⟨hstop, hstopped⟩ := stopAll_spec (rules x b) (fun conn (s : System) => s.release (.restThread conn))
    (fun conn => [.restThread conn]) (fun _ => True) (l := List.range x.restConns) (fun _ _ _ _ => trivial)
    (fun conn _ s _ => ⟨goes_stop (by simp) fun q hq => by cases q <;> simp [Setup.needs] at hq,
      Book.release_held _ _⟩)
    (b := s) trivial
  rw [← List.map_eq_flatMap] at hstopped
  refine ⟨hstop.trans (goes_drop_of ?_ (by simp) fun q hq => ?_), ?_⟩
  · rw [hstopped, Held.remove_of_notMem (by simp)]
    exact hcurl
  · cases q <;> simp [Setup.needs] at hq
    rename_i conn
    by_contra hne
    rw [hstopped] at hne
    obtain ⟨hheld, hnot⟩ := Held.remove_eq_true.mp (eq_true_of_ne_false hne)
    exact hnot (by simp [hbound conn hheld])
  · rw [restShutdown, Book.drop_held, hstopped, Held.remove_remove]

theorem upTo_rest : ((x.upTo 8 c).add [.curl]).add ((List.range x.restConns).map .restThread) = x.upTo 9 c := by
  funext r
  cases r <;> simp [Setup.upTo, Setup.started, Resource.stage, Held.add]

theorem restStartup_spec {env : Call → Bool} (hs : s.held = x.upTo 8 true) :
    Advances x b 8 s (restStartup x env s) := by
  have hcurl : Goes (rules x b) s (s.take .curl) :=
    goes_take_of (by rw [hs]; exact upTo_free (Nat.le_refl 8)) (by simp [Setup.needs])
  have hconf : s.held .conf = true := by simp [hs, Setup.upTo, Setup.started, Resource.stage]
  have hfree : ∀ conn, s.held (.restThread conn) = false := fun conn => by rw [hs]; exact upTo_free (Nat.le_refl 8)
  obtain ⟨hgoes, k, hheld, hok⟩ := startAll_spec (rules x b)
    (fun conn (s : System) => if !env (.restThread conn) then (false, s) else (true, s.take (.restThread conn)))
    (fun conn => [.restThread conn]) (fun conn => [.restThread conn])
    (fun held => held .conf = true ∧ held .curl = true) (l := List.range x.restConns) (b := s.take .curl)
    (fun conn _ held h => ⟨Held.add_eq_true.mpr (.inl h.1), Held.add_eq_true.mpr (.inl h.2)⟩)
    (fun conn _ s h hfree => by
      split
      · exact ⟨.refl s, rfl⟩
      · exact ⟨goes_take_of (hfree _ (by simp)) (by simp [Setup.needs, h.1, h.2]), rfl⟩)
    (pairwise_disjoint List.nodup_range fun i j hij r hr => by
      rw [List.mem_singleton.mp hr]
      simpa using hij)
    ⟨by simp [Held.add, hconf], by simp [Held.add]⟩
    (fun conn _ r hr => by
      rw [List.mem_singleton.mp hr, Book.take_held, Held.add_of_notMem (by simp)]
      exact hfree conn)
  rw [← List.map_eq_flatMap, Book.take_held, hs, Held.add_add] at hheld
  unfold restStartup
  split
  · exact ⟨.refl s, hs⟩
  split
  · rename_i s' hstart
    rw [hstart] at hgoes hheld
    have hmem : ∀ r ∈ [Resource.curl] ++ ((List.range x.restConns).take k).map Resource.restThread,
        r ∈ (List.range x.restConns).map Resource.restThread ++ [Resource.curl] := by
      intro r hr
      rcases List.mem_append.mp hr with hr | hr
      · exact List.mem_append_right _ hr
      · obtain ⟨conn, hconn, rfl⟩ := List.mem_map.mp hr
        exact List.mem_append_left _ (List.mem_map_of_mem (List.mem_of_mem_take hconn))
    obtain ⟨hstop, hstopped⟩ := restShutdown_spec (x := x) (b := b) (s := s')
      (by rw [hheld]; simp [Held.add])
      (fun conn hconn => by
        rw [hheld, Held.add_eq_true, upTo_free (Nat.le_refl 8)] at hconn
        simpa using hmem _ (hconn.resolve_left (by simp)))
    refine ⟨(hcurl.trans hgoes).trans hstop, ?_⟩
    dsimp only
    rw [hstopped, hheld, Held.add_remove hmem]
    · rfl
    · intro r hr
      refine upTo_free ?_
      rcases List.mem_append.mp hr with hr | hr
      · obtain ⟨conn, -, rfl⟩ := List.mem_map.mp hr
        exact Nat.le_refl 8
      · rw [List.mem_singleton.mp hr]
        exact Nat.le_refl 8
  · rename_i s' hstart
    rw [hstart] at hgoes hheld hok
    rw [hok rfl, List.take_length, ← Held.add_add, upTo_rest] at hheld
    exact ⟨hcurl.trans hgoes, hheld⟩

/-! ## `sunspec.c` -/

def serverUp (server : Nat) : List Resource := [.sunspecCtx server, .listenFd server, .sunspecThread server]

theorem serverUp_stage {l : List Nat} {r : Resource} (h : r ∈ l.flatMap serverUp) : r.stage = 9 := by
  obtain ⟨server, -, hr⟩ := List.mem_flatMap.mp h
  simp only [serverUp, List.mem_cons, List.not_mem_nil, or_false] at hr
  rcases hr with rfl | rfl | rfl <;> rfl

theorem serverShutdown_spec {server : Nat} : Goes (rules x b) s (serverShutdown server s) ∧
    (serverShutdown server s).held = s.held.remove (serverUp server) := by
  unfold serverShutdown
  refine ⟨((goes_stop (by simp) fun q hq => ?_).trans (goes_release_of (by simp) fun q hq => ?_)).trans
    (goes_release_of (by simp) fun q hq => ?_), ?_⟩
  · cases q <;> simp [Setup.needs] at hq
  · cases q <;> simp [Setup.needs] at hq
    subst hq
    simp [Held.remove]
  · cases q <;> simp [Setup.needs] at hq <;> subst hq <;> simp [Held.remove]
  · rw [Book.release_held, Book.release_held, Book.release_held, Held.remove_remove, Held.remove_remove]
    refine Held.remove_congr fun r => ?_
    simp only [serverUp, List.mem_append, List.mem_cons, List.not_mem_nil, or_false]
    tauto

theorem sunspecShutdown_spec : Goes (rules x b) s (sunspecShutdown x s) ∧
    (sunspecShutdown x s).held = s.held.remove ((List.range x.servers).flatMap serverUp) :=
  stopAll_spec (rules x b) _ serverUp (fun _ => True) (fun _ _ _ _ => trivial) (fun _ _ _ _ => serverShutdown_spec)
    trivial

theorem serverStartup_spec {env : Call → Bool} {server : Nat} (hconf : s.held .conf = true)
    (hfree : ∀ r ∈ serverUp server, s.held r = false) :
    Starts (rules x b) (serverUp server) s (serverStartup env server s) := by
  have hctx : s.held (.sunspecCtx server) = false := hfree _ (by simp [serverUp])
  have hfd : s.held (.listenFd server) = false := hfree _ (by simp [serverUp])
  have hthread : s.held (.sunspecThread server) = false := hfree _ (by simp [serverUp])
  have htake : Goes (rules x b) s (s.take (.sunspecCtx server)) := goes_take_of hctx (by simp [Setup.needs, hconf])
  have hlisten : Goes (rules x b) (s.take (.sunspecCtx server))
      ((s.take (.sunspecCtx server)).take (.listenFd server)) :=
    goes_take_of (by simp [Held.add, hfd]) (by simp [Setup.needs, Held.add, hconf])
  unfold serverStartup
  split
  · exact ⟨.refl s, rfl⟩
  dsimp only
  split
  · refine ⟨htake.trans (goes_drop_of (by simp [Held.add]) (by simp) fun q hq => ?_), take_drop_held hctx⟩
    cases q <;> simp [Setup.needs] at hq <;> subst hq
    · simp [Held.add, hfd]
    · simp [Held.add, hthread]
  split
  · have hclosed := take_drop_held (b := s.take (.sunspecCtx server)) (r := .listenFd server)
        (by simp [Held.add, hfd])
    refine ⟨((htake.trans hlisten).trans (goes_drop_of (by simp [Held.add]) (by simp) fun q hq => ?_)).trans
      (goes_drop_of ?_ (by simp) fun q hq => ?_), ?_⟩
    · cases q <;> simp [Setup.needs] at hq
      subst hq
      simp [Held.add, hthread]
    · rw [hclosed]
      simp [Held.add]
    · rw [hclosed]
      cases q <;> simp [Setup.needs] at hq <;> subst hq
      · simp [Held.add, hfd]
      · simp [Held.add, hthread]
    · rw [Book.drop_held, hclosed]
      exact take_drop_held hctx
  refine ⟨(htake.trans hlisten).trans (goes_take_of (by simp [Held.add, hthread])
    (by simp [Setup.needs, Held.add, hconf])), ?_⟩
  rw [if_pos rfl, Book.take_held, Book.take_held, Book.take_held, Held.add_add, Held.add_add]
  rfl

theorem upTo_sunspec : (x.upTo 9 c).add ((List.range x.servers).flatMap serverUp) = x.upTo 10 c := by
  funext r
  cases r <;> simp [Setup.upTo, Setup.started, Resource.stage, Held.add, serverUp]

theorem sunspecStartup_spec {env : Call → Bool} (hs : s.held = x.upTo 9 true) :
    Advances x b 9 s (sunspecStartup x env s) := by
  have hfree : ∀ r ∈ (List.range x.servers).flatMap serverUp, s.held r = false := by
    intro r hr
    rw [hs]
    exact upTo_free (serverUp_stage hr).ge
  obtain ⟨hgoes, k, hheld, hok⟩ := startAll_spec (rules x b) (serverStartup env) serverUp serverUp
    (fun held => held .conf = true) (l := List.range x.servers) (b := s)
    (fun _ _ _ h => Held.add_eq_true.mpr (.inl h)) (fun _ _ _ h hfree => serverStartup_spec h hfree)
    (pairwise_disjoint List.nodup_range fun i j hij r hr => by
      simp [serverUp] at hr ⊢
      rcases hr with rfl | rfl | rfl <;> simpa using hij)
    (by simp [hs, Setup.upTo, Setup.started, Resource.stage])
    (fun server h r hr => hfree r (List.mem_flatMap.mpr ⟨server, h, hr⟩))
  unfold sunspecStartup
  split
  · rename_i s' hstart
    rw [hstart] at hgoes hheld hok
    rw [hok rfl, List.take_length, hs, upTo_sunspec] at hheld
    exact ⟨hgoes, hheld⟩
  · rename_i s' hstart
    rw [hstart] at hgoes hheld
    obtain ⟨hstop, hstopped⟩ := sunspecShutdown_spec (x := x) (b := b) (s := s')
    rw [hheld, Held.add_remove (fun r hr => mem_part id hr) hfree, hs] at hstopped
    exact ⟨hgoes.trans hstop, hstopped⟩

end Uvrgw.Main
