import Uvrgw.Main.Code

/-! # The order of startup and shutdown -/

namespace Uvrgw.Main

open Uvrgw.Lib.Resources

/-! ## Rules -/

/-- What must be there while a resource is held: the memory of the configuration, the sockets and instances that
a thread works on, and what these were opened with. -/
def Setup.needs (x : Setup) : Resource → List Resource
  | .exitFd | .conf | .curl | .mosqLib => []
  | .counterDir | .watchdog | .evalThread => [.conf]
  | .counterThread => [.conf, .counterDir]
  | .canFd _ => [.conf]
  | .canThread iface => [.conf, .canFd iface]
  | .mosq _ => [.conf, .mosqLib]
  | .mosqThread conn => [.conf, .mosq conn]
  | .loggerThread => .conf :: (List.range x.conns.length).map .mosq
  | .mbCtx _ _ => [.conf]
  | .mbThread tcp master => [.conf, .mbCtx tcp master]
  | .restThread _ => [.conf, .curl]
  | .sunspecCtx _ => [.conf]
  | .listenFd server => [.conf, .sunspecCtx server]
  | .sunspecThread server => [.conf, .sunspecCtx server, .listenFd server]
  | .mainLoop => [.exitFd, .conf] ++ (List.range x.ifaces).map .canFd

/-- The threads that dispatch values. -/
def Resource.isSource : Resource → Bool
  | .counterThread | .mosqThread _ | .watchdog | .evalThread | .mbThread _ _ | .restThread _ | .mainLoop => true
  | _ => false

/-- The rules of startup and shutdown. With `strict` no MQTT instance is destroyed while a source runs. -/
def rules (x : Setup) (strict : Bool) : Rules Resource Event where
  needs r q := q ∈ x.needs r
  uses r q := strict = true ∧ r.isSource = true ∧ ∃ conn, q = .mosq conn
  allows
    | .publish, held => ∀ conn < x.conns.length, held (.mosq conn) = true
    | .save, held => ∀ r, r.isSource = true → held r = false

/-! ## Stages -/

def Resource.stage : Resource → Nat
  | .exitFd => 0
  | .conf => 1
  | .counterDir | .counterThread => 2
  | .canFd _ | .canThread _ => 3
  | .mosqLib | .mosq _ | .mosqThread _ | .loggerThread => 4
  | .watchdog => 5
  | .evalThread => 6
  | .mbCtx _ _ | .mbThread _ _ => 7
  | .curl | .restThread _ => 8
  | .sunspecCtx _ | .listenFd _ | .sunspecThread _ => 9
  | .mainLoop => 10

def Setup.masters (x : Setup) (tcp : Bool) : List Bool := if tcp then x.tcpMasters else x.rtuMasters

/-- What is up when the loop of `main` runs. -/
def Setup.started (x : Setup) : Resource → Bool
  | .exitFd | .conf | .mosqLib | .curl | .mainLoop => true
  | .counterDir | .counterThread => x.counters ≠ 0
  | .canFd iface | .canThread iface => iface < x.ifaces
  | .mosq conn | .mosqThread conn => conn < x.conns.length
  | .loggerThread => x.loggers
  | .watchdog => x.needed
  | .evalThread => x.evals ≠ 0
  | .mbCtx tcp master => master < (x.masters tcp).length
  | .mbThread tcp master => (x.masters tcp)[master]? = some true
  | .restThread conn => conn < x.restConns
  | .sunspecCtx server | .listenFd server | .sunspecThread server => server < x.servers

/-- The stages below `n` are up; `counting` says whether the counter thread runs. -/
def Setup.upTo (x : Setup) (n : Nat) (counting : Bool) : Held Resource :=
  fun r => x.started r && decide (r.stage < n) && (counting || r ≠ .counterThread)

section Legal

variable {x : Setup} {b : Bool} {s : System} {c : Bool} {n : Nat}

theorem upTo_stage {r : Resource} (h : x.upTo n c r = true) : r.stage < n := by
  simp only [Setup.upTo, Bool.and_eq_true, decide_eq_true_eq] at h
  exact h.1.2

theorem upTo_free {r : Resource} (h : n ≤ r.stage) : x.upTo n c r = false := by
  by_contra hr
  have := upTo_stage (eq_true_of_ne_false hr)
  omega

/-- Who needs a resource, and who is not to run when it is given back. -/
theorem users_iff {q r : Resource} : (rules x b).needs q r ∨ (rules x b).uses q r ↔
    r ∈ x.needs q ∨ b = true ∧ q.isSource = true ∧ ∃ conn, r = .mosq conn := Iff.rfl

/-- A resource that is no MQTT instance is given back when those that need it are gone. -/
theorem goes_release_of {r : Resource} (hmosq : ∀ conn, r ≠ .mosq conn)
    (husers : ∀ q, r ∈ x.needs q → s.held q = false) : Goes (rules x b) s (s.release r) := by
  refine goes_release fun q hq => ?_
  rcases users_iff.mp hq with hq | ⟨-, -, conn, rfl⟩
  · exact husers q hq
  · exact absurd rfl (hmosq conn)

theorem goes_drop_of {r : Resource} (hr : s.held r = true) (hmosq : ∀ conn, r ≠ .mosq conn)
    (husers : ∀ q, r ∈ x.needs q → s.held q = false) : Goes (rules x b) s (s.drop r) := by
  refine goes_drop hr fun q hq => ?_
  rcases users_iff.mp hq with hq | ⟨-, -, conn, rfl⟩
  · exact husers q hq
  · exact absurd rfl (hmosq conn)

/-- A thread has no users. -/
theorem goes_stop {r : Resource} (hmosq : ∀ conn, r ≠ .mosq conn) (h : ∀ q, r ∉ x.needs q) :
    Goes (rules x b) s (s.release r) := goes_release_of hmosq fun q hq => absurd hq (h q)

theorem goes_take_of {r : Resource} (hr : s.held r = false) (hneeds : ∀ q ∈ x.needs r, s.held q = true) :
    Goes (rules x b) s (s.take r) := goes_take hr hneeds

end Legal

end Uvrgw.Main
