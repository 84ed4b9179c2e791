import Uvrgw.Lib.Resources

/-!
# Startup and shutdown (`main.c`)

What `main` and the startup and shutdown functions of the subsystems open, start, stop and close. A call
that can fail is answered by the environment.
-/

namespace Uvrgw.Main

open Uvrgw.Lib.Resources

/-! ## The subsystems -/

/-- What is opened and what is running. A thread is held while its `thread_running` is set. -/
inductive Resource where
  | exitFd
  /-- What `uvrgw_conf_load` allocated. -/
  | conf
  | counterDir
  | counterThread
  | canFd (iface : Nat)
  | canThread (iface : Nat)
  | mosqLib
  | mosq (conn : Nat)
  | mosqThread (conn : Nat)
  | loggerThread
  | watchdog
  | evalThread
  | mbCtx (tcp : Bool) (master : Nat)
  | mbThread (tcp : Bool) (master : Nat)
  | curl
  | restThread (conn : Nat)
  | sunspecCtx (server : Nat)
  | listenFd (server : Nat)
  | sunspecThread (server : Nat)
  /-- The loop of `main`, which dispatches the values of CAN frames. -/
  | mainLoop
  deriving DecidableEq, Repr

inductive Event where
  /-- `counter_publish`. -/
  | publish
  /-- `save_states` in `counter_shutdown`. -/
  | save
  deriving DecidableEq, Repr

/-- The calls that can fail. -/
inductive Call where
  | eventfd
  | confLoad
  | counterDirMalloc
  | mkdir
  | counterThread
  | socket (iface : Nat)
  | ioctl (iface : Nat)
  | bind (iface : Nat)
  | canThread (iface : Nat)
  | mosqLibInit
  | mosqNew (conn : Nat)
  | usernamePwSet (conn : Nat)
  | willSet (conn : Nat)
  | loopStart (conn : Nat)
  | loggerThread
  | watchdog
  | evalThread
  | modbusNew (tcp : Bool) (master : Nat)
  | responseTimeout (tcp : Bool) (master : Nat)
  | mbThread (tcp : Bool) (master : Nat)
  | curlInit
  | restThread (conn : Nat)
  | sunspecNew (server : Nat)
  | listen (server : Nat)
  | sunspecThread (server : Nat)
  deriving DecidableEq, Repr

structure ConnSetup where
  hasPassword : Bool
  stateTopic : Bool

/-- What the configuration asks for. -/
structure Setup where
  counters : Nat
  ifaces : Nat
  conns : List ConnSetup
  /-- Some connection has a logger. -/
  loggers : Bool
  /-- Some value has a `stale_timeout`. -/
  needed : Bool
  evals : Nat
  /-- For each RTU master, whether it has slaves. -/
  rtuMasters : List Bool
  tcpMasters : List Bool
  restConns : Nat
  servers : Nat

abbrev System := Book Resource Event

section Subsystems

variable (x : Setup) (env : Call → Bool)

/-! ## `counter.c` -/

def counterStartup (s : System) : Bool × System :=
  if x.counters = 0 then (true, s)
  else if !env .counterDirMalloc then (false, s)
  else
    let s := s.take .counterDir
    if !env .mkdir then (false, s)
    else if !env .counterThread then (false, s)
    else (true, s.take .counterThread)

def counterPublish (s : System) : System := s.act (.event .publish)

def counterStop (s : System) : System := s.release .counterThread

def counterShutdown (s : System) : System :=
  let s := counterStop s
  if s.held .counterDir then s.act (.event .save) else s

/-! ## `can.c` -/

def ifaceStartup (iface : Nat) (s : System) : Bool × System :=
  if !env (.socket iface) then (false, s)
  else
    let s := s.take (.canFd iface)
    if !env (.ioctl iface) then (false, s.drop (.canFd iface))
    else if !env (.bind iface) then (false, s.drop (.canFd iface))
    else if !env (.canThread iface) then (false, s.drop (.canFd iface))
    else (true, s.take (.canThread iface))

def canShutdown (s : System) : System :=
  stopAll (fun iface s => (s.release (.canThread iface)).release (.canFd iface)) (List.range x.ifaces) s

def canStartup (s : System) : Bool × System :=
  match startAll (ifaceStartup env) (List.range x.ifaces) s with
  | (true, s) => (true, s)
  | (false, s) => (false, canShutdown x s)

/-! ## `mqtt.c` and `mqtt_logger.c` -/

def connStartup (conn : ConnSetup × Nat) (s : System) : Bool × System :=
  if !env (.mosqNew conn.2) then (false, s)
  else
    let s := s.take (.mosq conn.2)
    if conn.1.hasPassword && !env (.usernamePwSet conn.2) then (false, s.drop (.mosq conn.2))
    else if conn.1.stateTopic && !env (.willSet conn.2) then (false, s.drop (.mosq conn.2))
    else if !env (.loopStart conn.2) then (false, s.drop (.mosq conn.2))
    else (true, s.take (.mosqThread conn.2))

/-- The network thread of a connection is stopped where its instance exists. -/
def connStop (conn : ConnSetup × Nat) (s : System) : System :=
  if s.held (.mosq conn.2) then s.release (.mosqThread conn.2) else s

def connDestroy (conn : ConnSetup × Nat) (s : System) : System := s.release (.mosq conn.2)

def mqttLoggerStartup (s : System) : Bool × System :=
  if !x.loggers then (true, s)
  else if !env .loggerThread then (false, s)
  else (true, s.take .loggerThread)

def mqttLoggerShutdown (s : System) : System := s.release .loggerThread

def mqttShutdown (s : System) : System :=
  let s := mqttLoggerShutdown s
  let s := stopAll connStop x.conns.zipIdx s
  let s := stopAll connDestroy x.conns.zipIdx s
  s.drop .mosqLib

def mqttStartup (s : System) : Bool × System :=
  if !env .mosqLibInit then (false, s)
  else
    match startAll (connStartup env) x.conns.zipIdx (s.take .mosqLib) with
    | (false, s) => (false, mqttShutdown x s)
    | (true, s) =>
      match mqttLoggerStartup x env s with
      | (false, s) => (false, mqttShutdown x s)
      | (true, s) => (true, s)

/-! ## `uvrgw_conf.c` -/

def uvrgwConfStartup (s : System) : Bool × System :=
  if !x.needed then (true, s)
  else if !env .watchdog then (false, s)
  else (true, s.take .watchdog)

def uvrgwConfShutdown (s : System) : System := s.release .watchdog

/-- `uvrgw_conf_cleanup`; `counter_unconfigure` frees the directory name. -/
def uvrgwConfCleanup (s : System) : System := (s.release .counterDir).drop .conf

/-! ## `eval.c` -/

def evalStartup (s : System) : Bool × System :=
  if x.evals = 0 then (true, s)
  else if !env .evalThread then (false, s)
  else (true, s.take .evalThread)

def evalShutdown (s : System) : System := s.release .evalThread

/-! ## `mb.c` -/

/-- A master: whether it has slaves, and its number. -/
def masterStartup (tcp : Bool) (master : Bool × Nat) (s : System) : Bool × System :=
  if master.1 then
    if !env (.mbThread tcp master.2) then (false, s)
    else (true, s.take (.mbThread tcp master.2))
  else (true, s)

/-- `master_rtu_startup` and `master_tcp_startup`. -/
def masterOpen (tcp : Bool) (master : Bool × Nat) (s : System) : Bool × System :=
  if !env (.modbusNew tcp master.2) then (false, s)
  else
    let s := s.take (.mbCtx tcp master.2)
    if !env (.responseTimeout tcp master.2) then (false, s.drop (.mbCtx tcp master.2))
    else
      match masterStartup env tcp master s with
      | (false, s) => (false, s.drop (.mbCtx tcp master.2))
      | (true, s) => (true, s)

def masterShutdown (tcp : Bool) (master : Bool × Nat) (s : System) : System :=
  (s.release (.mbThread tcp master.2)).release (.mbCtx tcp master.2)

def mbShutdown (s : System) : System :=
  let s := stopAll (masterShutdown false) x.rtuMasters.zipIdx s
  stopAll (masterShutdown true) x.tcpMasters.zipIdx s

def mbStartup (s : System) : Bool × System :=
  match startAll (masterOpen env false) x.rtuMasters.zipIdx s with
  | (false, s) => (false, mbShutdown x s)
  | (true, s) =>
    match startAll (masterOpen env true) x.tcpMasters.zipIdx s with
    | (false, s) => (false, mbShutdown x s)
    | (true, s) => (true, s)

/-! ## `rest.c` -/

def restShutdown (s : System) : System :=
  (stopAll (fun conn s => s.release (.restThread conn)) (List.range x.restConns) s).drop .curl

def restStartup (s : System) : Bool × System :=
  if !env .curlInit then (false, s)
  else
    match startAll (fun conn s => if !env (.restThread conn) then (false, s) else (true, s.take (.restThread conn)))
      (List.range x.restConns) (s.take .curl) with
    | (false, s) => (false, restShutdown x s)
    | (true, s) => (true, s)

/-! ## `sunspec.c` -/

def serverStartup (server : Nat) (s : System) : Bool × System :=
  if !env (.sunspecNew server) then (false, s)
  else
    let s := s.take (.sunspecCtx server)
    if !env (.listen server) then (false, s.drop (.sunspecCtx server))
    else
      let s := s.take (.listenFd server)
      if !env (.sunspecThread server) then (false, (s.drop (.listenFd server)).drop (.sunspecCtx server))
      else (true, s.take (.sunspecThread server))

/-- `server_shutdown`, without the sockets of the clients. -/
def serverShutdown (server : Nat) (s : System) : System :=
  ((s.release (.sunspecThread server)).release (.listenFd server)).release (.sunspecCtx server)

def sunspecShutdown (s : System) : System := stopAll serverShutdown (List.range x.servers) s

def sunspecStartup (s : System) : Bool × System :=
  match startAll (serverStartup env) (List.range x.servers) s with
  | (true, s) => (true, s)
  | (false, s) => (false, sunspecShutdown x s)

/-! ## `main.c` -/

/-- What one pass of the loop of `main` meets. -/
inductive Pass where
  /-- `select` fails with EINTR. -/
  | interrupted
  | selectFailed
  /-- The exit fd is set. -/
  | exit
  /-- Frames are handled; `ok` is what `can_handler` says. -/
  | frames (ok : Bool)
  deriving DecidableEq, Repr

/-- The loop of `main`: the return code, if the loop ends. -/
def mainLoop : List Pass → Option Nat
  | [] => none
  | .interrupted :: passes => mainLoop passes
  | .selectFailed :: _ => some 1
  | .exit :: _ => some 0
  | .frames false :: _ => some 1
  | .frames true :: passes => mainLoop passes

/-! The labels of `main`, from the last one on. -/

def failConf (s : System) : System := s.drop .exitFd

def failCounter (s : System) : System := failConf (uvrgwConfCleanup s)

def failCan (s : System) : System := failCounter (counterShutdown s)

def failMqtt (s : System) : System := failCan (canShutdown x s)

def failWatchdog (s : System) : System := failMqtt x (mqttShutdown x (counterStop s))

def failEval (s : System) : System := failWatchdog x (uvrgwConfShutdown s)

def failMb (s : System) : System := failEval x (evalShutdown s)

def failRest (s : System) : System := failMb x (mbShutdown x s)

def failSunspec (s : System) : System := failRest x (restShutdown x s)

def failLoop (s : System) : System := failSunspec x (sunspecShutdown x s)

/-- `main`: the return code, if it returns, and what it did. -/
def main (passes : List Pass) : Option Nat × System :=
  let s : System := {}
  if !env .eventfd then (some 1, s)
  else
    let s := s.take .exitFd
    if !env .confLoad then (some 1, failConf s)
    else
      match counterStartup x env (s.take .conf) with
      | (false, s) => (some 1, failCounter s)
      | (true, s) =>
        match canStartup x env s with
        | (false, s) => (some 1, failCan s)
        | (true, s) =>
          match mqttStartup x env s with
          | (false, s) => (some 1, failMqtt x s)
          | (true, s) =>
            match uvrgwConfStartup x env (counterPublish s) with
            | (false, s) => (some 1, failWatchdog x s)
            | (true, s) =>
              match evalStartup x env s with
              | (false, s) => (some 1, failEval x s)
              | (true, s) =>
                match mbStartup x env s with
                | (false, s) => (some 1, failMb x s)
                | (true, s) =>
                  match restStartup x env s with
                  | (false, s) => (some 1, failRest x s)
                  | (true, s) =>
                    match sunspecStartup x env s with
                    | (false, s) => (some 1, failSunspec x s)
                    | (true, s) =>
                      let s := s.take .mainLoop
                      match mainLoop passes with
                      | none => (none, s)
                      | some ret => (some ret, failLoop x (s.drop .mainLoop))

end Subsystems

end Uvrgw.Main
