import Uvrgw.Mqtt.Format
import Uvrgw.Mqtt.Input

/-!
# MQTT output (`mqtt.c`)

`value_configure`, and `send_value` as the callback of a value. The calls of libmosquitto and `snprintf` are
parameters.
-/

namespace Uvrgw.Mqtt

open Uvrgw.Lib

/-! ## Configuration -/

structure ValueConf where
  title : String
  dir : Option Dir := none
  type : Option MqttType := none
  topic : Option String := none
  fmt : Option (List Char) := none
  qos : Option Int := none
  retain : Option Bool := none
  deriving DecidableEq, Repr

/-- The defaults of the connection. -/
structure Conn where
  qos : Int := 0
  retain : Bool := false
  deriving DecidableEq, Repr

/-- `MQTT_VAL_T`, as far as output goes. -/
structure OutVal where
  name : String
  dir : Dir
  type : MqttType
  topic : String
  fmt : Option (List Char)
  qos : Int
  retain : Bool
  /-- The last publish failed. -/
  sendFailed : Bool := false
  deriving DecidableEq, Repr

/-- `value_configure` up to the dispatcher, with the message of a failure. -/
def valueConfigure (conn : Conn) (cfg : ValueConf) : Except String OutVal :=
  let qos := cfg.qos.getD conn.qos
  match cfg.dir, cfg.type, cfg.topic with
  | none, _, _ => .error s!"mqtt value '{cfg.title}': dir not given."
  | _, none, _ => .error s!"mqtt value '{cfg.title}': type not given."
  | _, _, none => .error s!"mqtt value '{cfg.title}': topic not given."
  | some dir, some type, some topic =>
    if qos < 0 ∨ 2 < qos then .error s!"mqtt value '{cfg.title}': qos invalid."
    else if dir = .output ∧ type = .number ∧ cfg.fmt = none then .error s!"mqtt value '{cfg.title}': fmt not given."
    else if cfg.fmt.any (checkFmt · < 0) then
      .error s!"mqtt value '{cfg.title}' fmt must contain exactly one double conversion (%f, %e, %g)."
    else .ok {
      name := cfg.title
      dir := dir
      type := type
      topic := topic
      fmt := cfg.fmt
      qos := qos
      retain := cfg.retain.getD conn.retain }

/-! ## The callback -/

structure Publish where
  topic : String
  payload : List Char
  qos : Int
  retain : Bool
  deriving DecidableEq, Repr

/-- `MOSQ_ERR_*`. -/
inductive MosqErr where
  | success
  | noConn
  | payloadSize
  | other (code : Int)
  deriving DecidableEq, Repr

structure Env where
  /-- `none` for a negative length. -/
  snprintf : List Char → ℚ → Option (List Char)
  publish : Publish → MosqErr
  strerror : MosqErr → String

/-- The payload of a number; `none` if it does not fit into `buf`. -/
def OutVal.payload (env : Env) (val : OutVal) (f : ℚ) : Option (List Char) :=
  match val.type with
  | .switch => some (if 1 / 2 ≤ f then ['O', 'N'] else ['O', 'F', 'F'])
  | .contact => some (if 1 / 2 ≤ f then ['C', 'L', 'O', 'S', 'E', 'D'] else ['O', 'P', 'E', 'N'])
  | .number => (val.fmt.bind fun fmt => env.snprintf fmt f).filter fun buf => buf.length < bufSize

/-- The value after the callback, and what the callback does. -/
structure Sent where
  val : OutVal
  published : Option Publish
  log : List String
  ret : Int

/-- `send_value`. -/
def sendValue (env : Env) (val : OutVal) (f : ℚ) : Sent :=
  let published := (val.payload env f).map fun payload => ⟨val.topic, payload, val.qos, val.retain⟩
  let err := published.elim .payloadSize env.publish
  if err ≠ .success then
    -- without a connection the state change has been logged
    if err ≠ .noConn ∧ val.sendFailed = false then
      ⟨{ val with sendFailed := true }, published, [s!"mqtt send of '{val.topic}' failed: {env.strerror err}"], -1⟩
    else ⟨val, published, [], -1⟩
  else if val.sendFailed then
    ⟨{ val with sendFailed := false }, published, [s!"mqtt send of '{val.topic}' ok again."], 0⟩
  else ⟨val, published, [], 0⟩

/-! ## Accepted values -/

structure OutVal.Accepted (val : OutVal) : Prop where
  qos : 0 ≤ val.qos ∧ val.qos ≤ 2
  given : val.dir = .output → val.type = .number → val.fmt ≠ none
  format : ∀ fmt, val.fmt = some fmt → Format fmt

theorem valueConfigure_accepted {conn : Conn} {cfg : ValueConf} {val : OutVal}
    (h : valueConfigure conn cfg = .ok val) : val.Accepted := by
  unfold valueConfigure at h
  dsimp only at h
  split at h
  · cases h
  · cases h
  · cases h
  · split_ifs at h with hqos hgiven hfmt
    cases h
    refine ⟨by dsimp only; omega, fun hdir htype hnone => hgiven ⟨hdir, htype, hnone⟩, fun fmt heq => ?_⟩
    dsimp only at heq
    rw [heq, Option.any_some, decide_eq_true_eq] at hfmt
    exact (checkFmt_iff fmt).mp ((checkFmt_cases fmt).resolve_right (by omega))

/-- What an output of a number formats takes the number as its argument. -/
theorem OutVal.Accepted.args {val : OutVal} (h : val.Accepted) (hdir : val.dir = .output)
    (htype : val.type = .number) :
    ∃ fmt, val.fmt = some fmt ∧ Printf.args fmt = some [.double] := by
  obtain ⟨fmt, hfmt⟩ := Option.ne_none_iff_exists'.mp (h.given hdir htype)
  exact ⟨fmt, hfmt, (h.format fmt hfmt).args⟩

/-! ## What is sent -/

theorem sendValue_published (env : Env) (val : OutVal) (f : ℚ) : (sendValue env val f).published =
    (val.payload env f).map fun payload => ⟨val.topic, payload, val.qos, val.retain⟩ := by
  unfold sendValue
  dsimp only
  split_ifs <;> rfl

/-- The payload fits into `buf`. -/
theorem payload_length {env : Env} {val : OutVal} {f : ℚ} {payload : List Char}
    (h : val.payload env f = some payload) : payload.length < bufSize := by
  unfold OutVal.payload at h
  cases htype : val.type with
  | number =>
    rw [htype] at h
    simpa using (Option.filter_eq_some_iff.mp h).2
  | switch | contact =>
    rw [htype] at h
    dsimp only at h
    split at h <;> cases h <;> decide

end Uvrgw.Mqtt
