import Uvrgw.Number
import Uvrgw.Rest.Path

/-!
# Polling a REST service (`rest.c`)

libcurl and the tokener of json-c are parameters, a request is what the service delivers. `none` and
a null are `NULL`.
-/

namespace Uvrgw.Rest

/-! ## Connections -/

structure Val where
  path : List Char
  scale : Double
  offset : Double
  missing : Bool := false

structure Conn where
  interval : Int
  validIf : Option (List Char) := none
  invalid : Bool := false
  getFailed : Bool := false
  values : List Val
  nextPoll : Int := 0

/-- `syslog` about a connection, without its URL. -/
inductive Message where
  /-- "Failed to create curl handle" -/
  | handleFailed
  /-- "Failed to create json tokener" -/
  | tokenerFailed
  /-- "Failed to parse JSON" -/
  | parseFailed (code : Nat)
  /-- "Failed to perform GET" -/
  | performFailed (err : Nat)
  /-- "No JSON object returned" -/
  | noObject
  /-- "received again" -/
  | receivedAgain
  /-- "invalid ('%s' missing or zero), values ignored" -/
  | dataInvalid
  /-- "valid again" -/
  | validAgain
  deriving DecidableEq, Repr

/-- `syslog` about a value. -/
inductive ValMessage where
  | lookupFailed
  | invalidType (type : Nat)
  | foundAgain
  deriving DecidableEq, Repr

inductive Event where
  /-- `curl_easy_perform`. -/
  | get
  | log (message : Message)
  | logVal (val : Nat) (message : ValMessage)
  /-- `uvrgw_conf_disp_val` with `valid`. -/
  | dispVal (val : Nat) (f : Double)
  deriving DecidableEq, Repr

/-! ## The request -/

/-- `tok->err`. -/
inductive TokenerError where
  | success
  | goOn
  | error (code : Nat)
  deriving DecidableEq, Repr

abbrev Chunk : Type := List (BitVec 8)

/-- `T` is what a tokener keeps between two chunks. -/
structure Tokener (T : Type) where
  /-- `json_tokener_new`. -/
  new : T
  /-- `json_tokener_parse_ex`. -/
  parseEx : T → Chunk → T × Json × TokenerError

variable {T : Type} (tokener : Tokener T)

structure GetState (T : Type) where
  tok : T
  json : Json := .null

/-- The three places that log a failed request. -/
def Conn.failGet (conn : Conn) (message : Message) : Conn × List Event :=
  if conn.getFailed then (conn, []) else ({ conn with getFailed := true }, [.log message])

def restGetJsonCallback (conn : Conn) (state : GetState T) (contents : Chunk) :
    Conn × GetState T × List Event × Nat :=
  if state.json.isNull then
    let (tok, json, err) := tokener.parseEx state.tok contents
    match err with
    | .error code =>
      let (conn, log) := conn.failGet (.parseFailed code)
      (conn, ⟨tok, json⟩, log, 0)
    | _ => (conn, ⟨tok, json⟩, [], contents.length)
  else (conn, state, [], contents.length)

/-- What `rest_get_json_callback` works on. -/
structure Transfer (T : Type) where
  conn : Conn
  state : GetState T
  log : List Event := []

def writeFunction (x : Transfer T) (contents : Chunk) : Transfer T × Nat :=
  let (conn, state, log, taken) := restGetJsonCallback tokener x.conn x.state contents
  (⟨conn, state, x.log ++ log⟩, taken)

structure Curl where
  /-- `curl_easy_perform` with a `CURLOPT_WRITEFUNCTION`, for the chunks of a body and the error behind them. -/
  perform {S : Type} (write : S → Chunk → S × Nat) (data : S) (chunks : List Chunk) (err : Nat) : S × Nat

variable (curl : Curl)

/-- What the environment makes of a request. -/
inductive Request where
  /-- `curl_easy_init` fails. -/
  | noHandle
  /-- `json_tokener_new` fails. -/
  | noTokener
  | transfer (chunks : List Chunk) (err : Nat)

def Json.isObject : Json → Bool
  | object _ => true
  | _ => false

def restGetJson (conn : Conn) : Request → Conn × Json × List Event
  | .noHandle => (conn, .null, [.log .handleFailed])
  | .noTokener => (conn, .null, [.log .tokenerFailed])
  | .transfer chunks err =>
    let (x, err) := curl.perform (writeFunction tokener) ⟨conn, ⟨tokener.new, .null⟩, []⟩ chunks err
    if err ≠ 0 then
      let (conn, log) := x.conn.failGet (.performFailed err)
      (conn, .null, .get :: x.log ++ log)
    else if x.state.json.isObject then (x.conn, x.state.json, .get :: x.log)
    else
      let (conn, log) := x.conn.failGet .noObject
      (conn, .null, .get :: x.log ++ log)

/-! ## The document -/

def jsonIsValid (json : Json) (path : List Char) : Bool :=
  match (jsonPathLookup json path).map Node.json with
  | some (.boolean b) => b
  | some (.number q) => q ≠ 0
  | some (.string s) => s ≠ []
  | _ => false

/-- The `double` arithmetic of the machine. -/
structure Arith where
  ofNumber : ℚ → Double
  mul : Double → Double → Double
  add : Double → Double → Double

variable (arith : Arith)

/-- What the `switch` of `conn_task` makes of a node: a number or what is logged. -/
def convert (val : Val) (jsonVal : Option Node) : Except ValMessage Double :=
  match jsonVal.map Node.json with
  | some (.boolean b) => .ok (.fin (if b then 1 else 0))
  | some (.number q) => .ok (arith.add (arith.mul (arith.ofNumber q) val.scale) val.offset)
  | some .null | none => .error .lookupFailed
  | some (.object _) => .error (.invalidType 4)
  | some (.array _) => .error (.invalidType 5)
  | some (.string _) => .error (.invalidType 6)

/-- The body of the loop over the values. -/
def processVal (json : Json) (val : Val) (idx : Nat) : Val × List Event :=
  match convert arith val (jsonPathLookup json val.path) with
  | .ok f =>
    ({ val with missing := false },
      (if val.missing then [.logVal idx .foundAgain] else []) ++ if f.isfinite then [.dispVal idx f] else [])
  | .error message =>
    if val.missing then (val, []) else ({ val with missing := true }, [.logVal idx message])

def processVals (json : Json) : List Val → Nat → List Val × List Event
  | [], _ => ([], [])
  | val :: values, idx =>
    let (val, log) := processVal arith json val idx
    let (values, log') := processVals json values (idx + 1)
    (val :: values, log ++ log')

/-- The check of `valid_if`: whether the values are processed. -/
def Conn.gate (conn : Conn) (json : Json) : Conn × Bool × List Event :=
  match conn.validIf with
  | none => (conn, true, [])
  | some path =>
    if jsonIsValid json path then
      if conn.invalid then ({ conn with invalid := false }, true, [.log .validAgain]) else (conn, true, [])
    else if conn.invalid then (conn, false, [])
    else ({ conn with invalid := true }, false, [.log .dataInvalid])

/-- `conn_task` once the document is there. -/
def Conn.receive (conn : Conn) (json : Json) : Conn × List Event :=
  let (conn, log) :=
    if conn.getFailed then ({ conn with getFailed := false }, [.log .receivedAgain]) else (conn, [])
  let (conn, valid, log') := conn.gate json
  if valid then
    let (values, log'') := processVals arith json conn.values 0
    ({ conn with values := values }, log ++ log' ++ log'')
  else (conn, log ++ log')

/-- One call, with its reading of the clock. -/
structure Pass where
  now : Int
  request : Request

def connTask (conn : Conn) (pass : Pass) : Conn × List Event :=
  if pass.now < conn.nextPoll then (conn, [])
  else
    let (conn, json, log) :=
      restGetJson tokener curl { conn with nextPoll := pass.now + conn.interval } pass.request
    if json.isNull then (conn, log)
    else
      let (conn, log') := conn.receive arith json
      (conn, log ++ log')

/-- The events have the time of the call they belong to. -/
def connThread (conn : Conn) : List Pass → Conn × List (Int × Event)
  | [] => (conn, [])
  | pass :: passes =>
    let (conn, log) := connTask tokener curl arith conn pass
    let (conn, log') := connThread conn passes
    (conn, log.map (pass.now, ·) ++ log')

end Uvrgw.Rest
