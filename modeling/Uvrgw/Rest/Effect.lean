import Uvrgw.Lib.Latch
import Uvrgw.Rest.Task

/-!
# One poll of a REST service

What a poll does to the connection and the log, by what the request delivers.
-/

namespace Uvrgw.Rest

open Uvrgw.Lib

variable {T : Type} (tokener : Tokener T) {curl : Curl} (arith : Arith)

/-- The documented behaviour of `json_tokener_parse_ex`. -/
structure Tokener.Streams (tokener : Tokener T) : Prop where
  nil : ∀ tok, (tokener.parseEx tok []).2.2 = .goOn
  /-- There is no value before it is complete. -/
  waiting : ∀ tok contents, (tokener.parseEx tok contents).2.2 = .goOn →
    (tokener.parseEx tok contents).2.1 = .null
  append : ∀ tok a b, tokener.parseEx tok (a ++ b) =
    if (tokener.parseEx tok a).2.2 = .goOn then tokener.parseEx (tokener.parseEx tok a).1 b
    else tokener.parseEx tok a

/-- `CURLE_WRITE_ERROR` -/
def writeError : Nat := 23

/-- The documented behaviour of `curl_easy_perform`: the chunks are written one by one, until one is not taken. -/
structure Curl.Documented (curl : Curl) : Prop where
  finished : ∀ {S : Type} (write : S → Chunk → S × Nat) data err, curl.perform write data [] err = (data, err)
  taken : ∀ {S : Type} {write : S → Chunk → S × Nat} {data data' contents},
    write data contents = (data', contents.length) →
    ∀ chunks err, curl.perform write data (contents :: chunks) err = curl.perform write data' chunks err
  refused : ∀ {S : Type} {write : S → Chunk → S × Nat} {data data' contents n}, write data contents = (data', n) →
    n ≠ contents.length → ∀ chunks err, curl.perform write data (contents :: chunks) err = (data', writeError)

/-! ## Requests -/

/-- The value in the chunks, or `none` after a parse error. -/
def document (tok : T) : List Chunk → Option Json
  | [] => some .null
  | contents :: chunks =>
    match tokener.parseEx tok contents with
    | (_, _, .error _) => none
    | (tok, json, _) => if json.isNull then document tok chunks else some json

inductive Outcome where
  | unasked
  | failed
  | received (json : Json)

def outcome : Request → Outcome
  | .noHandle | .noTokener => .unasked
  | .transfer chunks err =>
    match document tokener tokener.new chunks with
    | some json => if err = 0 ∧ json.isObject then .received json else .failed
    | none => .failed

def Outcome.json : Outcome → Option Json
  | received json => some json
  | _ => none

/-- Whether a GET failed. -/
def Outcome.isFailed : Outcome → Option Bool
  | unasked => none
  | failed => some true
  | received _ => some false

/-- A report about the GETs: `true` of a failure. -/
def Event.getReport : Event → Option Bool
  | log (.parseFailed _) | log (.performFailed _) | log .noObject => some true
  | log .receivedAgain => some false
  | _ => none

/-- A report about `valid_if`. -/
def Event.gateReport : Event → Option Bool
  | log .dataInvalid => some true
  | log .validAgain => some false
  | _ => none

/-- A report about a value. -/
def Event.valReport (i : Nat) : Event → Option Bool
  | logVal j message => if j = i then some (message ≠ .foundAgain) else none
  | _ => none

def Event.dispatch : Event → Option (Nat × Double)
  | dispVal i f => some (i, f)
  | _ => none

theorem isNull_iff {json : Json} : json.isNull = true ↔ json = .null := by
  cases json <;> simp [Json.isNull]

theorem isNull_isObject {json : Json} (h : json.isObject = true) : json.isNull = false := by
  cases json <;> first | rfl | cases h

variable {tokener}

theorem callback_ok (conn : Conn) {tok tok' : T} {json : Json} {err : TokenerError} {contents : Chunk}
    (hp : tokener.parseEx tok contents = (tok', json, err)) (herr : ∀ code, err ≠ .error code) :
    restGetJsonCallback tokener conn ⟨tok, .null⟩ contents = (conn, ⟨tok', json⟩, [], contents.length) := by
  unfold restGetJsonCallback
  rw [hp]
  cases err with
  | error code => exact absurd rfl (herr code)
  | success => rfl
  | goOn => rfl

theorem callback_error (conn : Conn) {tok tok' : T} {json : Json} {code : Nat} {contents : Chunk}
    (hp : tokener.parseEx tok contents = (tok', json, .error code)) :
    restGetJsonCallback tokener conn ⟨tok, .null⟩ contents =
      ((conn.failGet (.parseFailed code)).1, ⟨tok', json⟩, (conn.failGet (.parseFailed code)).2, 0) := by
  unfold restGetJsonCallback
  rw [hp]
  rfl

theorem perform_rest (hC : curl.Documented) (conn : Conn) {state : GetState T} (log : List Event)
    (h : state.json.isNull = false) (chunks : List Chunk) (err : Nat) :
    curl.perform (writeFunction tokener) ⟨conn, state, log⟩ chunks err = (⟨conn, state, log⟩, err) := by
  induction chunks with
  | nil => exact hC.finished ..
  | cons contents chunks ih =>
    have htaken : writeFunction tokener ⟨conn, state, log⟩ contents = (⟨conn, state, log⟩, contents.length) := by
      simp [writeFunction, restGetJsonCallback, h]
    rw [hC.taken htaken, ih]

theorem document_error {tok tok' : T} {json : Json} {code : Nat} {contents : Chunk}
    (hp : tokener.parseEx tok contents = (tok', json, .error code)) (chunks : List Chunk) :
    document tokener tok (contents :: chunks) = none := by
  rw [document, hp]

theorem document_ok {tok tok' : T} {json : Json} {err : TokenerError} {contents : Chunk}
    (hp : tokener.parseEx tok contents = (tok', json, err)) (herr : ∀ code, err ≠ .error code)
    (chunks : List Chunk) : document tokener tok (contents :: chunks) =
      if json.isNull then document tokener tok' chunks else some json := by
  rw [document, hp]
  cases err with
  | error code => exact absurd rfl (herr code)
  | success => rfl
  | goOn => rfl

/-- The requests go through the chunks as `document` does. -/
theorem perform_spec (hC : curl.Documented) (hT : tokener.Streams) (chunks : List Chunk) (err : Nat) (conn : Conn)
    (tok : T) :
    match document tokener tok chunks with
    | some json => ∃ tok', curl.perform (writeFunction tokener) ⟨conn, ⟨tok, .null⟩, []⟩ chunks err =
        (⟨conn, ⟨tok', json⟩, []⟩, err)
    | none => ∃ code state, curl.perform (writeFunction tokener) ⟨conn, ⟨tok, .null⟩, []⟩ chunks err =
        (⟨(conn.failGet (.parseFailed code)).1, state, (conn.failGet (.parseFailed code)).2⟩, writeError) := by
  induction chunks generalizing tok with
  | nil => exact ⟨tok, hC.finished ..⟩
  | cons contents chunks ih =>
    rcases hp : tokener.parseEx tok contents with ⟨tok', json, perr⟩
    by_cases herr : ∀ code, perr ≠ .error code
    · have htaken : writeFunction tokener ⟨conn, ⟨tok, .null⟩, []⟩ contents =
          (⟨conn, ⟨tok', json⟩, []⟩, contents.length) := by
        rw [writeFunction, callback_ok conn hp herr]
        rfl
      rw [document_ok hp herr, hC.taken htaken]
      by_cases hnull : json.isNull = true
      · rw [if_pos hnull, isNull_iff.mp hnull]
        exact ih tok'
      · rw [if_neg hnull, perform_rest hC conn [] (by simpa using hnull)]
        exact ⟨tok', rfl⟩
    · push Not at herr
      obtain ⟨code, rfl⟩ := herr
      -- an empty chunk would not end the transfer
      have hne : 0 ≠ contents.length := by
        intro hlen
        have hnil := hT.nil tok
        rw [← List.length_eq_zero_iff.mp hlen.symm, hp] at hnil
        cases hnil
      have hrefused : writeFunction tokener ⟨conn, ⟨tok, .null⟩, []⟩ contents =
          (⟨(conn.failGet (.parseFailed code)).1, ⟨tok', json⟩, (conn.failGet (.parseFailed code)).2⟩, 0) := by
        rw [writeFunction, callback_error conn hp]
        rfl
      rw [document_error hp]
      exact ⟨code, ⟨tok', json⟩, hC.refused hrefused hne chunks err⟩

theorem failGet_failed {conn : Conn} (h : conn.getFailed = true) (message : Message) :
    conn.failGet message = (conn, []) := if_pos h

theorem failGet_getFailed (conn : Conn) (message : Message) : (conn.failGet message).1.getFailed = true := by
  unfold Conn.failGet
  split
  · assumption
  · rfl

/-! ### `rest_get_json` -/

theorem outcome_none (err : Nat) {chunks : List Chunk} (h : document tokener tokener.new chunks = none) :
    outcome tokener (.transfer chunks err) = .failed := by
  rw [outcome, h]

theorem outcome_some (err : Nat) {chunks : List Chunk} {json : Json}
    (h : document tokener tokener.new chunks = some json) :
    outcome tokener (.transfer chunks err) = if err = 0 ∧ json.isObject then .received json else .failed := by
  rw [outcome, h]

theorem outcome_unasked {request : Request} :
    outcome tokener request = .unasked ↔ request = .noHandle ∨ request = .noTokener := by
  constructor
  · intro h
    cases request with
    | noHandle => exact .inl rfl
    | noTokener => exact .inr rfl
    | transfer chunks err =>
      cases hdoc : document tokener tokener.new chunks with
      | none =>
        rw [outcome_none err hdoc] at h
        cases h
      | some json =>
        rw [outcome_some err hdoc] at h
        split at h <;> cases h
  · rintro (rfl | rfl) <;> rfl

theorem restGetJson_unasked (conn : Conn) {request : Request} (h : outcome tokener request = .unasked) :
    ∃ message, Event.getReport (.log message) = none ∧ Event.gateReport (.log message) = none ∧
      restGetJson tokener curl conn request = (conn, .null, [.log message]) := by
  rcases outcome_unasked.mp h with rfl | rfl
  · exact ⟨.handleFailed, rfl, rfl, rfl⟩
  · exact ⟨.tokenerFailed, rfl, rfl, rfl⟩

theorem restGetJson_received (hC : curl.Documented) (hT : tokener.Streams) (conn : Conn) {request : Request}
    {json : Json} (h : outcome tokener request = .received json) :
    json.isObject = true ∧ restGetJson tokener curl conn request = (conn, json, [.get]) := by
  cases request with
  | noHandle => cases h
  | noTokener => cases h
  | transfer chunks err =>
    have hspec := perform_spec hC hT chunks err conn tokener.new
    cases hdoc : document tokener tokener.new chunks with
    | none =>
      rw [outcome_none err hdoc] at h
      cases h
    | some doc =>
      rw [outcome_some err hdoc] at h
      rw [hdoc] at hspec
      obtain ⟨tok', hspec⟩ := hspec
      split at h
      · rename_i hok
        cases h
        refine ⟨hok.2, ?_⟩
        rw [restGetJson, hspec]
        simp [hok.1, hok.2]
      · cases h

theorem restGetJson_failed (hC : curl.Documented) (hT : tokener.Streams) (conn : Conn) {request : Request}
    (h : outcome tokener request = .failed) :
    ∃ message, Event.getReport (.log message) = some true ∧
      restGetJson tokener curl conn request =
        ((conn.failGet message).1, .null, .get :: (conn.failGet message).2) := by
  cases request with
  | noHandle => cases h
  | noTokener => cases h
  | transfer chunks err =>
    have hspec := perform_spec hC hT chunks err conn tokener.new
    cases hdoc : document tokener tokener.new chunks with
    | none =>
      rw [hdoc] at hspec
      obtain ⟨code, state, hspec⟩ := hspec
      refine ⟨.parseFailed code, rfl, ?_⟩
      rw [restGetJson, hspec]
      simp [writeError, failGet_failed (failGet_getFailed conn _)]
    | some doc =>
      rw [outcome_some err hdoc] at h
      rw [hdoc] at hspec
      obtain ⟨tok', hspec⟩ := hspec
      split at h
      · cases h
      · rename_i hok
        rw [restGetJson, hspec]
        by_cases herr : err = 0
        · exact ⟨.noObject, rfl, by simp_all⟩
        · exact ⟨.performFailed err, rfl, by simp [herr]⟩

/-! ## Values -/

/-- What configuration decides about a value. -/
def Val.config (val : Val) : Val := { val with missing := false }

def isMissing (val : Val) (json : Json) : Bool := !(convert arith val (jsonPathLookup json val.path)).isOk

/-- The finite number that a document has for a value. -/
def reading (val : Val) (json : Json) : Option Double :=
  (convert arith val (jsonPathLookup json val.path)).toOption.filter (·.isfinite)

def readings (values : List Val) (idx : Nat) (json : Json) : List (Nat × Double) :=
  (values.zipIdx idx).filterMap fun x => (reading arith x.1 json).map (x.2, ·)

variable {arith}

theorem convert_config (val : Val) (node : Option Node) : convert arith val.config node = convert arith val node := by
  unfold convert
  rfl

theorem isMissing_config (val : Val) (json : Json) : isMissing arith val.config json = isMissing arith val json := by
  unfold isMissing
  rw [convert_config]
  rfl

theorem reading_config (val : Val) (json : Json) : reading arith val.config json = reading arith val json := by
  unfold reading
  rw [convert_config]
  rfl

theorem readings_config (values : List Val) (idx : Nat) (json : Json) :
    readings arith (values.map Val.config) idx json = readings arith values idx json := by
  unfold readings
  rw [List.zipIdx_map, List.filterMap_map]
  apply List.filterMap_congr
  rintro ⟨val, i⟩ -
  exact congrArg (Option.map _) (reading_config val json)

/-- An event of the value at `idx`. -/
def Event.Of (idx : Nat) : Event → Prop
  | logVal j _ | dispVal j _ => j = idx
  | _ => False

theorem Event.Of.reports {idx : Nat} {e : Event} (h : e.Of idx) :
    e.getReport = none ∧ e.gateReport = none ∧ e ≠ .get ∧ ∀ j, j ≠ idx → e.valReport j = none := by
  cases e with
  | get => cases h
  | log _ => cases h
  | logVal j message => exact ⟨rfl, rfl, by simp, fun i hi => if_neg fun hj => hi (hj.symm.trans h)⟩
  | dispVal j f => exact ⟨rfl, rfl, by simp, fun i hi => rfl⟩

theorem processVal_of (json : Json) (val : Val) (idx : Nat) : ∀ e ∈ (processVal arith json val idx).2, e.Of idx := by
  unfold processVal
  intro e he
  split at he
  · rcases List.mem_append.mp he with he | he
    · split at he
      · rw [List.mem_singleton.mp he]
        rfl
      · cases he
    · split at he
      · rw [List.mem_singleton.mp he]
        rfl
      · cases he
  · split at he
    · cases he
    · rw [List.mem_singleton.mp he]
      rfl

theorem processVal_fst (json : Json) (val : Val) (idx : Nat) :
    (processVal arith json val idx).1 = { val with missing := isMissing arith val json } := by
  unfold processVal isMissing
  split
  · rename_i f heq
    rw [heq]
    rfl
  · rename_i message heq
    rw [heq]
    split
    · cases val
      rename_i h
      cases h
      rfl
    · rfl

theorem processVal_dispatch (json : Json) (val : Val) (idx : Nat) :
    (processVal arith json val idx).2.filterMap Event.dispatch =
      ((reading arith val json).map (idx, ·)).toList := by
  unfold processVal reading
  split
  · rename_i f heq
    rw [heq, List.filterMap_append]
    have hfound :
        (if val.missing = true then [Event.logVal idx .foundAgain] else []).filterMap Event.dispatch = [] := by
      split <;> rfl
    rw [hfound, List.nil_append]
    by_cases hf : f.isfinite = true
    · simp [hf, Except.toOption, Event.dispatch, Option.filter]
    · simp [hf, Except.toOption, Option.filter]
  · rename_i message heq
    rw [heq]
    split <;> rfl

theorem convert_error {val : Val} {node : Option Node} {message : ValMessage}
    (h : convert arith val node = .error message) : message ≠ .foundAgain := by
  unfold convert at h
  split at h <;> cases h <;> simp

theorem processVal_reported (json : Json) (val : Val) (idx : Nat) :
    Reported val.missing [isMissing arith val json] (isMissing arith val json)
      ((processVal arith json val idx).2.filterMap (Event.valReport idx)) := by
  unfold processVal isMissing
  split
  · rename_i f heq
    rw [heq, List.filterMap_append]
    have hdisp : (if f.isfinite = true then [Event.dispVal idx f] else []).filterMap (Event.valReport idx) = [] := by
      split <;> rfl
    rw [hdisp, List.append_nil]
    cases hm : val.missing with
    | true => simpa [Event.valReport, Except.isOk, Except.toBool] using Reported.change Bool.false_ne_true.symm
    | false => exact Reported.same false
  · rename_i message heq
    rw [heq]
    cases hm : val.missing with
    | true => exact Reported.same true
    | false =>
      have hne := convert_error heq
      simpa [Event.valReport, hne, Except.isOk, Except.toBool] using Reported.change Bool.false_ne_true

/-! ### All values -/

theorem processVals_of (json : Json) (values : List Val) (idx : Nat) :
    ∀ e ∈ (processVals arith json values idx).2, ∃ i, idx ≤ i ∧ e.Of i := by
  induction values generalizing idx with
  | nil => simp [processVals]
  | cons val values ih =>
    intro e he
    rcases List.mem_append.mp he with he | he
    · exact ⟨idx, Nat.le_refl idx, processVal_of json val idx e he⟩
    · obtain ⟨i, hi, hof⟩ := ih (idx + 1) e he
      exact ⟨i, by omega, hof⟩

theorem processVals_fst (json : Json) (values : List Val) (idx : Nat) : (processVals arith json values idx).1 =
    values.map fun val => { val with missing := isMissing arith val json } := by
  induction values generalizing idx with
  | nil => rfl
  | cons val values ih =>
    rw [processVals, List.map_cons]
    dsimp only
    rw [processVal_fst, ih]

theorem processVals_dispatch (json : Json) (values : List Val) (idx : Nat) :
    (processVals arith json values idx).2.filterMap Event.dispatch = readings arith values idx json := by
  induction values generalizing idx with
  | nil => rfl
  | cons val values ih =>
    rw [processVals]
    dsimp only
    rw [List.filterMap_append, processVal_dispatch, ih]
    unfold readings
    rw [List.zipIdx_cons]
    cases h : reading arith val json with
    | none =>
      rw [List.filterMap_cons_none (by rw [h]; rfl)]
      rfl
    | some f =>
      rw [List.filterMap_cons_some (by rw [h]; rfl)]
      rfl

theorem processVals_reported (json : Json) {values : List Val} (idx : Nat) {k : Nat} {val : Val}
    (hval : values[k]? = some val) :
    Reported val.missing [isMissing arith val json] (isMissing arith val json)
      ((processVals arith json values idx).2.filterMap (Event.valReport (idx + k))) := by
  induction values generalizing idx k with
  | nil => cases hval
  | cons v values ih =>
    rw [processVals]
    dsimp only
    rw [List.filterMap_append]
    cases k with
    | zero =>
      obtain rfl : v = val := by simpa using hval
      have hrest : (processVals arith json values (idx + 1)).2.filterMap (Event.valReport idx) = [] := by
        apply List.filterMap_eq_nil_iff.mpr
        intro e he
        obtain ⟨i, hi, hof⟩ := processVals_of json values (idx + 1) e he
        exact hof.reports.2.2.2 idx (by omega)
      rw [Nat.add_zero, hrest, List.append_nil]
      exact processVal_reported json v idx
    | succ k =>
      have hfirst : (processVal arith json v idx).2.filterMap (Event.valReport (idx + (k + 1))) = [] := by
        apply List.filterMap_eq_nil_iff.mpr
        intro e he
        exact (processVal_of json v idx e he).reports.2.2.2 _ (by omega)
      rw [hfirst, List.nil_append, show idx + (k + 1) = idx + 1 + k by omega]
      exact ih (idx + 1) (by simpa using hval)

/-! ## The gate -/

def Conn.accepts (conn : Conn) (json : Json) : Bool := conn.validIf.all (jsonIsValid json)

/-- Whether `valid_if` rejects a document. -/
def Conn.rejects (conn : Conn) (json : Json) : Option Bool := conn.validIf.map fun path => !jsonIsValid json path

theorem gate_spec (conn : Conn) (json : Json) :
    ∃ invalid log, conn.gate json = ({ conn with invalid := invalid }, conn.accepts json, log) ∧
      Reported conn.invalid (conn.rejects json).toList invalid (log.filterMap Event.gateReport) ∧
      ∀ e ∈ log, e.getReport = none ∧ e ≠ .get ∧ (∀ i, e.valReport i = none) ∧ e.dispatch = none := by
  have hlog : ∀ message, Event.getReport (.log message) = none →
      ∀ e ∈ [Event.log message], e.getReport = none ∧ e ≠ .get ∧ (∀ i, e.valReport i = none) ∧ e.dispatch = none := by
    intro message hm e he
    rw [List.mem_singleton.mp he]
    exact ⟨hm, by simp, fun _ => rfl, rfl⟩
  obtain ⟨interval, validIf, invalid, getFailed, values, nextPoll⟩ := conn
  unfold Conn.gate Conn.accepts Conn.rejects
  cases validIf with
  | none => exact ⟨invalid, [], rfl, Reported.nil _, by simp⟩
  | some path =>
    dsimp only [Option.all_some, Option.map_some, Option.toList_some]
    cases hvalid : jsonIsValid json path <;> cases invalid
    · exact ⟨true, _, rfl, Reported.change Bool.false_ne_true, hlog _ rfl⟩
    · exact ⟨true, [], rfl, Reported.same true, by simp⟩
    · exact ⟨false, [], rfl, Reported.same false, by simp⟩
    · exact ⟨false, _, rfl, Reported.change Bool.false_ne_true.symm, hlog _ rfl⟩

/-! ## One poll -/

/-- The connection with the flags as configuration leaves them. -/
def Conn.config (conn : Conn) : Conn :=
  { conn with invalid := false, getFailed := false, values := conn.values.map Val.config, nextPoll := 0 }

def Request.performed : Request → Bool
  | transfer .. => true
  | _ => false

/-- The document whose values are used. -/
def accepted (conn : Conn) (o : Outcome) : Option Json := o.json.filter conn.accepts

def rejected (conn : Conn) (o : Outcome) : Option Bool := o.json.bind conn.rejects

/-- What an outcome does to the connection and the log. -/
structure Effect (arith : Arith) (conn : Conn) (o : Outcome) (conn' : Conn) (log : List Event) : Prop where
  config : conn'.config = conn.config
  nextPoll : conn'.nextPoll = conn.nextPoll
  get : Reported conn.getFailed o.isFailed.toList conn'.getFailed (log.filterMap Event.getReport)
  gate : Reported conn.invalid (rejected conn o).toList conn'.invalid (log.filterMap Event.gateReport)
  vals : ∀ i val, conn.values[i]? = some val → ∃ val', conn'.values[i]? = some val' ∧
    Reported val.missing ((accepted conn o).map (isMissing arith val)).toList val'.missing
      (log.filterMap (Event.valReport i))
  dispatch : log.filterMap Event.dispatch = (accepted conn o).toList.flatMap (readings arith conn.values 0)

variable (arith) in
theorem receive_eq (conn : Conn) (json : Json) :
    ∃ invalid log, Reported conn.invalid (conn.rejects json).toList invalid (log.filterMap Event.gateReport) ∧
      (∀ e ∈ log, e.getReport = none ∧ e ≠ .get ∧ (∀ i, e.valReport i = none) ∧ e.dispatch = none) ∧
      conn.receive arith json =
        ({ conn with
            getFailed := false
            invalid := invalid
            values := if conn.accepts json then (processVals arith json conn.values 0).1 else conn.values },
          (if conn.getFailed then [.log .receivedAgain] else []) ++ log ++
            if conn.accepts json then (processVals arith json conn.values 0).2 else []) := by
  obtain ⟨invalid, log, hgate, hreport, hother⟩ := gate_spec { conn with getFailed := false } json
  refine ⟨invalid, log, hreport, hother, ?_⟩
  have haccepts : Conn.accepts { conn with getFailed := false } json = conn.accepts json := rfl
  rw [haccepts] at hgate
  generalize conn.accepts json = ok at hgate ⊢
  obtain ⟨interval, validIf, wasInvalid, getFailed, values, nextPoll⟩ := conn
  unfold Conn.receive
  cases getFailed
  all_goals
    simp only [Bool.false_eq_true, if_false, if_true]
    rw [hgate]
    cases ok <;> simp

theorem values_config (values : List Val) (idx : Nat) (json : Json) :
    (processVals arith json values idx).1.map Val.config = values.map Val.config := by
  rw [processVals_fst, List.map_map]
  rfl

/-- The message that data is there again. -/
def againLog (getFailed : Bool) : List Event := if getFailed then [.log .receivedAgain] else []

theorem againLog_get (getFailed : Bool) :
    Reported getFailed [false] false ((againLog getFailed).filterMap Event.getReport) := by
  cases getFailed with
  | true => exact Reported.change Bool.false_ne_true.symm
  | false => exact Reported.same false

theorem againLog_other (getFailed : Bool) :
    ∀ e ∈ againLog getFailed, e.gateReport = none ∧ (∀ i, e.valReport i = none) ∧ e.dispatch = none := by
  intro e he
  unfold againLog at he
  split at he
  · rw [List.mem_singleton.mp he]
    exact ⟨rfl, fun _ => rfl, rfl⟩
  · cases he

variable (arith) in
theorem processVals_other (json : Json) (values : List Val) (idx : Nat) :
    ∀ e ∈ (processVals arith json values idx).2, e.getReport = none ∧ e.gateReport = none ∧ e ≠ .get := by
  intro e he
  obtain ⟨i, -, hof⟩ := processVals_of json values idx e he
  exact ⟨hof.reports.1, hof.reports.2.1, hof.reports.2.2.1⟩

theorem accepted_received (conn : Conn) (json : Json) :
    accepted conn (.received json) = if conn.accepts json then some json else none := by
  unfold accepted Outcome.json Option.filter
  rfl

theorem Effect.received (conn : Conn) (json : Json) :
    Effect arith conn (.received json) (conn.receive arith json).1 (conn.receive arith json).2 := by
  obtain ⟨invalid, log, hreport, hother, heq⟩ := receive_eq arith conn json
  change conn.receive arith json = (_, againLog conn.getFailed ++ log ++ _) at heq
  have hagain := againLog_other conn.getFailed
  have hvals := processVals_other arith json conn.values 0
  rw [heq]
  constructor
  case config =>
    unfold Conn.config
    split
    · rw [values_config]
    · rfl
  case nextPoll => rfl
  case get =>
    rw [List.filterMap_append, List.filterMap_append, List.filterMap_eq_nil_iff.mpr fun e he => (hother e he).1,
      List.append_nil]
    split
    · rw [List.filterMap_eq_nil_iff.mpr fun e he => (hvals e he).1, List.append_nil]
      exact againLog_get conn.getFailed
    · rw [List.filterMap_nil, List.append_nil, List.append_nil]
      exact againLog_get conn.getFailed
  case gate =>
    rw [List.filterMap_append, List.filterMap_append, List.filterMap_eq_nil_iff.mpr fun e he => (hagain e he).1,
      List.nil_append]
    split
    · rw [List.filterMap_eq_nil_iff.mpr fun e he => (hvals e he).2.1, List.append_nil]
      exact hreport
    · rw [List.filterMap_nil, List.append_nil, List.append_nil]
      exact hreport
  case vals =>
    intro i val hval
    rw [List.filterMap_append, List.filterMap_append, List.filterMap_eq_nil_iff.mpr fun e he => (hagain e he).2.1 i,
      List.filterMap_eq_nil_iff.mpr fun e he => (hother e he).2.2.1 i, List.nil_append, accepted_received]
    split
    · refine ⟨{ val with missing := isMissing arith val json }, ?_, ?_⟩
      · rw [processVals_fst, List.getElem?_map, hval]
        rfl
      · simpa using processVals_reported json 0 hval
    · exact ⟨val, hval, Reported.nil _⟩
  case dispatch =>
    rw [List.filterMap_append, List.filterMap_append, List.filterMap_eq_nil_iff.mpr fun e he => (hagain e he).2.2,
      List.filterMap_eq_nil_iff.mpr fun e he => (hother e he).2.2.2, List.nil_append, accepted_received]
    split
    · simpa using processVals_dispatch json conn.values 0
    · rfl

theorem Effect.failed (conn : Conn) {message : Message} (hm : Event.getReport (.log message) = some true) :
    Effect arith conn .failed (conn.failGet message).1 (conn.failGet message).2 := by
  have hgate : Event.gateReport (.log message) = none := by cases message <;> first | rfl | cases hm
  unfold Conn.failGet
  cases hf : conn.getFailed with
  | true =>
    rw [if_pos rfl]
    exact ⟨rfl, rfl, hf ▸ Reported.same true, Reported.nil _, fun i val hval => ⟨val, hval, Reported.nil _⟩, rfl⟩
  | false =>
    rw [if_neg Bool.false_ne_true]
    refine ⟨rfl, rfl, ?_, ?_, fun i val hval => ⟨val, hval, Reported.nil _⟩, rfl⟩
    · rw [hf, List.filterMap_cons_some hm]
      exact Reported.change Bool.false_ne_true
    · rw [List.filterMap_cons_none hgate]
      exact Reported.nil _

theorem Effect.unasked (conn : Conn) {message : Message} (hget : Event.getReport (.log message) = none)
    (hgate : Event.gateReport (.log message) = none) : Effect arith conn .unasked conn [.log message] := by
  refine ⟨rfl, rfl, ?_, ?_, fun i val hval => ⟨val, hval, Reported.nil _⟩, rfl⟩
  · rw [List.filterMap_cons_none hget]
    exact Reported.nil _
  · rw [List.filterMap_cons_none hgate]
    exact Reported.nil _

theorem Effect.get_cons {conn conn' : Conn} {o : Outcome} {log : List Event} (h : Effect arith conn o conn' log) :
    Effect arith conn o conn' (.get :: log) := ⟨h.config, h.nextPoll, h.get, h.gate, h.vals, h.dispatch⟩

/-- A call before `next_poll`. -/
theorem connTask_early {conn : Conn} {pass : Pass} (h : pass.now < conn.nextPoll) :
    connTask tokener curl arith conn pass = (conn, []) := if_pos h

variable (arith) in
theorem connTask_effect (hC : curl.Documented) (hT : tokener.Streams) {conn : Conn} {pass : Pass}
    (h : conn.nextPoll ≤ pass.now) :
    Effect arith { conn with nextPoll := pass.now + conn.interval } (outcome tokener pass.request)
      (connTask tokener curl arith conn pass).1 (connTask tokener curl arith conn pass).2 := by
  rw [connTask, if_neg (by omega)]
  cases ho : outcome tokener pass.request with
  | unasked =>
    obtain ⟨message, hget, hgate, heq⟩ := restGetJson_unasked _ ho
    rw [heq]
    exact Effect.unasked _ hget hgate
  | failed =>
    obtain ⟨message, hm, heq⟩ := restGetJson_failed hC hT _ ho
    rw [heq]
    exact (Effect.failed _ hm).get_cons
  | received json =>
    obtain ⟨hobject, heq⟩ := restGetJson_received hC hT _ ho
    rw [heq]
    dsimp only
    rw [isNull_isObject hobject, if_neg Bool.false_ne_true]
    exact (Effect.received _ json).get_cons

end Uvrgw.Rest
