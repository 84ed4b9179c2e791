import Uvrgw.Lib.Throttle
import Uvrgw.Rest.Effect

/-!
# What the polls of a REST service do

What a poll dispatches depends on its own document alone, and what is logged about a connection or a value
are the changes of its condition.
-/

namespace Uvrgw.Rest

open Uvrgw.Lib

variable {T : Type} {tokener : Tokener T} {curl : Curl} {arith : Arith}

/-! ## A tokener for one text -/

/-- A tokener that knows one text, of which `rest` is still to come. -/
def textParse (text : Chunk) (json : Json) : (contents rest : Chunk) → Chunk × Json × TokenerError
  | [], rest => (rest, .null, .goOn)
  | _ :: _, [] => ([], .null, .error 1)
  | c :: contents, b :: rest =>
    if b = c then if rest = [] then (text, json, .success) else textParse text json contents rest
    else (b :: rest, .null, .error 1)

def textTokener (text : Chunk) (json : Json) : Tokener Chunk where
  new := text
  parseEx rest contents := textParse text json contents rest

theorem textParse_append (text : Chunk) (json : Json) (a b rest : Chunk) : textParse text json (a ++ b) rest =
    if (textParse text json a rest).2.2 = .goOn then textParse text json b (textParse text json a rest).1
    else textParse text json a rest := by
  induction a generalizing rest with
  | nil => rfl
  | cons c a ih =>
    cases rest with
    | nil => rfl
    | cons d rest =>
      rw [List.cons_append, textParse, textParse]
      by_cases hd : d = c
      · rw [if_pos hd, if_pos hd]
        by_cases hrest : rest = []
        · rw [if_pos hrest, if_pos hrest]
          rfl
        · rw [if_neg hrest, if_neg hrest]
          exact ih rest
      · rw [if_neg hd, if_neg hd]
        rfl

theorem textParse_waiting (text : Chunk) (json : Json) (contents rest : Chunk)
    (h : (textParse text json contents rest).2.2 = .goOn) : (textParse text json contents rest).2.1 = .null := by
  induction contents generalizing rest with
  | nil => rfl
  | cons c contents ih =>
    cases rest with
    | nil => rfl
    | cons d rest =>
      rw [textParse] at h ⊢
      split at h
      · rename_i hd
        rw [if_pos hd]
        split at h
        · cases h
        · rename_i hrest
          rw [if_neg hrest]
          exact ih rest h
      · cases h

theorem textTokener_streams (text : Chunk) (json : Json) : (textTokener text json).Streams where
  nil _ := rfl
  waiting tok contents := textParse_waiting text json contents tok
  append tok a b := textParse_append text json a b tok

/-- Writes the chunks as they come. -/
def writeChunks {S : Type} (write : S → Chunk → S × Nat) (data : S) : List Chunk → Nat → S × Nat
  | [], err => (data, err)
  | contents :: chunks, err =>
    let (data, taken) := write data contents
    if taken = contents.length then writeChunks write data chunks err else (data, writeError)

def plainCurl : Curl where
  perform := writeChunks

theorem plainCurl_documented : plainCurl.Documented where
  finished _ _ _ := rfl
  taken h chunks err := by
    change writeChunks _ _ (_ :: chunks) err = _
    rw [writeChunks, h]
    exact if_pos rfl
  refused h hne chunks err := by
    change writeChunks _ _ (_ :: chunks) err = _
    rw [writeChunks, h]
    exact if_neg hne

def powerText : Chunk := "\x7b\"p\":5\x7d".toList.map fun c => BitVec.ofNat 8 c.toNat

def powerTokener : Tokener Chunk := textTokener powerText (.object [(['p'], .number 5)])

theorem powerTokener_streams : powerTokener.Streams := textTokener_streams _ _

/-- Exact numbers. -/
def exactArith : Arith where
  ofNumber := .fin
  mul a b := .fin (a.num * b.num)
  add a b := .fin (a.num + b.num)

def powerConn : Conn := { interval := 1000, values := [{ path := ['p'], scale := .fin 10, offset := .fin 1 }] }

/-- A poll, a call before the next one, a timeout, and the same body in two chunks. -/
def powerPasses : List Pass :=
  [⟨0, .transfer [powerText] 0⟩, ⟨100, .noHandle⟩, ⟨1000, .transfer [] 28⟩,
    ⟨2100, .transfer [powerText.take 3, powerText.drop 3] 0⟩]

/-! ## Runs -/

/-- The passes that poll. -/
def polls (conn : Conn) (passes : List Pass) : List Pass := throttle Pass.now conn.interval conn.nextPoll passes

theorem Effect.interval {conn conn' : Conn} {o : Outcome} {log : List Event} (h : Effect arith conn o conn' log) :
    conn'.interval = conn.interval := by
  have := congrArg Conn.interval h.config
  exact this

theorem polls_skip {conn : Conn} {pass : Pass} (h : pass.now < conn.nextPoll) (passes : List Pass) :
    polls conn (pass :: passes) = polls conn passes := throttle_skip h passes

variable (arith) in
theorem polls_pass (hC : curl.Documented) (hT : tokener.Streams) {conn : Conn} {pass : Pass}
    (h : conn.nextPoll ≤ pass.now) (passes : List Pass) :
    polls conn (pass :: passes) = pass :: polls (connTask tokener curl arith conn pass).1 passes := by
  have heffect := connTask_effect arith hC hT h
  unfold polls
  rw [throttle_pass h, heffect.nextPoll, heffect.interval]

variable (arith) in
/-- Induction over the polls of a run, between them nothing happens. -/
theorem polls_induction (hC : curl.Documented) (hT : tokener.Streams)
    {P : Conn → List Pass → Conn → List (Int × Event) → Prop}
    (hnil : ∀ conn, P conn [] conn [])
    (hcons : ∀ conn pass polls conn' log, conn.nextPoll ≤ pass.now →
      P (connTask tokener curl arith conn pass).1 polls conn' log →
      P conn (pass :: polls) conn' ((connTask tokener curl arith conn pass).2.map (pass.now, ·) ++ log))
    (conn : Conn) (passes : List Pass) :
    P conn (polls conn passes) (connThread tokener curl arith conn passes).1
      (connThread tokener curl arith conn passes).2 := by
  induction passes generalizing conn with
  | nil => exact hnil conn
  | cons pass passes ih =>
    rw [connThread]
    dsimp only
    by_cases h : pass.now < conn.nextPoll
    · rw [connTask_early h, polls_skip h]
      exact ih conn
    · rw [polls_pass arith hC hT (by omega)]
      exact hcons _ _ _ _ _ (by omega) (ih _)

/-- What depends on the configuration alone is the same for all polls. -/
theorem connTask_config (hC : curl.Documented) (hT : tokener.Streams) {conn : Conn} {pass : Pass}
    (h : conn.nextPoll ≤ pass.now) :
    (connTask tokener curl arith conn pass).1.config = conn.config := (connTask_effect arith hC hT h).config

theorem accepted_config (conn : Conn) (o : Outcome) : accepted conn.config o = accepted conn o := rfl

theorem rejected_config (conn : Conn) (o : Outcome) : rejected conn.config o = rejected conn o := rfl

/-- The dispatches of a run, with the times of their polls. -/
def dispatches (log : List (Int × Event)) : List (Int × Nat × Double) :=
  log.filterMap fun x => x.2.dispatch.map (x.1, ·)

/-- What of a pass matters. -/
def Pass.known (tokener : Tokener T) (pass : Pass) : Int × Outcome := (pass.now, outcome tokener pass.request)

def knownDispatches (arith : Arith) (conn : Conn) (x : Int × Outcome) : List (Int × Nat × Double) :=
  (accepted conn x.2).toList.flatMap fun json => (readings arith conn.values 0 json).map (x.1, ·)

/-- What a poll dispatches by its own document. -/
def ownDispatches (tokener : Tokener T) (arith : Arith) (conn : Conn) (pass : Pass) : List (Int × Nat × Double) :=
  knownDispatches arith conn (pass.known tokener)

theorem knownDispatches_config (arith : Arith) (conn : Conn) :
    knownDispatches arith conn.config = knownDispatches arith conn := by
  funext x
  unfold knownDispatches
  rw [accepted_config]
  congr 1
  funext json
  rw [Conn.config, readings_config]

theorem dispatches_stamp (now : Int) (log : List Event) :
    dispatches (log.map (now, ·)) = (log.filterMap Event.dispatch).map (now, ·) := by
  unfold dispatches
  rw [List.filterMap_map, List.map_filterMap]
  rfl

theorem dispatches_append (log log' : List (Int × Event)) :
    dispatches (log ++ log') = dispatches log ++ dispatches log' := List.filterMap_append

theorem dispatches_known (hC : curl.Documented) (hT : tokener.Streams) (conn : Conn) (passes : List Pass) :
    dispatches (connThread tokener curl arith conn passes).2 =
      ((polls conn passes).map (Pass.known tokener)).flatMap (knownDispatches arith conn) := by
  apply polls_induction arith hC hT (P := fun conn polls _ log =>
    dispatches log = (polls.map (Pass.known tokener)).flatMap (knownDispatches arith conn))
  · intro conn
    rfl
  · intro conn pass polls conn' log h ih
    rw [dispatches_append, ih, dispatches_stamp, (connTask_effect arith hC hT h).dispatch, List.map_cons,
      List.flatMap_cons, ← knownDispatches_config _ (connTask tokener curl arith conn pass).1,
      connTask_config hC hT h, knownDispatches_config]
    congr 1
    unfold knownDispatches
    rw [List.map_flatMap]
    rfl

/-- **Dispatches.** A run dispatches what each of its polls finds in its own document, whatever happened before. -/
theorem values_dispatched (hC : curl.Documented) (hT : tokener.Streams) (conn : Conn) (passes : List Pass) :
    dispatches (connThread tokener curl arith conn passes).2 =
      (polls conn passes).flatMap (ownDispatches tokener arith conn) := by
  rw [dispatches_known hC hT, List.flatMap_map]
  rfl

theorem values_dispatched_example :
    dispatches (connThread powerTokener plainCurl exactArith powerConn powerPasses).2 =
    [(0, 0, .fin 51), (2100, 0, .fin 51)] := by
  have hreadings : readings exactArith powerConn.values 0 (.object [(['p'], .number 5)]) = [(0, .fin 51)] := by
    have h : reading exactArith { path := ['p'], scale := .fin 10, offset := .fin 1 }
        (.object [(['p'], .number 5)]) = some (.fin 51) := by
      unfold reading jsonPathLookup
      rw [lookupRecursive_eq]
      decide +kernel
    rw [readings, powerConn, List.zipIdx_singleton, List.filterMap_cons_some (by rw [h]; rfl), List.filterMap_nil]
  have hown : ∀ now chunks, outcome powerTokener (.transfer chunks 0) = .received (.object [(['p'], .number 5)]) →
      ownDispatches powerTokener exactArith powerConn ⟨now, .transfer chunks 0⟩ = [(now, 0, .fin 51)] := by
    intro now chunks ho
    unfold ownDispatches Pass.known knownDispatches
    rw [ho]
    change List.flatMap _ [_] = _
    rw [List.flatMap_singleton, hreadings]
    rfl
  have hpolls : polls powerConn powerPasses = [⟨0, .transfer [powerText] 0⟩, ⟨1000, .transfer [] 28⟩,
      ⟨2100, .transfer [powerText.take 3, powerText.drop 3] 0⟩] := rfl
  have hfailed : ownDispatches powerTokener exactArith powerConn ⟨1000, .transfer [] 28⟩ = [] := rfl
  rw [values_dispatched plainCurl_documented powerTokener_streams, hpolls, List.flatMap_cons, List.flatMap_cons,
    List.flatMap_cons, hown 0 _ rfl, hfailed, hown 2100 _ rfl]
  rfl

theorem getElem?_config {conn conn' : Conn} (h : conn'.config = conn.config) {i : Nat} {val val' : Val}
    (hval : conn.values[i]? = some val) (hval' : conn'.values[i]? = some val') : val'.config = val.config := by
  have hvalues : conn'.values.map Val.config = conn.values.map Val.config := congrArg Conn.values h
  have hi := congrArg (·[i]?) hvalues
  simpa [List.getElem?_map, hval, hval'] using hi

theorem isMissing_congr {val val' : Val} (h : val'.config = val.config) :
    isMissing arith val' = isMissing arith val := by
  funext json
  rw [← isMissing_config val', h, isMissing_config]

/-- The reports of one kind, in the order of the log. -/
def reportsOf (report : Event → Option Bool) (log : List (Int × Event)) : List Bool := log.filterMap (report ·.2)

theorem reportsOf_append (report : Event → Option Bool) (now : Int) (log : List Event) (log' : List (Int × Event)) :
    reportsOf report (log.map (now, ·) ++ log') = log.filterMap report ++ reportsOf report log' := by
  unfold reportsOf
  rw [List.filterMap_append, List.filterMap_map]
  rfl

theorem filterMap_cons_toList {α β : Type} (f : α → Option β) (a : α) (l : List α) :
    (a :: l).filterMap f = (f a).toList ++ l.filterMap f := by
  rw [List.filterMap_cons]
  cases f a <;> rfl

/-- Whether a value is missing in a poll that uses its document. -/
def pollMissing (tokener : Tokener T) (arith : Arith) (conn : Conn) (val : Val) (pass : Pass) : Option Bool :=
  (accepted conn (outcome tokener pass.request)).map (isMissing arith val)

theorem get_reported (hC : curl.Documented) (hT : tokener.Streams) (conn : Conn) (passes : List Pass) :
    Reported conn.getFailed ((polls conn passes).filterMap fun pass => (outcome tokener pass.request).isFailed)
      (connThread tokener curl arith conn passes).1.getFailed
      (reportsOf Event.getReport (connThread tokener curl arith conn passes).2) := by
  apply polls_induction arith hC hT (P := fun conn polls conn' log =>
    Reported conn.getFailed (polls.filterMap fun pass => (outcome tokener pass.request).isFailed) conn'.getFailed
      (reportsOf Event.getReport log))
  · intro conn
    exact Reported.nil _
  · intro conn pass polls conn' log h ih
    rw [filterMap_cons_toList, reportsOf_append]
    exact (connTask_effect arith hC hT h).get.append ih

theorem gate_reported (hC : curl.Documented) (hT : tokener.Streams) (conn : Conn) (passes : List Pass) :
    Reported conn.invalid ((polls conn passes).filterMap fun pass => rejected conn (outcome tokener pass.request))
      (connThread tokener curl arith conn passes).1.invalid
      (reportsOf Event.gateReport (connThread tokener curl arith conn passes).2) := by
  apply polls_induction arith hC hT (P := fun conn polls conn' log =>
    Reported conn.invalid (polls.filterMap fun pass => rejected conn (outcome tokener pass.request)) conn'.invalid
      (reportsOf Event.gateReport log))
  · intro conn
    exact Reported.nil _
  · intro conn pass polls conn' log h ih
    rw [filterMap_cons_toList, reportsOf_append]
    have hsame : rejected (connTask tokener curl arith conn pass).1 = rejected conn := by
      funext o
      rw [← rejected_config (connTask _ _ _ _ _).1, connTask_config hC hT h, rejected_config]
    rw [hsame] at ih
    exact (connTask_effect arith hC hT h).gate.append ih

variable (arith) in
theorem val_reported (hC : curl.Documented) (hT : tokener.Streams) (conn : Conn) (passes : List Pass) (i : Nat)
    {val : Val} (hval : conn.values[i]? = some val) :
    ∃ val', (connThread tokener curl arith conn passes).1.values[i]? = some val' ∧
      Reported val.missing ((polls conn passes).filterMap (pollMissing tokener arith conn val)) val'.missing
        (reportsOf (Event.valReport i) (connThread tokener curl arith conn passes).2) := by
  revert hval val
  apply polls_induction arith hC hT (P := fun conn polls conn' log =>
    ∀ {val : Val}, conn.values[i]? = some val → ∃ val', conn'.values[i]? = some val' ∧
      Reported val.missing (polls.filterMap (pollMissing tokener arith conn val)) val'.missing
        (reportsOf (Event.valReport i) log))
  · intro conn val hval
    exact ⟨val, hval, Reported.nil _⟩
  · intro conn pass polls conn' log h ih val hval
    rw [filterMap_cons_toList, reportsOf_append]
    obtain ⟨val₁, hval₁, hfirst⟩ := (connTask_effect arith hC hT h).vals i val hval
    obtain ⟨val', hval', hrest⟩ := ih hval₁
    have hsame : pollMissing tokener arith (connTask tokener curl arith conn pass).1 val₁ =
        pollMissing tokener arith conn val := by
      funext pass'
      unfold pollMissing
      rw [← accepted_config (connTask _ _ _ _ _).1, connTask_config hC hT h, accepted_config,
        isMissing_congr (getElem?_config (connTask_config hC hT h) hval hval₁)]
    rw [hsame] at hrest
    exact ⟨val', hval', hfirst.append hrest⟩

variable (arith) in
/-- **Reports.** What a run logs about its requests, about `valid_if` and about each value are the changes of these
conditions from poll to poll. -/
theorem reported_once (hC : curl.Documented) (hT : tokener.Streams) (conn : Conn) (passes : List Pass) :
    Reported conn.getFailed ((polls conn passes).filterMap fun pass => (outcome tokener pass.request).isFailed)
        (connThread tokener curl arith conn passes).1.getFailed
        (reportsOf Event.getReport (connThread tokener curl arith conn passes).2) ∧
      Reported conn.invalid ((polls conn passes).filterMap fun pass => rejected conn (outcome tokener pass.request))
        (connThread tokener curl arith conn passes).1.invalid
        (reportsOf Event.gateReport (connThread tokener curl arith conn passes).2) ∧
      ∀ i val, conn.values[i]? = some val →
        ∃ val', (connThread tokener curl arith conn passes).1.values[i]? = some val' ∧
        Reported val.missing ((polls conn passes).filterMap (pollMissing tokener arith conn val)) val'.missing
          (reportsOf (Event.valReport i) (connThread tokener curl arith conn passes).2) :=
  ⟨get_reported hC hT conn passes, gate_reported hC hT conn passes, fun i _ => val_reported arith hC hT conn passes i⟩

theorem reported_once_example :
    reportsOf Event.getReport (connThread powerTokener plainCurl exactArith powerConn powerPasses).2 =
      [true, false] := by
  have hget := (reported_once exactArith plainCurl_documented powerTokener_streams powerConn powerPasses).1
  rw [hget.reports_eq]
  rfl

/-! ## Times of the requests -/

def getTimes (log : List (Int × Event)) : List Int := (log.filter (·.2 = .get)).map (·.1)

theorem failGet_get (conn : Conn) (message : Message) : ∀ e ∈ (conn.failGet message).2, e ≠ .get := by
  intro e he
  unfold Conn.failGet at he
  split at he
  · cases he
  · rw [List.mem_singleton.mp he]
    simp

theorem receive_get (conn : Conn) (json : Json) : ∀ e ∈ (conn.receive arith json).2, e ≠ .get := by
  obtain ⟨invalid, log, -, hother, heq⟩ := receive_eq arith conn json
  rw [heq]
  intro e he
  rcases List.mem_append.mp he with he | he
  · rcases List.mem_append.mp he with he | he
    · split at he
      · rw [List.mem_singleton.mp he]
        simp
      · cases he
    · exact (hother e he).2.1
  · split at he
    · exact (processVals_other arith json conn.values 0 e he).2.2
    · cases he

theorem filter_get_nil {log : List Event} (h : ∀ e ∈ log, e ≠ .get) : log.filter (· = .get) = [] := by
  apply List.filter_eq_nil_iff.mpr
  intro e he
  simpa using h e he

theorem performed_eq (tokener : Tokener T) (request : Request) :
    request.performed = true ↔ outcome tokener request ≠ .unasked := by
  rw [Ne, outcome_unasked]
  cases request <;> simp [Request.performed]

theorem connTask_performed (hC : curl.Documented) (hT : tokener.Streams) {conn : Conn} {pass : Pass}
    (h : conn.nextPoll ≤ pass.now) :
    (connTask tokener curl arith conn pass).2.filter (· = .get) = if pass.request.performed then [.get] else [] := by
  rw [connTask, if_neg (by omega)]
  cases ho : outcome tokener pass.request with
  | unasked =>
    obtain ⟨message, -, -, heq⟩ := restGetJson_unasked { conn with nextPoll := pass.now + conn.interval } ho
    rw [heq, if_neg fun hp => (performed_eq tokener _).mp hp ho]
    rfl
  | failed =>
    obtain ⟨message, -, heq⟩ := restGetJson_failed hC hT { conn with nextPoll := pass.now + conn.interval } ho
    rw [heq, if_pos ((performed_eq tokener _).mpr (by rw [ho]; simp))]
    exact congrArg (.get :: ·) (filter_get_nil (failGet_get _ message))
  | received json =>
    obtain ⟨hobject, heq⟩ := restGetJson_received hC hT { conn with nextPoll := pass.now + conn.interval } ho
    rw [heq, if_pos ((performed_eq tokener _).mpr (by rw [ho]; simp))]
    dsimp only
    rw [isNull_isObject hobject, if_neg Bool.false_ne_true]
    exact congrArg (.get :: ·) (filter_get_nil (receive_get _ json))

theorem getTimes_eq (hC : curl.Documented) (hT : tokener.Streams) (conn : Conn) (passes : List Pass) :
    getTimes (connThread tokener curl arith conn passes).2 =
      ((polls conn passes).filter (·.request.performed)).map Pass.now := by
  apply polls_induction arith hC hT (P := fun _ polls _ log =>
    getTimes log = (polls.filter (·.request.performed)).map Pass.now)
  · intro conn
    rfl
  · intro conn pass polls conn' log h ih
    have hstamp : ((connTask tokener curl arith conn pass).2.map (pass.now, ·)).filter (·.2 = .get) =
        ((connTask tokener curl arith conn pass).2.filter (· = .get)).map (pass.now, ·) := by
      rw [List.filter_map]
      rfl
    unfold getTimes at ih ⊢
    rw [List.filter_append, List.map_append, ih, hstamp, connTask_performed hC hT h, List.filter_cons]
    split <;> rfl

variable (arith) in
/-- **Times of the requests.** Two polls are an interval apart, and no call comes later than that after the last one
without a poll of its own. -/
theorem polls_timely (hC : curl.Documented) (hT : tokener.Streams) (conn : Conn) (hinterval : 0 < conn.interval)
    (passes : List Pass) :
    getTimes (connThread tokener curl arith conn passes).2 =
        ((polls conn passes).filter (·.request.performed)).map Pass.now ∧
      (polls conn passes).Pairwise (fun p q => p.now + conn.interval ≤ q.now) ∧
      ∀ before pass after, passes = before ++ pass :: after → pass.now < conn.nextPoll ∨
        ∃ p ∈ polls conn passes, p ∈ before ++ [pass] ∧ pass.now < p.now + conn.interval := by
  refine ⟨getTimes_eq hC hT conn passes, ?_, ?_⟩
  · have : Trans (fun p q : Pass => p.now + conn.interval ≤ q.now) (fun p q : Pass => p.now + conn.interval ≤ q.now)
        (fun p q : Pass => p.now + conn.interval ≤ q.now) := ⟨fun {p q r} hpq hqr => by omega⟩
    exact (throttle_isChain conn.nextPoll passes).2.pairwise
  · rintro before pass after rfl
    rcases @throttle_near Pass Pass.now conn.interval hinterval conn.nextPoll before pass with h | ⟨p, hp, h⟩
    · exact .inl h
    · refine .inr ⟨p, ?_, (throttle_sublist _ _).subset hp, h⟩
      rw [polls, show before ++ pass :: after = before ++ [pass] ++ after by simp, throttle_append]
      exact List.mem_append_left _ hp

theorem polls_timely_example :
    getTimes (connThread powerTokener plainCurl exactArith powerConn powerPasses).2 = [0, 1000, 2100] ∧
      ∀ before pass after, powerPasses = before ++ pass :: after → pass.now < 0 ∨
        ∃ p ∈ polls powerConn powerPasses, p ∈ before ++ [pass] ∧ pass.now < p.now + 1000 := by
  obtain ⟨htimes, -, hnear⟩ :=
    polls_timely exactArith plainCurl_documented powerTokener_streams powerConn (by decide) powerPasses
  exact ⟨htimes, hnear⟩

/-! ## Chunks -/

theorem document_congr {tok tok' : T} {a b : Chunk} (h : tokener.parseEx tok a = tokener.parseEx tok' b) :
    document tokener tok [a] = document tokener tok' [b] := by
  rw [document, document, h]

/-- A first value that is a null would not end the search. -/
def Whole (tokener : Tokener T) (tok : T) (body : Chunk) : Prop :=
  (tokener.parseEx tok body).2.2 = .success → (tokener.parseEx tok body).2.1.isNull = false

theorem document_flatten (hT : tokener.Streams) (chunks : List Chunk) {tok : T}
    (h : Whole tokener tok chunks.flatten) : document tokener tok chunks = document tokener tok [chunks.flatten] := by
  induction chunks generalizing tok with
  | nil =>
    have hnil := hT.nil tok
    rw [List.flatten_nil, document_ok rfl (by rw [hnil]; simp), hT.waiting tok [] hnil]
    rfl
  | cons contents chunks ih =>
    have happend := hT.append tok contents chunks.flatten
    rw [← List.flatten_cons] at happend
    rcases hp : tokener.parseEx tok contents with ⟨tok', json, err⟩
    rw [hp] at happend
    cases err with
    | goOn =>
      have hnull : json = .null := by
        have := hT.waiting tok contents (by rw [hp])
        rwa [hp] at this
      rw [if_pos rfl] at happend
      unfold Whole at h
      rw [happend] at h
      rw [document_ok hp (by simp), hnull, document_congr happend]
      exact ih h
    | success =>
      rw [if_neg (by simp)] at happend
      unfold Whole at h
      rw [happend] at h
      rw [document_ok hp (by simp), document_congr (happend.trans hp.symm), document_ok hp (by simp), h rfl]
      rfl
    | error code =>
      rw [if_neg (by simp)] at happend
      rw [document_error hp, document_congr (happend.trans hp.symm), document_error hp]

/-- Requests that differ in the chunks of the same body alone. -/
inductive SameBody (tokener : Tokener T) : Request → Request → Prop
  | same (request : Request) : SameBody tokener request request
  | chunks (chunks chunks' : List Chunk) (err : Nat) (h : chunks.flatten = chunks'.flatten)
      (hwhole : Whole tokener tokener.new chunks.flatten) :
      SameBody tokener (.transfer chunks err) (.transfer chunks' err)

theorem SameBody.outcome (hT : tokener.Streams) {r r' : Request} (h : SameBody tokener r r') :
    outcome tokener r = outcome tokener r' := by
  cases h with
  | same => rfl
  | chunks chunks chunks' err h hwhole =>
    have hdoc : document tokener tokener.new chunks = document tokener tokener.new chunks' := by
      rw [document_flatten hT chunks hwhole, document_flatten hT chunks' (h ▸ hwhole), h]
    cases hd : document tokener tokener.new chunks' with
    | none => rw [outcome_none err (hdoc.trans hd), outcome_none err hd]
    | some json => rw [outcome_some err (hdoc.trans hd), outcome_some err hd]

theorem polls_known (tokener : Tokener T) (conn : Conn) (passes : List Pass) :
    (polls conn passes).map (Pass.known tokener) =
      throttle Prod.fst conn.interval conn.nextPoll (passes.map (Pass.known tokener)) :=
  (@throttle_map _ Prod.fst conn.interval _ (Pass.known tokener) conn.nextPoll passes).symm

/-- **Chunks.** How the bodies are cut into chunks changes neither the dispatches nor the reports. -/
theorem chunks_irrelevant (hC : curl.Documented) (hT : tokener.Streams) (conn : Conn) {passes passes' : List Pass}
    (h : List.Forall₂ (fun p q => p.now = q.now ∧ SameBody tokener p.request q.request) passes passes') :
    dispatches (connThread tokener curl arith conn passes).2 =
      dispatches (connThread tokener curl arith conn passes').2 ∧
      (∀ report ∈ [Event.getReport, Event.gateReport],
        reportsOf report (connThread tokener curl arith conn passes).2 =
          reportsOf report (connThread tokener curl arith conn passes').2) ∧
      ∀ i < conn.values.length,
        reportsOf (Event.valReport i) (connThread tokener curl arith conn passes).2 =
          reportsOf (Event.valReport i) (connThread tokener curl arith conn passes').2 := by
  have hknown : passes.map (Pass.known tokener) = passes'.map (Pass.known tokener) := by
    induction h with
    | nil => rfl
    | cons hpq _ ih => rw [List.map_cons, List.map_cons, ih, Pass.known, Pass.known, hpq.1, hpq.2.outcome hT]
  have hpolls : (polls conn passes).map (Pass.known tokener) = (polls conn passes').map (Pass.known tokener) := by
    rw [polls_known, polls_known, hknown]
  have hmap : ∀ {β : Type} (f : Int × Outcome → Option β),
      (polls conn passes).filterMap (fun p => f (p.known tokener)) =
        (polls conn passes').filterMap fun p => f (p.known tokener) := by
    intro β f
    have := congrArg (List.filterMap f) hpolls
    rwa [List.filterMap_map, List.filterMap_map] at this
  refine ⟨?_, ?_, ?_⟩
  · rw [dispatches_known hC hT, dispatches_known hC hT, hpolls]
  · intro report hreport
    simp only [List.mem_cons, List.not_mem_nil, or_false] at hreport
    rcases hreport with rfl | rfl
    · rw [(get_reported hC hT conn passes).reports_eq, (get_reported hC hT conn passes').reports_eq]
      exact congrArg _ (hmap fun x => x.2.isFailed)
    · rw [(gate_reported hC hT conn passes).reports_eq, (gate_reported hC hT conn passes').reports_eq]
      exact congrArg _ (hmap fun x => rejected conn x.2)
  · intro i hi
    obtain ⟨_, -, hval⟩ := val_reported arith hC hT conn passes i (List.getElem?_eq_getElem hi)
    obtain ⟨_, -, hval'⟩ := val_reported arith hC hT conn passes' i (List.getElem?_eq_getElem hi)
    rw [hval.reports_eq, hval'.reports_eq]
    exact congrArg _ (hmap fun x => (accepted conn x.2).map (isMissing arith _))

theorem chunks_irrelevant_example :
    dispatches (connThread powerTokener plainCurl exactArith powerConn powerPasses).2 =
      dispatches (connThread powerTokener plainCurl exactArith powerConn
        [⟨0, .transfer [powerText] 0⟩, ⟨100, .noHandle⟩, ⟨1000, .transfer [] 28⟩,
          ⟨2100, .transfer [powerText] 0⟩]).2 := by
  exact (chunks_irrelevant plainCurl_documented powerTokener_streams powerConn
    (.cons ⟨rfl, .same _⟩ (.cons ⟨rfl, .same _⟩ (.cons ⟨rfl, .same _⟩
      (.cons ⟨rfl, .chunks _ _ 0 rfl fun _ => rfl⟩ .nil))))).1

end Uvrgw.Rest
