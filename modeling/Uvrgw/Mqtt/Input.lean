import Mathlib.Data.List.Nodup
import Uvrgw.Lib.Strtod

/-!
# MQTT input (`mqtt.c`)

`message_callback` turns the payload into a C string and looks for a value of the topic. What it dispatches is
compared with the grammars of the value types on the bytes that arrived.
-/

namespace Uvrgw.Mqtt

open Uvrgw.Lib

/-! ## The callback -/

/-- `UVRGW_CONF_MQTT_TYPE_*`. -/
inductive MqttType where
  | number
  | switch
  | contact
  deriving DecidableEq, Repr

/-- `MQTT_VAL_T`, as far as input goes. The name stands for the dispatcher. -/
structure Val where
  name : String
  dir : Dir
  type : MqttType
  topic : String
  /-- The last payload was invalid. -/
  invalid : Bool := false
  deriving DecidableEq, Repr

structure Message where
  topic : String
  payload : List (BitVec 8)
  deriving DecidableEq, Repr

def Message.payloadlen (msg : Message) : Int := msg.payload.length

/-- `sizeof(buf)`. -/
def bufSize : Int := 32

def chars (bytes : List (BitVec 8)) : List Char := bytes.map fun b => Char.ofNat b.toNat

/-- The string that starts a buffer, without its NUL. -/
def cString (buf : List (BitVec 8)) : List Char := chars (buf.takeWhile (· ≠ 0))

/-- `strcasecmp(s, t) == 0`. -/
def strcasecmp (s t : List Char) : Bool := s.map Char.toLower == t.map Char.toLower

/-- `parse_payload`; `none` for an invalid payload. -/
def parsePayload (round : ℚ → Double) (type : MqttType) (buf : List Char) : Option Double :=
  match type with
  | .switch =>
    if strcasecmp ['O', 'N'] buf then some (.fin 1)
    else if strcasecmp ['O', 'F', 'F'] buf then some (.fin 0)
    else none
  | .contact =>
    if strcasecmp ['C', 'L', 'O', 'S', 'E', 'D'] buf then some (.fin 1)
    else if strcasecmp ['O', 'P', 'E', 'N'] buf then some (.fin 0)
    else none
  | .number =>
    let (f, rest) := strtod round buf
    if rest = buf ∨ !f.isfinite then none
    else if skipSpace rest = [] then some f else none

/-- The values after the callback, what is logged and what is dispatched. -/
structure Result where
  values : List Val
  log : List String := []
  dispatched : List (String × Double) := []

/-- The body of the loop of `message_callback`, for a value of the topic. -/
def receive (round : ℚ → Double) (msg : Message) (val : Val) : Val × List String × List (String × Double) :=
  let buf := cString (msg.payload ++ [0])
  match parsePayload round val.type buf with
  | none =>
    ({ val with invalid := true },
      if val.invalid then []
      else ["mqtt value '" ++ val.name ++ "': invalid payload '" ++ String.ofList buf ++ "' on topic '" ++
        val.topic ++ "' ignored."], [])
  | some f =>
    ({ val with invalid := false },
      if val.invalid then ["mqtt value '" ++ val.name ++ "': valid payload again."] else [], [(val.name, f)])

def Message.isFor (msg : Message) (val : Val) : Bool := val.dir = .input && val.topic = msg.topic

/-- The loop of `message_callback`. -/
def searchTopic (round : ℚ → Double) (msg : Message) : List Val → Result
  | [] => { values := [] }
  | val :: values =>
    if msg.isFor val then
      let (val, log, dispatched) := receive round msg val
      { values := val :: values, log, dispatched }
    else
      let r := searchTopic round msg values
      { r with values := val :: r.values }

def messageCallback (round : ℚ → Double) (values : List Val) (msg : Message) : Result :=
  if msg.payloadlen < 0 ∨ bufSize ≤ msg.payloadlen then { values }
  else searchTopic round msg values

/-! ## Payloads -/

/-- A word of the grammar of a type, and its number. -/
inductive Denotes (round : ℚ → Double) : MqttType → List Char → Double → Prop
  | on {s : List Char} (h : IsWord ['o', 'n'] s) : Denotes round .switch s (.fin 1)
  | off {s : List Char} (h : IsWord ['o', 'f', 'f'] s) : Denotes round .switch s (.fin 0)
  | closed {s : List Char} (h : IsWord ['c', 'l', 'o', 's', 'e', 'd'] s) : Denotes round .contact s (.fin 1)
  | opened {s : List Char} (h : IsWord ['o', 'p', 'e', 'n'] s) : Denotes round .contact s (.fin 0)
  | number {s : List Char} {f : Double} (h : Padded round s f) (hf : f.isfinite = true) : Denotes round .number s f

theorem strcasecmp_eq_true {s t word : List Char} (hs : s.map Char.toLower = word) :
    strcasecmp s t = true ↔ IsWord word t := by
  unfold strcasecmp IsWord
  rw [beq_iff_eq, hs, eq_comm]

theorem twoWords_eq_some {on off wordOn wordOff s : List Char} {f : Double} (hon : on.map Char.toLower = wordOn)
    (hoff : off.map Char.toLower = wordOff) (hne : wordOn ≠ wordOff) :
    (if strcasecmp on s then some (Double.fin 1) else if strcasecmp off s then some (Double.fin 0) else none) =
      some f ↔ IsWord wordOn s ∧ .fin 1 = f ∨ IsWord wordOff s ∧ .fin 0 = f := by
  rw [← strcasecmp_eq_true hon, ← strcasecmp_eq_true hoff]
  split
  · rename_i hs
    have hs' : ¬ strcasecmp off s = true := by
      rw [strcasecmp_eq_true hoff]
      exact fun h => hne (((strcasecmp_eq_true hon).mp hs).symm.trans h)
    simp [hs, hs']
  · rename_i hs
    split <;> simp_all

theorem parsePayload_eq_some (round : ℚ → Double) (type : MqttType) (s : List Char) (f : Double) :
    parsePayload round type s = some f ↔ Denotes round type s f := by
  cases type with
  | switch =>
    refine (twoWords_eq_some rfl rfl (by decide)).trans ⟨?_, ?_⟩
    · rintro (⟨h, rfl⟩ | ⟨h, rfl⟩)
      · exact .on h
      · exact .off h
    · intro h
      cases h with
      | on h => exact .inl ⟨h, rfl⟩
      | off h => exact .inr ⟨h, rfl⟩
  | contact =>
    refine (twoWords_eq_some rfl rfl (by decide)).trans ⟨?_, ?_⟩
    · rintro (⟨h, rfl⟩ | ⟨h, rfl⟩)
      · exact .closed h
      · exact .opened h
    · intro h
      cases h with
      | closed h => exact .inl ⟨h, rfl⟩
      | opened h => exact .inr ⟨h, rfl⟩
  | number =>
    have hnum : Denotes round .number s f ↔ Padded round s f ∧ f.isfinite = true :=
      ⟨fun h => by cases h with | number h hf => exact ⟨h, hf⟩, fun h => .number h.1 h.2⟩
    rw [hnum, ← strtod_whole]
    unfold parsePayload
    obtain ⟨x, rest⟩ := strtod round s
    dsimp only
    constructor
    · intro h
      split at h
      · cases h
      rename_i hvalid
      split at h
      · rename_i hrest
        obtain rfl := Option.some.inj h
        obtain ⟨hne, hfin⟩ := not_or.mp hvalid
        exact ⟨⟨rest, rfl, hne, hrest⟩, by simpa using hfin⟩
      · cases h
    · rintro ⟨⟨rest', heq, hne, hrest⟩, hfin⟩
      obtain ⟨rfl, rfl⟩ := Prod.mk.inj heq
      rw [if_neg (by simp [hne, hfin]), if_pos hrest]

theorem parsePayload_eq_none (round : ℚ → Double) (type : MqttType) (s : List Char) :
    parsePayload round type s = none ↔ ∀ f, ¬ Denotes round type s f := by
  rw [Option.eq_none_iff_forall_ne_some]
  exact forall_congr' fun f => not_congr (parsePayload_eq_some round type s f)

theorem Denotes.no_nul {round : ℚ → Double} {type : MqttType} {s : List Char} {f : Double}
    (h : Denotes round type s f) : '\x00' ∉ s := by
  have hword : ∀ {word : List Char}, '\x00' ∉ word → IsWord word s → '\x00' ∉ s :=
    fun hnot hw hs => hnot (hw.mem hs)
  cases h with
  | on h | off h | closed h | opened h => exact hword (by decide) h
  | number h hf => exact h.no_nul

/-! ## What is dispatched -/

/-- The complete payload. -/
def Message.text (msg : Message) : List Char := chars msg.payload

/-- The payload up to its first NUL. -/
def Message.beforeNul (msg : Message) : List Char := cString msg.payload

theorem nul_mem_chars (bytes : List (BitVec 8)) : '\x00' ∈ chars bytes ↔ 0 ∈ bytes := by
  unfold chars
  rw [List.mem_map]
  constructor
  · rintro ⟨b, hb, heq⟩
    have hlt := b.isLt
    have hvalid : b.toNat.isValidChar := .inl (by omega)
    unfold Char.ofNat at heq
    rw [dif_pos hvalid] at heq
    have hzero : b.toNat = 0 := congrArg Char.toNat heq
    rwa [← BitVec.eq_of_toNat_eq (x := b) (y := 0) hzero]
  · exact fun h => ⟨0, h, rfl⟩

theorem cString_append_zero (bytes : List (BitVec 8)) : cString (bytes ++ [0]) = cString bytes := by
  unfold cString
  congr 1
  induction bytes with
  | nil => rfl
  | cons b bytes ih =>
    rw [List.cons_append, List.takeWhile_cons, List.takeWhile_cons, ih]

theorem cString_of_no_nul {bytes : List (BitVec 8)} (h : 0 ∉ bytes) : cString bytes = chars bytes := by
  unfold cString
  rw [List.takeWhile_eq_self_iff.mpr]
  intro b hb
  exact decide_eq_true fun heq => h (heq ▸ hb)

theorem receive_dispatched (round : ℚ → Double) (msg : Message) (val : Val) :
    (receive round msg val).2.2 = ((parsePayload round val.type msg.beforeNul).map (val.name, ·)).toList := by
  unfold receive Message.beforeNul
  rw [cString_append_zero]
  dsimp only
  cases parsePayload round val.type (cString msg.payload) <;> rfl

/-- Only the first value of the topic receives the message. -/
theorem messageCallback_dispatched (round : ℚ → Double) (values : List Val) {msg : Message}
    (hlen : msg.payload.length ≤ 31) :
    (messageCallback round values msg).dispatched =
      match values.filter msg.isFor with
      | [] => []
      | v :: _ => ((parsePayload round v.type msg.beforeNul).map (v.name, ·)).toList := by
  unfold messageCallback Message.payloadlen bufSize
  rw [if_neg (by omega)]
  induction values with
  | nil => rfl
  | cons val values ih =>
    unfold searchTopic
    cases hfor : msg.isFor val with
    | true =>
      rw [List.filter_cons_of_pos hfor, if_pos rfl]
      exact receive_dispatched round msg val
    | false =>
      rw [List.filter_cons_of_neg (by simp [hfor])]
      exact ih

def dispatchedFor (val : Val) (dispatched : List (String × Double)) : List Double :=
  (dispatched.filter (·.1 = val.name)).map (·.2)

/-- Every value of the topic gets the number of the complete payload, or nothing if it is no word. -/
def Exact (round : ℚ → Double) (values : List Val) (msg : Message) (dispatched : List (String × Double)) : Prop :=
  ∀ val ∈ values, msg.isFor val →
    (∀ f, Denotes round val.type msg.text f → dispatchedFor val dispatched = [f]) ∧
    ((∀ f, ¬ Denotes round val.type msg.text f) → dispatchedFor val dispatched = [])

/-- The names of the values of a section differ. -/
def Accepted (values : List Val) : Prop := (values.map (·.name)).Nodup

instance (values : List Val) : Decidable (Accepted values) := inferInstanceAs (Decidable (List.Nodup _))

/-- Of the values of the topic only the first one has the payload as a word, and the part of the payload before a
NUL is no word of it. -/
def FirstOnly (round : ℚ → Double) (values : List Val) (msg : Message) : Prop :=
  match values.filter msg.isFor with
  | [] => True
  | val :: others =>
    (∀ other ∈ others, ∀ f, ¬ Denotes round other.type msg.text f) ∧
    ('\x00' ∈ msg.text → ∀ f, ¬ Denotes round val.type msg.beforeNul f)

section Exactness

variable {round : ℚ → Double} {msg : Message}

theorem dispatchedFor_self (val : Val) (x : Option Double) :
    dispatchedFor val (x.map (val.name, ·)).toList = x.toList := by
  cases x <;> simp [dispatchedFor]

theorem dispatchedFor_other {val other : Val} (hne : other.name ≠ val.name) (x : Option Double) :
    dispatchedFor other (x.map (val.name, ·)).toList = [] := by
  cases x <;> simp [dispatchedFor, hne.symm]

theorem served_nil_iff {type : MqttType} :
    ((∀ f, Denotes round type msg.text f → ([] : List Double) = [f]) ∧
      ((∀ f, ¬ Denotes round type msg.text f) → ([] : List Double) = [])) ↔ ∀ f, ¬ Denotes round type msg.text f := by
  simp

theorem served_first_iff {type : MqttType} :
    ((∀ f, Denotes round type msg.text f → (parsePayload round type msg.beforeNul).toList = [f]) ∧
      ((∀ f, ¬ Denotes round type msg.text f) → (parsePayload round type msg.beforeNul).toList = [])) ↔
      ('\x00' ∈ msg.text → ∀ f, ¬ Denotes round type msg.beforeNul f) := by
  by_cases hnul : '\x00' ∈ msg.text
  · have hnone : ∀ f, ¬ Denotes round type msg.text f := fun f h => h.no_nul hnul
    rw [← parsePayload_eq_none round type msg.beforeNul]
    simp [hnul, hnone]
  · have htext : msg.beforeNul = msg.text := by
      unfold Message.text at hnul
      rw [nul_mem_chars] at hnul
      exact cString_of_no_nul hnul
    simp only [hnul, false_implies, iff_true]
    rw [htext]
    refine ⟨fun f h => ?_, fun h => ?_⟩
    · rw [(parsePayload_eq_some round type msg.text f).mpr h]
      rfl
    · rw [(parsePayload_eq_none round type msg.text).mpr h]
      rfl

end Exactness

/-- **Exactly what arrived is dispatched** if only the first value of the topic has the payload as a word and no NUL
hides a part of it, and else not. -/
theorem message_dispatches (round : ℚ → Double) (values : List Val) (hvalues : Accepted values) (msg : Message)
    (hlen : msg.payload.length ≤ 31) :
    Exact round values msg (messageCallback round values msg).dispatched ↔ FirstOnly round values msg := by
  have hmem : ∀ val, (val ∈ values ∧ msg.isFor val = true) ↔ val ∈ values.filter msg.isFor :=
    fun val => List.mem_filter.symm
  have hnames : ((values.filter msg.isFor).map (·.name)).Nodup :=
    List.Nodup.sublist (List.filter_sublist.map _) hvalues
  unfold Exact FirstOnly
  simp only [← and_imp, hmem]
  rw [messageCallback_dispatched round values hlen]
  cases hfilter : values.filter msg.isFor with
  | nil => simp
  | cons val others =>
    rw [hfilter, List.map_cons, List.nodup_cons, List.mem_map] at hnames
    have hother : ∀ other ∈ others, other.name ≠ val.name := fun other ho heq => hnames.1 ⟨other, ho, heq⟩
    dsimp only
    rw [List.forall_mem_cons, dispatchedFor_self, served_first_iff, and_comm]
    apply and_congr_left
    intro _
    apply forall₂_congr
    intro other ho
    rw [dispatchedFor_other (hother other ho), served_nil_iff]

/-- A number between white space, on a topic that a switch has too. -/
theorem message_dispatches_number :
    let a : Val := { name := "a", dir := .input, type := .number, topic := "t" }
    let b : Val := { name := "b", dir := .input, type := .switch, topic := "t" }
    Exact .fin [a, b] { topic := "t", payload := [32, 45, 53, 10] } [("a", .fin (-5))] := by
  intro a b
  have hdispatched : (messageCallback .fin [a, b] { topic := "t", payload := [32, 45, 53, 10] }).dispatched =
      [("a", .fin (-5))] := by decide +kernel
  rw [← hdispatched]
  refine (message_dispatches .fin [a, b] (by decide) { topic := "t", payload := [32, 45, 53, 10] } (by decide)).mpr ?_
  refine ⟨fun other ho => ?_, fun hnul => absurd hnul (by decide)⟩
  obtain rfl : other = b := List.mem_singleton.mp ho
  exact (parsePayload_eq_none ..).mp rfl

/-- A NUL after `ON`, and two values of one topic. -/
theorem hidden_payload_and_second_value :
    let a : Val := { name := "a", dir := .input, type := .switch, topic := "t" }
    let b : Val := { name := "b", dir := .input, type := .switch, topic := "t" }
    Accepted [a, b] ∧
      (¬ Exact .fin [a] { topic := "t", payload := [79, 78, 0, 120] }
        (messageCallback .fin [a] { topic := "t", payload := [79, 78, 0, 120] }).dispatched) ∧
      ¬ Exact .fin [a, b] { topic := "t", payload := [79, 78] }
        (messageCallback .fin [a, b] { topic := "t", payload := [79, 78] }).dispatched := by
  intro a b
  refine ⟨by decide, fun h => ?_, fun h => ?_⟩
  · have hnone := (h a (by decide) (by decide)).2 fun f hf => hf.no_nul (by decide)
    revert hnone
    decide
  · have hon := (h b (by decide) (by decide)).1 (.fin 1) (.on rfl)
    revert hon
    decide

end Uvrgw.Mqtt
