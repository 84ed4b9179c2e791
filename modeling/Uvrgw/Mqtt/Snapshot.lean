import Uvrgw.Lib.Decimal
import Uvrgw.Lib.Json

/-!
# The text of a snapshot (`mqtt_logger.c`)

`build_json` with its buffer. The numbers, their product and `printf("%.15g")` are those of the C library.
-/

namespace Uvrgw.Mqtt

open Uvrgw.Lib

/-! ## Configuration -/

structure Floats where
  Float : Type
  mul : Float → Float → Float
  isfinite : Float → Bool
  /-- `printf("%.15g")`. -/
  g15 : Float → List Char

/-- The text of a finite number. -/
structure Floats.Documented (c : Floats) : Prop where
  length : ∀ f, c.isfinite f = true → (c.g15 f).length ≤ 24
  number : ∀ f, c.isfinite f = true → Json.Number (c.g15 f)

variable {F : Type}

structure LoggerValConf (F : Type) where
  title : List Char
  field : Option (List Char) := none
  scale : F

structure LoggerConf (F : Type) where
  title : List Char
  topic : Option (List Char) := none
  interval : Int := 300
  qos : Int := 1
  values : List (LoggerValConf F) := []

/-- The configured part of `MQTT_LOGGER_VAL_T`. -/
structure LoggerVal (F : Type) where
  name : List Char
  field : List Char
  scale : F

/-- The configured part of `MQTT_LOGGER_T`. -/
structure LoggerSection (F : Type) where
  name : List Char
  topic : List Char
  interval : Int
  qos : Int
  values : List (LoggerVal F)

def time : List Char := ['t', 'i', 'm', 'e']

def isFieldChar (c : Char) : Bool :=
  ('A' ≤ c && c ≤ 'Z') || ('a' ≤ c && c ≤ 'z') || ('0' ≤ c && c ≤ '9') || c == '_'

def validField (field : List Char) : Bool := field ≠ [] && field ≠ time && field.all isFieldChar

/-- `value_configure` of a logger. -/
def loggerValueConfigure (cfg : LoggerValConf F) : Option (LoggerVal F) := do
  let field := cfg.field.getD cfg.title
  guard (validField field)
  return { name := cfg.title, field := field, scale := cfg.scale }

def loggerConfigure (cfg : LoggerConf F) : Option (LoggerSection F) := do
  let topic ← cfg.topic
  guard (¬ (cfg.interval ≤ 0 ∨ Int.tmod 86400 cfg.interval ≠ 0))
  guard (¬ (cfg.qos < 0 ∨ 2 < cfg.qos))
  let values ← cfg.values.mapM loggerValueConfigure
  guard (values.length ≠ 0)
  guard (values.Pairwise fun cmp val => val.field ≠ cmp.field)
  return { name := cfg.title, topic := topic, interval := cfg.interval, qos := cfg.qos, values := values }

/-! ## Snapshots -/

/-- The variables `json` and `len` of `build_json`. -/
structure Text where
  json : List Char := []
  len : Nat := 0
  deriving DecidableEq, Repr

/-- `len += snprintf(json + len, size - len, ...)`, which leaves room for the terminating zero. -/
def Text.snprintf (size : Nat) (s : Text) (text : List Char) : Text where
  json := if s.len < size then s.json ++ text.take (size - s.len - 1) else s.json
  len := s.len + text.length

/-- `printf("%lld")`. -/
def printLld (t : Int) : List Char := (if t < 0 then ['-'] else []) ++ Nat.toDigits 10 t.natAbs

/-- `LOGGER_NUM_LEN`. -/
def loggerNumLen : Nat := 40

section Snapshot

variable (c : Floats)

/-- `num` of a finite number. -/
def numText (f : c.Float) : List Char :=
  let num := (c.g15 f).take (loggerNumLen - 1)
  if num.any (· ∈ ['.', 'e', 'E']) then num else num ++ ['.', '0']

/-- `num` of a value, with what `uvrgw_conf_get_val` gives. -/
def valueText (val : LoggerVal c.Float) (read : c.Float × Bool) : List Char :=
  let f := c.mul read.1 val.scale
  if read.2 && c.isfinite f then numText c f else ['n', 'u', 'l', 'l']

def jsonSize (values : List (LoggerVal F)) : Nat :=
  values.foldl (fun size val => size + (val.field.length + 4 + loggerNumLen)) 32

/-- `build_json`. `read i` is what `uvrgw_conf_get_val` gives for value `i`. -/
def buildJson (logger : LoggerSection c.Float) (read : Nat → c.Float × Bool) (t : Int) : Text :=
  let size := jsonSize logger.values
  let s := Text.snprintf size {} ('{' :: '"' :: time ++ '"' :: ':' :: printLld t)
  let s := logger.values.zipIdx.foldl
    (fun s (val, i) => s.snprintf size (',' :: '"' :: val.field ++ '"' :: ':' :: valueText c val (read i))) s
  s.snprintf size ['}']

end Snapshot

/-! ## The buffer is large enough -/

def pieces (c : Floats) (logger : LoggerSection c.Float) (read : Nat → c.Float × Bool) : List (List Char) :=
  logger.values.zipIdx.map fun (val, i) => ',' :: '"' :: val.field ++ '"' :: ':' :: valueText c val (read i)

theorem snprintf_fits {size : Nat} {s : Text} {text : List Char} (h : s.len + text.length < size) :
    s.snprintf size text = ⟨s.json ++ text, s.len + text.length⟩ := by
  unfold Text.snprintf
  rw [if_pos (by omega), List.take_of_length_le (by omega)]

/-- Texts that fit together are written one after the other. -/
theorem foldl_snprintf {size : Nat} (texts : List (List Char)) {s : Text}
    (h : s.len + texts.flatten.length < size) :
    texts.foldl (Text.snprintf size) s = ⟨s.json ++ texts.flatten, s.len + texts.flatten.length⟩ := by
  induction texts generalizing s with
  | nil => simp
  | cons text texts ih =>
    rw [List.flatten_cons, List.length_append] at h
    rw [List.foldl_cons, snprintf_fits (by omega), ih (by dsimp only; omega)]
    simp [Nat.add_assoc]

theorem jsonSize_eq (values : List (LoggerVal F)) :
    jsonSize values = 32 + (values.map fun val => val.field.length + 4 + loggerNumLen).sum := by
  have h : ∀ (l : List (LoggerVal F)) n, l.foldl (fun size val => size + (val.field.length + 4 + loggerNumLen)) n =
      n + (l.map fun val => val.field.length + 4 + loggerNumLen).sum := by
    intro l
    induction l with
    | nil => simp
    | cons val l ih =>
      intro n
      rw [List.foldl_cons, ih, List.map_cons, List.sum_cons]
      omega
  exact h values 32

section Texts

variable {c : Floats} (hc : c.Documented)

include hc

theorem numText_eq {f : c.Float} (hf : c.isfinite f = true) :
    numText c f = if (c.g15 f).any (· ∈ ['.', 'e', 'E']) then c.g15 f else c.g15 f ++ ['.', '0'] := by
  have hlen := hc.length f hf
  unfold numText loggerNumLen
  rw [List.take_of_length_le (by omega)]

theorem length_numText {f : c.Float} (hf : c.isfinite f = true) : (numText c f).length ≤ 26 := by
  have hlen := hc.length f hf
  rw [numText_eq hc hf]
  split
  · omega
  · rw [List.length_append]
    simp only [List.length_cons, List.length_nil]
    omega

theorem numText_float {f : c.Float} (hf : c.isfinite f = true) :
    Json.Number (numText c f) ∧ ∃ x ∈ numText c f, x ∈ ['.', 'e', 'E'] := by
  rw [numText_eq hc hf]
  split
  · rename_i hany
    obtain ⟨x, hx, hmark⟩ := List.any_eq_true.mp hany
    exact ⟨hc.number f hf, x, hx, by simpa using hmark⟩
  · rename_i hany
    have hnone : ∀ x ∈ ['.', 'e', 'E'], x ∉ c.g15 f := by
      intro x hx hmem
      exact hany (List.any_eq_true.mpr ⟨x, hmem, by simpa using hx⟩)
    refine ⟨?_, '.', by simp, by simp⟩
    exact (hc.number f hf).fraction (hnone '.' (by simp)) (hnone 'e' (by simp)) (hnone 'E' (by simp)) (by simp)
      (by simp [Json.Digits])

theorem length_valueText (val : LoggerVal c.Float) (read : c.Float × Bool) : (valueText c val read).length ≤ 26 := by
  unfold valueText
  dsimp only
  split
  · rename_i h
    exact length_numText hc (by simp at h; exact h.2)
  · decide

theorem length_pieces (logger : LoggerSection c.Float) (read : Nat → c.Float × Bool) :
    (pieces c logger read).flatten.length ≤
      (logger.values.map fun val => val.field.length + 4 + loggerNumLen).sum := by
  have h : ∀ (l : List (LoggerVal c.Float)) k, ((l.zipIdx k).map fun (val, i) =>
      ',' :: '"' :: val.field ++ '"' :: ':' :: valueText c val (read i)).flatten.length ≤
      (l.map fun val => val.field.length + 4 + loggerNumLen).sum := by
    intro l
    induction l with
    | nil => simp
    | cons val l ih =>
      intro k
      have hval := length_valueText hc val (read k)
      have hrest := ih (k + 1)
      rw [List.zipIdx_cons, List.map_cons, List.flatten_cons, List.length_append, List.map_cons, List.sum_cons]
      simp only [List.length_append, List.length_cons, loggerNumLen] at hrest ⊢
      omega
  exact h logger.values 0

end Texts

/-! ## The time -/

theorem toDigits_intPart (n : Nat) : Json.IntPart (Nat.toDigits 10 n) := by
  by_cases h0 : n = 0
  · subst h0
    exact .zero
  · have hdigits : ∀ d ∈ Nat.toDigits 10 n, d.isDigit = true := fun d hd => isDigit_toDigits hd
    have hhead : ∀ k, 0 < k → (Nat.toDigits 10 k).head? ≠ some '0' := by
      intro k
      induction k using Nat.strong_induction_on with
      | _ k ih =>
        intro hk
        by_cases hlt : k < 10
        · rw [Nat.toDigits_of_lt_base hlt]
          interval_cases k <;> decide
        · rw [Nat.toDigits_of_base_le (by omega) (by omega), List.head?_append]
          obtain ⟨d, ds, hds⟩ := List.exists_cons_of_ne_nil (Nat.toDigits_ne_nil (n := k / 10) (b := 10))
          have := ih (k / 10) (by omega) (by omega)
          rw [hds] at this ⊢
          simpa using this
    obtain ⟨d, ds, hds⟩ := List.exists_cons_of_ne_nil (Nat.toDigits_ne_nil (n := n) (b := 10))
    have hzero := hhead n (by omega)
    rw [hds] at hdigits hzero ⊢
    obtain ⟨hd, hrest⟩ := List.forall_mem_cons.mp hdigits
    exact .pos hd (by simpa using hzero) hrest

theorem printLld_number (t : Int) : Json.Number (printLld t) := by
  have hminus : (if t < 0 then ['-'] else []) = [] ∨ (if t < 0 then ['-'] else []) = ['-'] := by
    split
    · exact .inr rfl
    · exact .inl rfl
  have := Json.Number.mk hminus (toDigits_intPart t.natAbs) .none .none
  rwa [List.append_nil, List.append_nil] at this

theorem length_printLld {t : Int} (hlo : -2 ^ 63 ≤ t) (hhi : t < 2 ^ 63) : (printLld t).length ≤ 20 := by
  have hdigits : (Nat.toDigits 10 t.natAbs).length ≤ 19 := by
    rw [Nat.length_toDigits_le_iff (by omega) (by omega)]
    omega
  unfold printLld
  rw [List.length_append]
  split <;> simp only [List.length_cons, List.length_nil] <;> omega

/-! ## The members -/

theorem isFieldChar_plain {x : Char} (h : isFieldChar x = true) : Json.Plain x := by
  have hne : ∀ d, isFieldChar d = false → x ≠ d := by
    rintro d hd rfl
    rw [hd] at h
    cases h
  refine ⟨?_, hne '"' (by decide), hne '\\' (by decide)⟩
  simp only [isFieldChar, Bool.or_eq_true, Bool.and_eq_true, decide_eq_true_eq, beq_iff_eq, Char.le_def,
    UInt32.le_iff_toNat_le] at h
  have hA : 'A'.val.toNat = 65 := rfl
  have ha : 'a'.val.toNat = 97 := rfl
  have h0 : '0'.val.toNat = 48 := rfl
  unfold Char.toNat
  rcases h with ((h | h) | h) | rfl
  · omega
  · omega
  · omega
  · decide

/-- An accepted field can be written as it is, and is not the time. -/
structure FieldOk (field : List Char) : Prop where
  plain : ∀ x ∈ field, Json.Plain x
  ne : field ≠ time

structure LoggerAccepted (logger : LoggerSection F) : Prop where
  field : ∀ val ∈ logger.values, FieldOk val.field
  unique : (logger.values.map LoggerVal.field).Nodup

theorem loggerConfigure_accepted {cfg : LoggerConf F} {logger : LoggerSection F}
    (h : loggerConfigure cfg = some logger) : LoggerAccepted logger := by
  simp only [loggerConfigure, Option.bind_eq_bind, Option.bind_eq_some_iff, Option.pure_def, Option.guard_eq_some',
    Option.some.injEq] at h
  obtain ⟨topic, -, -, -, -, -, values, hvalues, -, -, -, hunique, rfl⟩ := h
  refine ⟨fun val hval => ?_, ?_⟩
  · obtain ⟨cfg', -, hcfg⟩ := mem_of_mapM hvalues hval
    simp only [loggerValueConfigure, Option.bind_eq_bind, Option.bind_eq_some_iff, Option.pure_def,
      Option.guard_eq_some', Option.some.injEq] at hcfg
    obtain ⟨-, hfield, rfl⟩ := hcfg
    simp only [validField, Bool.and_eq_true, decide_eq_true_eq, List.all_eq_true] at hfield
    exact ⟨fun x hx => isFieldChar_plain (hfield.2 x hx), hfield.1.2⟩
  · rw [List.Nodup, List.pairwise_map]
    exact hunique.imp fun hne heq => hne heq.symm

section Members

variable (c : Floats)

/-- The value is valid and finite after scaling. -/
def HasNumber (val : LoggerVal c.Float) (read : c.Float × Bool) : Prop :=
  read.2 = true ∧ c.isfinite (c.mul read.1 val.scale) = true

def shownValue (val : LoggerVal c.Float) (read : c.Float × Bool) : Json :=
  if read.2 && c.isfinite (c.mul read.1 val.scale) then .number (valueText c val read) else .null

def member (val : LoggerVal c.Float) (read : c.Float × Bool) : Json.Member :=
  ⟨val.field, valueText c val read, shownValue c val read⟩

def timeMember (t : Int) : Json.Member := ⟨time, printLld t, .number (printLld t)⟩

theorem timeMember_ok (t : Int) : (timeMember t).Ok :=
  ⟨by simp [timeMember, time, Json.Plain], (printLld_number t).scans⟩

variable {c}

theorem member_ok (hc : c.Documented) {val : LoggerVal c.Float} (hval : FieldOk val.field) (read : c.Float × Bool) :
    (member c val read).Ok := by
  refine ⟨hval.plain, ?_⟩
  unfold member shownValue valueText
  dsimp only
  split
  · rename_i h
    exact (numText_float hc (by simp at h; exact h.2)).1.scans
  · exact Json.scans_null

/-- What a member shows. -/
theorem shownValue_spec (hc : c.Documented) (val : LoggerVal c.Float) (read : c.Float × Bool) :
    (shownValue c val read = .null ↔ ¬ HasNumber c val read) ∧ (HasNumber c val read → ∃ text,
      shownValue c val read = .number text ∧ ∃ x ∈ text, x ∈ ['.', 'e', 'E']) := by
  unfold shownValue HasNumber valueText
  dsimp only
  by_cases h : read.2 = true ∧ c.isfinite (c.mul read.1 val.scale) = true
  · have hcond : (read.2 && c.isfinite (c.mul read.1 val.scale)) = true := by simpa using h
    rw [if_pos hcond, if_pos hcond]
    exact ⟨by simp [h], fun _ => ⟨_, rfl, (numText_float hc h.2).2⟩⟩
  · have hcond : ¬ (read.2 && c.isfinite (c.mul read.1 val.scale)) = true := by simpa using h
    rw [if_neg hcond]
    exact ⟨by simpa using h, fun h' => absurd h' h⟩

theorem buildJson_text (hc : c.Documented) (logger : LoggerSection c.Float) (read : Nat → c.Float × Bool) {t : Int}
    (hlo : -2 ^ 63 ≤ t) (hhi : t < 2 ^ 63) :
    (buildJson c logger read t).json =
        Json.objectText (timeMember t) (logger.values.zipIdx.map fun (val, i) => member c val (read i)) ∧
      (buildJson c logger read t).len = (buildJson c logger read t).json.length ∧
      (buildJson c logger read t).len < jsonSize logger.values := by
  have htime := length_printLld hlo hhi
  have hpieces := length_pieces hc logger read
  have hsize := jsonSize_eq logger.values
  have hbuild : buildJson c logger read t =
      (('{' :: '"' :: time ++ '"' :: ':' :: printLld t) :: (pieces c logger read ++ [['}']])).foldl
        (Text.snprintf (jsonSize logger.values)) {} := by
    unfold buildJson pieces
    rw [List.foldl_cons, List.foldl_append, List.foldl_map]
    rfl
  have hlen : (('{' :: '"' :: time ++ '"' :: ':' :: printLld t) :: (pieces c logger read ++ [['}']])).flatten.length <
      jsonSize logger.values := by
    rw [List.flatten_cons, List.flatten_append]
    simp only [List.length_append, List.length_cons, List.length_nil, List.flatten_cons, List.flatten_nil, time]
    omega
  rw [hbuild, foldl_snprintf _ (by simpa using hlen)]
  refine ⟨?_, by simp, by simpa using hlen⟩
  simp only [Json.objectText, Json.Member.print, Json.memberText, timeMember, pieces, List.flatMap_def, List.map_map,
    List.flatten_cons, List.flatten_append, List.flatten_nil, List.nil_append, List.append_nil]
  simp [Function.comp_def, member]

end Members

/-! ## Main result -/

/-- A value in the snapshot: `null`, or a number that no reader takes for an integer. -/
structure Shows (c : Floats) (val : LoggerVal c.Float) (read : c.Float × Bool) (v : Json) : Prop where
  null : v = .null ↔ ¬ HasNumber c val read
  float : HasNumber c val read → ∃ text, v = .number text ∧ ∃ x ∈ text, x ∈ ['.', 'e', 'E']

structure CompleteSnapshot (c : Floats) (logger : LoggerSection c.Float) (read : Nat → c.Float × Bool) (t : Int) :
    Prop where
  /-- The text with its terminating zero is within the allocated size, and nothing of it is cut off. -/
  fits : (buildJson c logger read t).len < jsonSize logger.values ∧
    (buildJson c logger read t).json.length = (buildJson c logger read t).len
  num : ∀ i val, logger.values[i]? = some val → (valueText c val (read i)).length < loggerNumLen
  parses : ∃ members,
    Json.parse (buildJson c logger read t).json = some (.object ((time, .number (printLld t)) :: members)) ∧
      members.map Prod.fst = logger.values.map LoggerVal.field ∧ (time :: members.map Prod.fst).Nodup ∧
      ∀ i val, logger.values[i]? = some val → ∃ v, members[i]? = some (val.field, v) ∧ Shows c val (read i) v

/-- **Snapshots are complete.** -/
theorem snapshot_complete (c : Floats) (hc : c.Documented) (cfg : LoggerConf c.Float) (logger : LoggerSection c.Float)
    (h : loggerConfigure cfg = some logger) (read : Nat → c.Float × Bool) (t : Int) (hlo : -2 ^ 63 ≤ t)
    (hhi : t < 2 ^ 63) : CompleteSnapshot c logger read t := by
  have hacc := loggerConfigure_accepted h
  obtain ⟨hjson, hlen, hsize⟩ := buildJson_text hc logger read hlo hhi
  refine ⟨⟨hsize, hlen.symm⟩, fun i val _ => ?_, ?_⟩
  · have := length_valueText hc val (read i)
    unfold loggerNumLen
    omega
  · have hmembers : ∀ m ∈ logger.values.zipIdx.map (fun (val, i) => member c val (read i)), m.Ok := by
      intro m hm
      obtain ⟨⟨val, i⟩, hval, rfl⟩ := List.mem_map.mp hm
      have hmem : val ∈ logger.values := by
        rw [← List.zipIdx_map_fst 0 logger.values]
        exact List.mem_map_of_mem hval
      exact member_ok hc (hacc.field val hmem) (read i)
    have hfields : ((logger.values.zipIdx.map fun (val, i) => member c val (read i)).map Json.Member.pair).map
        Prod.fst = logger.values.map LoggerVal.field := by
      conv_rhs => rw [← List.zipIdx_map_fst 0 logger.values]
      rw [List.map_map, List.map_map, List.map_map]
      rfl
    refine ⟨_, ?_, hfields, ?_, fun i val hi => ⟨shownValue c val (read i), ?_, ?_⟩⟩
    · rw [hjson]
      exact Json.parse_objectText (timeMember_ok t) hmembers
    · rw [hfields, List.nodup_cons]
      refine ⟨?_, hacc.unique⟩
      intro hin
      obtain ⟨val, hval, heq⟩ := List.mem_map.mp hin
      exact (hacc.field val hval).ne heq
    · simp [hi, member, Json.Member.pair]
    · obtain ⟨hnull, hfloat⟩ := shownValue_spec hc val (read i)
      exact ⟨hnull, hfloat⟩

/-! An integer gets a decimal point, an invalid value is `null`. -/

def exampleFloats : Floats where
  Float := Double
  mul f scale := match f, scale with
    | .fin p, .fin q => .fin (p * q)
    | _, _ => .nan
  isfinite := Double.isfinite
  g15 f := if f = .fin (5 / 2) then ['2', '.', '5'] else if f = .fin 3 then ['3'] else ['0']

theorem exampleFloats_documented : exampleFloats.Documented := by
  have hg15 : ∀ f,
      exampleFloats.g15 f = ['2', '.', '5'] ∨ exampleFloats.g15 f = ['3'] ∨ exampleFloats.g15 f = ['0'] := by
    intro f
    unfold exampleFloats
    dsimp only
    split_ifs
    · exact .inl rfl
    · exact .inr (.inl rfl)
    · exact .inr (.inr rfl)
  have hdigit : ∀ n : Int, Json.Number (printLld n) := printLld_number
  have hhalf : Json.Number (printLld 2 ++ '.' :: ['5']) :=
    (hdigit 2).fraction (by decide) (by decide) (by decide) (by decide) (by simp [Json.Digits])
  refine ⟨fun f _ => ?_, fun f _ => ?_⟩
  · rcases hg15 f with h | h | h <;> rw [h] <;> decide
  · rcases hg15 f with h | h | h <;> rw [h]
    · exact hhalf
    · exact hdigit 3
    · exact hdigit 0

def exampleLogger : LoggerConf Double where
  title := ['l']
  topic := some ['x']
  values := [
    { title := ['a'], scale := .fin 1 },
    { title := ['b'], field := some ['p', '_', '1'], scale := .fin 1 },
    { title := ['c'], scale := .fin 1 }]

def exampleReads (i : Nat) : Double × Bool :=
  if i = 0 then (.fin (5 / 2), true) else if i = 1 then (.fin 7, false) else (.fin 3, true)

theorem snapshot_complete_example : ∃ logger, loggerConfigure exampleLogger = some logger ∧
    CompleteSnapshot exampleFloats logger exampleReads 1790762700 :=
  ⟨_, (Option.some_get (by decide +kernel)).symm,
    snapshot_complete exampleFloats exampleFloats_documented exampleLogger _
    (Option.some_get _).symm exampleReads 1790762700 (by decide) (by decide)⟩

end Uvrgw.Mqtt
