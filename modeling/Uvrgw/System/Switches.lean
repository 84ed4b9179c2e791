import Uvrgw.Can.Send
import Uvrgw.Mb.Image
import Uvrgw.Mb.Writes
import Uvrgw.Mqtt.Output

/-!
# The decisions of boolean outputs

Outputs of MQTT, CAN and Modbus that are linked to one name. Each acts in any run of its module.
-/

namespace Uvrgw.Switches

open Uvrgw.Lib

/-! ## Accepted outputs of a name -/

structure MqttOutput (name : String) (type : Mqtt.MqttType) where
  conn : Mqtt.Conn
  conf : Mqtt.ValueConf
  val : Mqtt.OutVal
  accepted : Mqtt.valueConfigure conn conf = .ok val
  dir_eq : val.dir = .output
  name_eq : val.name = name
  type_eq : val.type = type

structure CanOutput (name : String) (type : Can.ValType) where
  conf : Can.IfaceConf
  iface : Can.Iface
  accepted : Can.ifaceConfigure conf = some iface
  frame : Nat
  idx : Nat
  val : Can.CanVal
  found : iface.output frame idx = some val
  name_eq : val.name = name
  type_eq : val.type = type

structure BusOutput (name : String) (type : Mb.ValType) where
  conf : Mb.MasterConf
  master : Mb.Master
  accepted : Mb.masterConfigure conf = some master
  ref : Mb.Ref
  output : ref ∈ master.outputs
  val : Mb.SlaveVal
  found : master.val? ref = some val
  name_eq : val.name = name
  type_eq : val.type = type

structure Linked (name : String) where
  switch : MqttOutput name .switch
  contact : MqttOutput name .contact
  canBit : CanOutput name .bit
  coil : BusOutput name .bit
  bitmask : BusOutput name .bitmask

/-! ## What a dispatched number does -/

def MqttOutput.Publishes {name : String} {type : Mqtt.MqttType} (o : MqttOutput name type) (f : ℚ)
    (payload : List Char) : Prop :=
  ∀ env, ∃ p, (Mqtt.sendValue env o.val f).published = some p ∧ p.topic = o.val.topic ∧ p.payload = payload

/-- The bit in the data bytes after the callback. -/
def CanOutput.Sets {name : String} (o : CanOutput name .bit) (f : ℚ) (on : Bool) : Prop :=
  ∀ s t now, Reachable (Can.step o.iface) Can.Init s → Can.step o.iface s (.send o.frame o.idx f now) = some t →
    bitAt (t.frames o.frame).sendBuf o.val.pos.toNat = on

/-- All transactions for the number carry such a request. -/
def BusOutput.Requests {name : String} {type : Mb.ValType} (o : BusOutput name type) (f : ℚ)
    (P : Mb.Request → Prop) : Prop :=
  ∀ setSlave s, Reachable (Mb.step setSlave o.master) Mb.Init s →
    ∀ request result, .written o.ref f request result ∈ s.log → P request

structure Linked.Switched {name : String} (x : Linked name) (f : ℚ) (on : Bool) : Prop where
  switch : x.switch.Publishes f (if on then ['O', 'N'] else ['O', 'F', 'F'])
  contact : x.contact.Publishes f (if on then ['C', 'L', 'O', 'S', 'E', 'D'] else ['O', 'P', 'E', 'N'])
  canBit : x.canBit.Sets f on
  coil : x.coil.Requests f fun request => ∃ addr, request = .writeBit addr on
  bitmask : x.bitmask.Requests f fun request =>
    ∃ addr word, request = .writeRegister addr word ∧ word.getLsbD x.bitmask.val.bit.toNat = on

/-! ## MQTT -/

section Outputs

variable {name : String} {f : ℚ}

theorem publishes_iff {type : Mqtt.MqttType} (o : MqttOutput name type) {on off : List Char} {payload : List Char}
    (h : ∀ env, o.val.payload env f = some (if 1 / 2 ≤ f then on else off)) :
    o.Publishes f payload ↔ payload = if 1 / 2 ≤ f then on else off := by
  unfold MqttOutput.Publishes
  constructor
  · intro hp
    obtain ⟨p, hpub, -, rfl⟩ := hp ⟨fun _ _ => none, fun _ => .success, fun _ => ""⟩
    rw [Mqtt.sendValue_published, h, Option.map_some, Option.some.injEq] at hpub
    rw [← hpub]
  · rintro rfl env
    rw [Mqtt.sendValue_published, h]
    exact ⟨_, rfl, rfl, rfl⟩

theorem switch_publishes_iff (o : MqttOutput name .switch) {payload : List Char} :
    o.Publishes f payload ↔ payload = if 1 / 2 ≤ f then ['O', 'N'] else ['O', 'F', 'F'] := by
  apply publishes_iff
  intro env
  unfold Mqtt.OutVal.payload
  rw [o.type_eq]

theorem contact_publishes_iff (o : MqttOutput name .contact) {payload : List Char} :
    o.Publishes f payload ↔
      payload = if 1 / 2 ≤ f then ['C', 'L', 'O', 'S', 'E', 'D'] else ['O', 'P', 'E', 'N'] := by
  apply publishes_iff
  intro env
  unfold Mqtt.OutVal.payload
  rw [o.type_eq]

/-! ## CAN -/

theorem canOutput_inFrame (o : CanOutput name .bit) : o.val.InFrame := by
  have hfound := o.found
  simp only [Can.Iface.output, Option.bind_eq_bind, Option.bind_eq_some_iff, Option.guard_eq_some'] at hfound
  obtain ⟨frame, hframe, -, -, hval⟩ := hfound
  obtain ⟨conf, min, min', hconf⟩ :=
    Can.ifaceConfigure_value o.accepted (List.mem_of_getElem? hframe) (List.mem_of_getElem? hval)
  exact Can.valueConfigure_bit hconf o.type_eq

theorem canBit_after (o : CanOutput name .bit) {s t : Can.State} {now : Int}
    (hs : Reachable (Can.step o.iface) Can.Init s) (ht : Can.step o.iface s (.send o.frame o.idx f now) = some t) :
    bitAt (t.frames o.frame).sendBuf o.val.pos.toNat = decide (1 / 2 < f) := by
  simp only [Can.step, o.found, Option.map_some, Option.some.injEq] at ht
  subst ht
  have hcovers : o.val.Covers o.val.pos.toNat := by
    unfold Can.CanVal.Covers
    rw [o.type_eq]
  rw [Can.sendValue_sendBuf, if_pos rfl, Can.bitAt_encode (canOutput_inFrame o) f (Can.length_sendBuf hs o.frame),
    if_pos hcovers]
  unfold Can.CanVal.bitFor
  rw [o.type_eq]

theorem canBit_sets_iff (o : CanOutput name .bit) {on : Bool} : o.Sets f on ↔ on = decide (1 / 2 < f) := by
  constructor
  · intro h
    have hs : Reachable (Can.step o.iface) Can.Init {} := .of_init rfl
    have ht : Can.step o.iface {} (.send o.frame o.idx f 0) =
        some (Can.sendValue o.iface o.frame o.idx o.val f 0 {}) := by
      simp only [Can.step, o.found, Option.map_some]
    rw [← h _ _ 0 hs ht, canBit_after o hs ht]
  · rintro rfl s t now hs ht
    exact canBit_after o hs ht

/-! ## Modbus -/

theorem coil_requests (o : BusOutput name .bit) :
    o.Requests f fun request => ∃ addr, request = .writeBit addr (1 / 2 < f) := by
  intro setSlave s hs request result h
  obtain ⟨blk, v, buf, -, hv, rfl⟩ := Mb.written_request hs h
  obtain rfl : o.val = v := Option.some.inj (o.found.symm.trans hv)
  unfold Mb.SlaveVal.request
  rw [o.type_eq]
  exact ⟨_, rfl⟩

theorem busOutput_bit (o : BusOutput name .bitmask) : 0 ≤ o.val.bit ∧ o.val.bit ≤ 15 := by
  obtain ⟨blk, hblk, hget⟩ := Mb.val?_eq_some.mp o.found
  obtain ⟨slave, -, conf, -, idx, head, head', hconf⟩ := Mb.masterConfigure_block o.accepted hblk
  exact ((Mb.blockConfigure_accepted hconf).value o.val (List.mem_of_getElem? hget)).bit o.type_eq

theorem bitmask_requests (o : BusOutput name .bitmask) : o.Requests f fun request =>
    ∃ addr word, request = .writeRegister addr word ∧ word.getLsbD o.val.bit.toNat = decide (1 / 2 < f) := by
  intro setSlave s hs request result h
  obtain ⟨blk, v, buf, -, hv, rfl⟩ := Mb.written_request hs h
  obtain rfl : o.val = v := Option.some.inj (o.found.symm.trans hv)
  have hbit := busOutput_bit o
  rw [Mb.request_bitmask o.type_eq]
  refine ⟨_, _, rfl, ?_⟩
  rw [Mb.setBit_getLsbD buf hbit _ (by omega), if_pos (by omega)]

end Outputs

/-! ## All of them -/

theorem Linked.switched {name : String} (x : Linked name) {f : ℚ} {on : Bool} (hge : on = decide (1 / 2 ≤ f))
    (hgt : on = decide (1 / 2 < f)) : x.Switched f on where
  switch := by
    rw [switch_publishes_iff, hge]
    simp
  contact := by
    rw [contact_publishes_iff, hge]
    simp
  canBit := (canBit_sets_iff x.canBit).mpr hgt
  coil := hgt ▸ coil_requests x.coil
  bitmask := hgt ▸ bitmask_requests x.bitmask

/-- **All boolean outputs decide alike** about every number except the threshold itself, at which those of MQTT are
switched on and those of CAN and Modbus are switched off. -/
theorem same_decision_iff {name : String} (x : Linked name) (f : ℚ) :
    x.Switched f true ∨ x.Switched f false ↔ f ≠ 1 / 2 := by
  constructor
  · rintro (h | h) rfl
    · have := (canBit_sets_iff x.canBit).mp h.canBit
      simp at this
    · have := (switch_publishes_iff x.switch).mp h.switch
      simp at this
  · intro hne
    rcases lt_or_gt_of_ne hne with hlt | hgt
    · exact .inr (x.switched (decide_eq_false (not_le.mpr hlt)).symm (decide_eq_false (not_lt.mpr hlt.le)).symm)
    · exact .inl (x.switched (decide_eq_true hgt.le).symm (decide_eq_true hgt).symm)

/-! Outputs of the name `a`. -/

def mqttOutput (type : Mqtt.MqttType) (htype : type ≠ .number) (topic : String) : MqttOutput "a" type where
  conn := {}
  conf := { title := "a", dir := some .output, type := some type, topic := some topic }
  val := {
    name := "a"
    dir := .output
    type := type
    topic := topic
    fmt := none
    qos := 0
    retain := false }
  accepted := by
    cases type with
    | number => exact absurd rfl htype
    | switch => rfl
    | contact => rfl
  dir_eq := rfl
  name_eq := rfl
  type_eq := rfl

def exampleLinked : Linked "a" where
  switch := mqttOutput .switch (by decide) "a/switch"
  contact := mqttOutput .contact (by decide) "a/contact"
  canBit := {
    conf := _
    iface := Can.bitIface
    accepted := (Option.some_get _).symm
    frame := 0
    idx := 0
    val := ⟨"a", .bit, 0, 1, 0⟩
    found := by decide +kernel
    name_eq := rfl
    type_eq := rfl }
  coil := {
    conf := _
    master := Mb.coil
    accepted := (Option.some_get _).symm
    ref := ⟨0, 0, 0⟩
    output := by decide +kernel
    val := (Mb.coil.val? ⟨0, 0, 0⟩).get (by decide +kernel)
    found := (Option.some_get _).symm
    name_eq := by decide +kernel
    type_eq := by decide +kernel }
  bitmask := {
    conf := _
    master := Mb.oneMask
    accepted := (Option.some_get _).symm
    ref := ⟨0, 0, 0⟩
    output := by decide +kernel
    val := (Mb.oneMask.val? ⟨0, 0, 0⟩).get (by decide +kernel)
    found := (Option.some_get _).symm
    name_eq := by decide +kernel
    type_eq := by decide +kernel }

/-- At one half the switch of MQTT is on, and the bit of CAN is off. -/
theorem half_differs : exampleLinked.switch.Publishes (1 / 2) ['O', 'N'] ∧ exampleLinked.canBit.Sets (1 / 2) false ∧
    ¬ (exampleLinked.Switched (1 / 2) true ∨ exampleLinked.Switched (1 / 2) false) := by
  have hswitch : exampleLinked.switch.Publishes (1 / 2) ['O', 'N'] := by
    rw [switch_publishes_iff, if_pos (le_refl _)]
  have hcan : exampleLinked.canBit.Sets (1 / 2) false := by
    rw [canBit_sets_iff]
    simp
  refine ⟨hswitch, hcan, ?_⟩
  rintro (h | h)
  · have := ((canBit_sets_iff exampleLinked.canBit).mp h.canBit).trans ((canBit_sets_iff _).mp hcan).symm
    cases this
  · have := ((switch_publishes_iff exampleLinked.switch).mp h.switch).trans ((switch_publishes_iff _).mp hswitch).symm
    cases this

end Uvrgw.Switches
