import Uvrgw.Lib.Run
import Uvrgw.Mqtt.Input

/-!
# A connection to an MQTT broker (`mqtt.c`)

The network thread with its callbacks and `conn_stop` of the main thread. libmosquitto and the broker are a
parameter: the broker starts every session without subscriptions, a new session takes over from an old one, and the
will of a session that ends without DISCONNECT is published. Packets are sent with QoS 0, so they stay in order and
go with their session.
-/

namespace Uvrgw.Broker

open Uvrgw.Lib Uvrgw.Mqtt

/-! ## State -/

/-- A payload of the state topic. -/
inductive Payload where
  | on
  | off
  deriving DecidableEq, Repr

inductive Packet where
  /-- PUBLISH to the state topic. -/
  | state (payload : Payload)
  | subscribe (topic : String)
  | disconnect
  deriving DecidableEq, Repr

/-- A session of the broker, with the packets that are on the way to it. -/
structure Session where
  subs : List String := []
  inbox : List Packet := []
  deriving DecidableEq, Repr

/-- Where the network thread is. -/
inductive Pc where
  | idle
  /-- In `connect_callback`, before the state is published. -/
  | announcing
  /-- In `connect_callback`, with the topics that are left. -/
  | subscribing (topics : List String)
  deriving DecidableEq, Repr

/-- Where `conn_stop` is. -/
inductive Stop where
  | running
  /-- The state is published. -/
  | published
  /-- `mosquitto_disconnect` has been called. -/
  | disconnected
  deriving DecidableEq, Repr

/-- What libmosquitto and the broker show. -/
structure Side where
  /-- libmosquitto has a link, to the current session if there is one. -/
  link : Bool := false
  /-- `connect_callback` has been called for the link. -/
  acked : Bool := false
  /-- `mosquitto_disconnect` has been called. -/
  closing : Bool := false
  session : Option Session := none
  /-- What the broker has on the state topic. -/
  state : Option Payload := none
  deriving DecidableEq, Repr

/-- libmosquitto and the broker. -/
structure Net (E : Type) where
  side : E → Side
  /-- `mosquitto_publish`, `mosquitto_subscribe` and `mosquitto_disconnect`. -/
  send : List Packet → E → E
  /-- The broker accepts a connection. -/
  accept : E → Option E
  /-- `connect_callback` is called with an error. -/
  refuse : E → Option E
  /-- `connect_callback` is called with 0. -/
  connack : E → Option E
  /-- `disconnect_callback` is called. -/
  lost : E → Option E
  /-- The broker takes a packet. -/
  deliver : E → Option E
  /-- The broker ends a session without DISCONNECT. -/
  drop : E → Option E

structure State (E : Type) where
  /-- `conn->connected` -/
  connected : Bool := false
  pc : Pc := .idle
  stop : Stop := .running
  net : E
  deriving DecidableEq, Repr

/-! ## Steps -/

/-- `MQTT_CONN_T` -/
structure Conn where
  /-- Whether `state_topic` is configured. -/
  hasState : Bool
  values : List Val

/-- The topics that `connect_callback` subscribes to. -/
def Conn.inputs (conn : Conn) : List String := (conn.values.filter (·.dir = .input)).map (·.topic)

inductive Act where
  | accept
  /-- `connect_callback` with an error, which is only reported. -/
  | refuse
  /-- `connect_callback` with 0, to `conn->connected`. -/
  | connack
  | announce
  | subscribe
  /-- `disconnect_callback`. -/
  | lost
  | deliver
  | drop
  /-- `conn_stop`, to `mosquitto_publish`. -/
  | stop
  /-- `mosquitto_disconnect` of `conn_stop`. -/
  | disconnect
  deriving DecidableEq, Repr

section Machine

variable {E : Type} (net : Net E) (conn : Conn)

def announcement (payload : Payload) : List Packet := if conn.hasState then [.state payload] else []

/-- The callbacks are called by the network thread, one after the other. -/
def step (s : State E) : Act → Option (State E)
  | .accept => (net.accept s.net).map fun e => { s with net := e }
  | .refuse => if s.pc = .idle then (net.refuse s.net).map fun e => { s with net := e } else none
  | .connack =>
    if s.pc = .idle then
      (net.connack s.net).map fun e => { s with connected := true, pc := .announcing, net := e }
    else none
  | .announce =>
    if s.pc = .announcing then
      some { s with pc := .subscribing conn.inputs, net := net.send (announcement conn .on) s.net }
    else none
  | .subscribe =>
    match s.pc with
    | .subscribing (topic :: topics) =>
      some { s with pc := .subscribing topics, net := net.send [.subscribe topic] s.net }
    | .subscribing [] => some { s with pc := .idle }
    | _ => none
  | .lost =>
    if s.pc = .idle then (net.lost s.net).map fun e => { s with connected := false, net := e } else none
  | .deliver => (net.deliver s.net).map fun e => { s with net := e }
  | .drop => (net.drop s.net).map fun e => { s with net := e }
  | .stop =>
    if s.stop = .running then
      some { s with
        stop := .published
        net := if s.connected then net.send (announcement conn .off) s.net else s.net }
    else none
  | .disconnect =>
    if s.stop = .published then some { s with stop := .disconnected, net := net.send [.disconnect] s.net } else none

/-- Before `conn_startup`; the broker may have an old state, but not of a running program. -/
structure Init (s : State E) : Prop where
  fresh : s = { net := s.net }
  side : net.side s.net = { state := (net.side s.net).state }
  state : (net.side s.net).state ≠ some .on

end Machine

/-! ## What is documented -/

/-- Nothing is sent without a link. -/
def Side.send (packets : List Packet) (e : Side) : Side :=
  { e with
    closing := e.closing || packets.contains .disconnect
    session := if e.link then e.session.map fun x => { x with inbox := x.inbox ++ packets } else e.session }

/-- What the broker makes of the will of a session. -/
def will (hasWill : Bool) (state : Option Payload) : Option Payload := if hasWill then some .off else state

/-- A new session, after the end of the old one. -/
def Side.accepted (hasWill : Bool) (e : Side) : Side :=
  { e with
    link := true
    acked := false
    session := some {}
    state := if e.session.isSome then will hasWill e.state else e.state }

def Side.taken (subs : List String) (inbox : List Packet) (e : Side) : Packet → Side
  | .state payload => { e with session := some ⟨subs, inbox⟩, state := some payload }
  | .subscribe topic => { e with session := some ⟨subs ++ [topic], inbox⟩ }
  | .disconnect => { e with session := none }

/-- What libmosquitto and the broker do, where a will is set or not. -/
structure Net.Documented {E : Type} (net : Net E) (hasWill : Bool) : Prop where
  send : ∀ e packets, net.side (net.send packets e) = (net.side e).send packets
  /-- A new session is clean and takes over from an old one. -/
  accept : ∀ e e', net.accept e = some e' → (net.side e).link = false ∧ (net.side e).closing = false ∧
    net.side e' = (net.side e).accepted hasWill
  refuse : ∀ e e', net.refuse e = some e' → net.side e' = net.side e
  connack : ∀ e e', net.connack e = some e' → (net.side e).link = true ∧ (net.side e).acked = false ∧
    net.side e' = { net.side e with acked := true }
  lost : ∀ e e', net.lost e = some e' → (net.side e).link = true ∧ net.side e' = { net.side e with link := false }
  /-- Packets are taken in the order of sending. -/
  deliver : ∀ e e', net.deliver e = some e' → ∃ subs p inbox, (net.side e).session = some ⟨subs, p :: inbox⟩ ∧
    net.side e' = (net.side e).taken subs inbox p
  /-- The will is published. -/
  drop : ∀ e e', net.drop e = some e' → (net.side e).session.isSome = true ∧
    net.side e' = { net.side e with session := none, state := will hasWill (net.side e).state }

/-! ## The program and what it sees -/

/-- The state of the program with what the other side shows. -/
structure View where
  connected : Bool := false
  pc : Pc := .idle
  stop : Stop := .running
  link : Bool := false
  acked : Bool := false
  session : Option Session := none
  state : Option Payload := none
  deriving DecidableEq, Repr

def State.view {E : Type} (net : Net E) (s : State E) : View where
  connected := s.connected
  pc := s.pc
  stop := s.stop
  link := (net.side s.net).link
  acked := (net.side s.net).acked
  session := (net.side s.net).session
  state := (net.side s.net).state

def View.send (s : View) (packets : List Packet) : View :=
  if s.link then { s with session := s.session.map fun x => { x with inbox := x.inbox ++ packets } } else s

variable (conn : Conn)

/-! ## What a step can do -/

inductive Moves (s : View) : Act → View → Prop
  | accept (hlink : s.link = false) (hstop : s.stop ≠ .disconnected) : Moves s .accept
      { s with
        link := true
        acked := false
        session := some {}
        state := if s.session.isSome then will conn.hasState s.state else s.state }
  | refuse : Moves s .refuse s
  | connack (hlink : s.link = true) (hacked : s.acked = false) (hpc : s.pc = .idle) :
      Moves s .connack { s with connected := true, acked := true, pc := .announcing }
  | announce (hpc : s.pc = .announcing) :
      Moves s .announce { s.send (announcement conn .on) with pc := .subscribing conn.inputs }
  | subscribe {topic : String} {topics : List String} (hpc : s.pc = .subscribing (topic :: topics)) :
      Moves s .subscribe { s.send [.subscribe topic] with pc := .subscribing topics }
  | subscribed (hpc : s.pc = .subscribing []) : Moves s .subscribe { s with pc := .idle }
  | lost (hlink : s.link = true) (hpc : s.pc = .idle) : Moves s .lost { s with connected := false, link := false }
  | deliverState {subs : List String} {payload : Payload} {inbox : List Packet}
      (hx : s.session = some ⟨subs, .state payload :: inbox⟩) :
      Moves s .deliver { s with session := some ⟨subs, inbox⟩, state := some payload }
  | deliverSubscribe {subs : List String} {topic : String} {inbox : List Packet}
      (hx : s.session = some ⟨subs, .subscribe topic :: inbox⟩) :
      Moves s .deliver { s with session := some ⟨subs ++ [topic], inbox⟩ }
  | deliverDisconnect {subs : List String} {inbox : List Packet}
      (hx : s.session = some ⟨subs, .disconnect :: inbox⟩) : Moves s .deliver { s with session := none }
  | drop (hx : s.session.isSome = true) :
      Moves s .drop { s with session := none, state := will conn.hasState s.state }
  | stop (hstop : s.stop = .running) : Moves s .stop
      { (if s.connected then s.send (announcement conn .off) else s) with stop := .published }
  | disconnect (hstop : s.stop = .published) :
      Moves s .disconnect { s.send [.disconnect] with stop := .disconnected }

variable {conn}

section Steps

variable {E : Type} {net : Net E} {s t : State E} {a : Act}

/-- libmosquitto has been told of the end exactly if `conn_stop` is behind it. -/
def Told (net : Net E) (s : State E) : Prop := (net.side s.net).closing = true ↔ s.stop = .disconnected

theorem view_send (hnet : net.Documented conn.hasState) (s : State E) (packets : List Packet) :
    State.view net { s with net := net.send packets s.net } = (s.view net).send packets := by
  unfold State.view View.send
  rw [hnet.send]
  unfold Side.send
  dsimp only
  split <;> rfl

theorem closing_send (hnet : net.Documented conn.hasState) (e : E) {packets : List Packet}
    (hp : .disconnect ∉ packets) : (net.side (net.send packets e)).closing = (net.side e).closing := by
  rw [hnet.send]
  simp [Side.send, hp]

variable (conn) in
theorem announcement_silent (payload : Payload) : .disconnect ∉ announcement conn payload := by
  unfold announcement
  split <;> simp

/-- What a step does to the view, and that `Told` stays true. -/
theorem moves_of_step (hnet : net.Documented conn.hasState) (htold : Told net s) (h : step net conn s a = some t) :
    Moves conn (s.view net) a (t.view net) ∧ Told net t := by
  unfold Told at htold ⊢
  cases a with
  | accept =>
    obtain ⟨e, he, rfl⟩ := Option.map_eq_some_iff.mp h
    obtain ⟨hlink, hclosing, hside⟩ := hnet.accept _ _ he
    have hview : Moves conn (s.view net) .accept _ := .accept hlink fun hstop => by
      rw [htold.mpr hstop] at hclosing
      cases hclosing
    unfold State.view
    rw [hside]
    exact ⟨hview, htold⟩
  | refuse =>
    simp only [step, Option.ite_none_right_eq_some] at h
    obtain ⟨e, he, rfl⟩ := Option.map_eq_some_iff.mp h.2
    have hview : Moves conn (s.view net) .refuse _ := .refuse
    unfold State.view
    rw [hnet.refuse _ _ he]
    exact ⟨hview, htold⟩
  | connack =>
    simp only [step, Option.ite_none_right_eq_some] at h
    obtain ⟨e, he, rfl⟩ := Option.map_eq_some_iff.mp h.2
    obtain ⟨hlink, hacked, hside⟩ := hnet.connack _ _ he
    have hview : Moves conn (s.view net) .connack _ := .connack hlink hacked h.1
    unfold State.view
    rw [hside]
    exact ⟨hview, htold⟩
  | announce =>
    simp only [step, Option.ite_none_right_eq_some, Option.some.injEq] at h
    obtain ⟨hpc, rfl⟩ := h
    have hview : Moves conn (s.view net) .announce _ := .announce hpc
    rw [← view_send hnet] at hview
    rw [closing_send hnet _ (announcement_silent conn .on)]
    exact ⟨hview, htold⟩
  | subscribe =>
    simp only [step] at h
    split at h
    · rename_i hpc
      cases h
      have hview : Moves conn (s.view net) .subscribe _ := .subscribe hpc
      rw [← view_send hnet] at hview
      rw [closing_send hnet _ (by simp)]
      exact ⟨hview, htold⟩
    · rename_i hpc
      cases h
      exact ⟨.subscribed hpc, htold⟩
    · cases h
  | lost =>
    simp only [step, Option.ite_none_right_eq_some] at h
    obtain ⟨e, he, rfl⟩ := Option.map_eq_some_iff.mp h.2
    obtain ⟨hlink, hside⟩ := hnet.lost _ _ he
    have hview : Moves conn (s.view net) .lost _ := .lost hlink h.1
    unfold State.view
    rw [hside]
    exact ⟨hview, htold⟩
  | deliver =>
    obtain ⟨e, he, rfl⟩ := Option.map_eq_some_iff.mp h
    obtain ⟨subs, p, inbox, hx, hside⟩ := hnet.deliver _ _ he
    unfold State.view
    rw [hside]
    cases p with
    | state payload =>
      have hview : Moves conn (s.view net) .deliver _ := .deliverState hx
      exact ⟨hview, htold⟩
    | subscribe topic =>
      have hview : Moves conn (s.view net) .deliver _ := .deliverSubscribe hx
      exact ⟨hview, htold⟩
    | disconnect =>
      have hview : Moves conn (s.view net) .deliver _ := .deliverDisconnect hx
      exact ⟨hview, htold⟩
  | drop =>
    obtain ⟨e, he, rfl⟩ := Option.map_eq_some_iff.mp h
    obtain ⟨hx, hside⟩ := hnet.drop _ _ he
    have hview : Moves conn (s.view net) .drop _ := .drop hx
    unfold State.view
    rw [hside]
    exact ⟨hview, htold⟩
  | stop =>
    simp only [step, Option.ite_none_right_eq_some, Option.some.injEq] at h
    obtain ⟨hstop, rfl⟩ := h
    have hview : Moves conn (s.view net) .stop _ := .stop hstop
    rw [← view_send hnet] at hview
    have hsame : State.view net { s with
        stop := .published, net := if s.connected then net.send (announcement conn .off) s.net else s.net } =
        { (if s.connected then State.view net { s with net := net.send (announcement conn .off) s.net }
          else s.view net) with stop := .published } := by
      split <;> rfl
    rw [hsame]
    refine ⟨hview, ?_⟩
    dsimp only
    split
    · rw [closing_send hnet _ (announcement_silent conn .off), htold, hstop]
      decide
    · rw [htold, hstop]
      decide
  | disconnect =>
    simp only [step, Option.ite_none_right_eq_some, Option.some.injEq] at h
    obtain ⟨hstop, rfl⟩ := h
    have hview : Moves conn (s.view net) .disconnect _ := .disconnect hstop
    rw [← view_send hnet] at hview
    refine ⟨hview, ?_⟩
    rw [hnet.send]
    simp [Side.send]

end Steps

/-! ## What the broker will know -/

/-- The state topic after the packets of a session. -/
def heard (state : Option Payload) : List Packet → Option Payload
  | [] => state
  | .state payload :: inbox => heard (some payload) inbox
  | .subscribe _ :: inbox => heard state inbox
  | .disconnect :: _ => state

def Packet.topic : Packet → Option String
  | subscribe topic => some topic
  | _ => none

/-- The topics that `connect_callback` has still to subscribe to. -/
def Pc.left (conn : Conn) : Pc → List String
  | idle => []
  | announcing => conn.inputs
  | subscribing topics => topics

theorem heard_append {state : Option Payload} {inbox : List Packet} (h : .disconnect ∉ inbox)
    (packets : List Packet) : heard state (inbox ++ packets) = heard (heard state inbox) packets := by
  induction inbox generalizing state with
  | nil => rfl
  | cons p inbox ih =>
    have hrest : .disconnect ∉ inbox := fun hmem => h (List.mem_cons_of_mem p hmem)
    cases p with
    | state payload => exact ih hrest
    | subscribe topic => exact ih hrest
    | disconnect => exact absurd List.mem_cons_self h

/-- Nothing is heard after DISCONNECT. -/
theorem heard_append_of_mem {state : Option Payload} {inbox : List Packet} (h : .disconnect ∈ inbox)
    (packets : List Packet) : heard state (inbox ++ packets) = heard state inbox := by
  induction inbox generalizing state with
  | nil => cases h
  | cons p inbox ih =>
    cases p with
    | state payload => exact ih (by simpa using h)
    | subscribe topic => exact ih (by simpa using h)
    | disconnect => rfl

theorem heard_subscribe (state : Option Payload) (inbox : List Packet) (topic : String) :
    heard state (inbox ++ [.subscribe topic]) = heard state inbox := by
  by_cases h : .disconnect ∈ inbox
  · exact heard_append_of_mem h _
  · exact heard_append h _

/-! ### Sending -/

@[simp] theorem send_connected (s : View) (packets : List Packet) : (s.send packets).connected = s.connected := by
  unfold View.send
  split <;> rfl

@[simp] theorem send_pc (s : View) (packets : List Packet) : (s.send packets).pc = s.pc := by
  unfold View.send
  split <;> rfl

@[simp] theorem send_stop (s : View) (packets : List Packet) : (s.send packets).stop = s.stop := by
  unfold View.send
  split <;> rfl

@[simp] theorem send_link (s : View) (packets : List Packet) : (s.send packets).link = s.link := by
  unfold View.send
  split <;> rfl

@[simp] theorem send_acked (s : View) (packets : List Packet) : (s.send packets).acked = s.acked := by
  unfold View.send
  split <;> rfl

@[simp] theorem send_state (s : View) (packets : List Packet) : (s.send packets).state = s.state := by
  unfold View.send
  split <;> rfl

theorem send_session {s : View} {packets : List Packet} {y : Session} (h : (s.send packets).session = some y) :
    ∃ x, s.session = some x ∧ y.subs = x.subs ∧
      y.inbox = x.inbox ++ if s.link then packets else [] := by
  unfold View.send at h
  split at h
  · rename_i hlink
    obtain ⟨x, hx, rfl⟩ := Option.map_eq_some_iff.mp h
    exact ⟨x, hx, rfl, by rw [if_pos hlink]⟩
  · rename_i hlink
    exact ⟨y, h, rfl, by rw [if_neg hlink, List.append_nil]⟩

/-! ## The link and its session -/

/-- The thread is in `connect_callback` only while there is a link, and `connected` says that it has been called. -/
structure Linked (s : View) : Prop where
  pc : s.link = false ∨ s.acked = false → s.pc = .idle
  connected : s.connected = (s.link && s.acked)

theorem Linked.up {s : View} (h : Linked s) (hpc : s.pc ≠ .idle) : s.link = true ∧ s.acked = true := by
  constructor
  · by_contra hno
    exact hpc (h.pc (.inl (by simpa using hno)))
  · by_contra hno
    exact hpc (h.pc (.inr (by simpa using hno)))

theorem Linked.step {s t : View} {a : Act} (h : Linked s) (hm : Moves conn s a t) : Linked t := by
  obtain ⟨hpc, hconnected⟩ := h
  cases hm with
  | accept hlink => exact ⟨fun _ => hpc (.inl hlink), by simp [hconnected, hlink]⟩
  | refuse => exact ⟨hpc, hconnected⟩
  | connack hlink hacked hidle => exact ⟨by simp [hlink], by simp [hlink]⟩
  | announce h =>
    refine ⟨fun hd => ?_, by simpa using hconnected⟩
    rw [hpc (by simpa using hd)] at h
    cases h
  | subscribe h =>
    refine ⟨fun hd => ?_, by simpa using hconnected⟩
    rw [hpc (by simpa using hd)] at h
    cases h
  | subscribed h => exact ⟨fun _ => rfl, hconnected⟩
  | lost hlink hidle => exact ⟨fun _ => hidle, rfl⟩
  | deliverState hx => exact ⟨hpc, hconnected⟩
  | deliverSubscribe hx => exact ⟨hpc, hconnected⟩
  | deliverDisconnect hx => exact ⟨hpc, hconnected⟩
  | drop hx => exact ⟨hpc, hconnected⟩
  | stop hstop => exact ⟨by split <;> simpa using hpc, by split <;> simpa using hconnected⟩
  | disconnect hstop => exact ⟨by simpa using hpc, by simpa using hconnected⟩

/-- The topics that a session has or will have. -/
def Session.topics (x : Session) : List String := x.subs ++ x.inbox.filterMap Packet.topic

theorem send_topics {s : View} {packets : List Packet} {y : Session} (h : (s.send packets).session = some y) :
    ∃ x, s.session = some x ∧ y.topics = x.topics ++ if s.link then packets.filterMap Packet.topic else [] := by
  obtain ⟨x, hx, hsubs, hinbox⟩ := send_session h
  refine ⟨x, hx, ?_⟩
  unfold Session.topics
  rw [hsubs, hinbox, List.filterMap_append, ← List.append_assoc]
  split <;> rfl

theorem announcement_topics (payload : Payload) : (announcement conn payload).filterMap Packet.topic = [] := by
  unfold announcement
  split <;> rfl

/-- A packet without a topic changes no subscription. -/
theorem send_topics_of_nil {s : View} {packets : List Packet} (hp : packets.filterMap Packet.topic = [])
    {y : Session} (h : (s.send packets).session = some y) : ∃ x, s.session = some x ∧ y.topics = x.topics := by
  obtain ⟨x, hx, htopics⟩ := send_topics h
  rw [hp, ite_self, List.append_nil] at htopics
  exact ⟨x, hx, htopics⟩

/-- Once `connect_callback` has been called, the session has the topics of all inputs that are not left. -/
structure Subscribed (conn : Conn) (s : View) : Prop where
  fresh : s.link = true → s.acked = false → ∀ x, s.session = some x → x.topics = []
  complete : s.link = true → s.acked = true → ∀ x, s.session = some x → x.topics ++ s.pc.left conn = conn.inputs

theorem Subscribed.send {s : View} (h : Subscribed conn s) {packets : List Packet}
    (hp : packets.filterMap Packet.topic = []) : Subscribed conn (s.send packets) := by
  constructor
  · intro hlink hacked y hy
    obtain ⟨x, hx, heq⟩ := send_topics_of_nil hp hy
    rw [heq]
    exact h.fresh (by simpa using hlink) (by simpa using hacked) x hx
  · intro hlink hacked y hy
    obtain ⟨x, hx, heq⟩ := send_topics_of_nil hp hy
    rw [heq, send_pc]
    exact h.complete (by simpa using hlink) (by simpa using hacked) x hx

theorem Subscribed.step {s t : View} {a : Act} (h : Subscribed conn s) (hl : Linked s) (hm : Moves conn s a t) :
    Subscribed conn t := by
  cases hm with
  | accept =>
    refine ⟨fun _ _ x hx => ?_, nofun⟩
    cases hx
    rfl
  | refuse => exact h
  | connack hlink hacked =>
    refine ⟨nofun, fun _ _ x hx => ?_⟩
    rw [h.fresh hlink hacked x hx]
    rfl
  | announce hpc =>
    have hsend : Subscribed conn (s.send (announcement conn .on)) := h.send (announcement_topics .on)
    refine ⟨hsend.fresh, fun hlink hacked x hx => ?_⟩
    have := hsend.complete hlink hacked x hx
    rw [send_pc, hpc] at this
    exact this
  | @subscribe topic topics hpc =>
    obtain ⟨hlink, hacked⟩ := hl.up (by simp [hpc])
    refine ⟨fun _ hno => ?_, fun _ _ y hy => ?_⟩
    · rw [send_acked, hacked] at hno
      cases hno
    · obtain ⟨x, hx, heq⟩ := send_topics hy
      rw [heq, if_pos hlink, ← h.complete hlink hacked x hx, hpc, List.append_assoc]
      rfl
  | subscribed hpc =>
    refine ⟨h.fresh, fun hlink hacked x hx => ?_⟩
    rw [← h.complete hlink hacked x hx, hpc]
    rfl
  | lost => exact ⟨nofun, nofun⟩
  | deliverState hx =>
    refine ⟨fun hlink hacked y hy => ?_, fun hlink hacked y hy => ?_⟩
    · cases hy
      have := h.fresh hlink hacked _ hx
      exact this
    · cases hy
      have := h.complete hlink hacked _ hx
      exact this
  | deliverSubscribe hx =>
    refine ⟨fun hlink hacked y hy => ?_, fun hlink hacked y hy => ?_⟩
    · cases hy
      have := h.fresh hlink hacked _ hx
      unfold Session.topics at this
      simp [Packet.topic] at this
    · cases hy
      rw [← h.complete hlink hacked _ hx]
      simp [Session.topics, Packet.topic]
  | deliverDisconnect => exact ⟨nofun, nofun⟩
  | drop => exact ⟨nofun, nofun⟩
  | stop =>
    have hsend : Subscribed conn (s.send (announcement conn .off)) := h.send (announcement_topics .off)
    split
    · exact ⟨hsend.fresh, hsend.complete⟩
    · exact ⟨h.fresh, h.complete⟩
  | disconnect =>
    have hsend : Subscribed conn (s.send [.disconnect]) := h.send rfl
    exact ⟨hsend.fresh, hsend.complete⟩

/-! ## The state topic -/

theorem announcement_eq (hstate : conn.hasState = true) (payload : Payload) :
    announcement conn payload = [.state payload] := if_pos hstate

theorem will_ne (hstate : conn.hasState = true) (state : Option Payload) : will conn.hasState state ≠ some .on := by
  unfold will
  rw [if_pos hstate]
  decide

/-- Sending a packet before DISCONNECT. -/
theorem send_heard {s : View} {p : Packet} {y : Session} (h : (s.send [p]).session = some y)
    (hsilent : ∀ x, s.session = some x → .disconnect ∉ x.inbox) :
    ∃ x, s.session = some x ∧ (.disconnect ∈ y.inbox → s.link = true ∧ p = .disconnect) ∧
      heard s.state y.inbox = if s.link then heard (heard s.state x.inbox) [p] else heard s.state x.inbox := by
  obtain ⟨x, hx, -, hinbox⟩ := send_session h
  refine ⟨x, hx, fun hmem => ?_, ?_⟩
  · rw [hinbox] at hmem
    rcases List.mem_append.mp hmem with hmem | hmem
    · exact absurd hmem (hsilent x hx)
    · split at hmem
      · rename_i hlink
        exact ⟨hlink, (List.mem_singleton.mp hmem).symm⟩
      · cases hmem
  · rw [hinbox]
    split
    · exact heard_append (hsilent x hx) [p]
    · rw [List.append_nil]

theorem send_none {s : View} {packets : List Packet} (h : (s.send packets).session = none) : s.session = none := by
  unfold View.send at h
  split at h
  · exact Option.map_eq_none_iff.mp h
  · exact h

/-- DISCONNECT is sent by `mosquitto_disconnect` alone. -/
structure Disconnects (s : View) : Prop where
  silent : s.stop ≠ .disconnected → ∀ x, s.session = some x → .disconnect ∉ x.inbox
  closed : s.stop = .disconnected → s.link = true → ∀ x, s.session = some x → .disconnect ∈ x.inbox

theorem Disconnects.send {s : View} (h : Disconnects s) {packets : List Packet} (hp : .disconnect ∉ packets) :
    Disconnects (s.send packets) := by
  refine ⟨fun hstop y hy hmem => ?_, fun hstop hlink y hy => ?_⟩
  · rw [send_stop] at hstop
    obtain ⟨x, hx, -, hinbox⟩ := send_session hy
    rw [hinbox] at hmem
    rcases List.mem_append.mp hmem with hmem | hmem
    · exact h.silent hstop x hx hmem
    · split at hmem
      · exact hp hmem
      · cases hmem
  · rw [send_stop] at hstop
    rw [send_link] at hlink
    obtain ⟨x, hx, -, hinbox⟩ := send_session hy
    rw [hinbox]
    exact List.mem_append_left _ (h.closed hstop hlink x hx)

theorem Disconnects.step {s t : View} {a : Act} (h : Disconnects s) (hm : Moves conn s a t) : Disconnects t := by
  cases hm with
  | accept hlink hstop =>
    refine ⟨fun _ x hx => ?_, fun hno => absurd hno hstop⟩
    cases hx
    simp
  | refuse => exact h
  | connack => exact ⟨h.silent, h.closed⟩
  | announce =>
    have hsend := h.send (announcement_silent conn .on)
    exact ⟨hsend.silent, hsend.closed⟩
  | @subscribe topic topics =>
    have hsend : Disconnects (s.send [.subscribe topic]) := h.send (by simp)
    exact ⟨hsend.silent, hsend.closed⟩
  | subscribed => exact ⟨h.silent, h.closed⟩
  | lost => exact ⟨h.silent, fun _ => nofun⟩
  | deliverState hx =>
    refine ⟨fun hstop y hy => ?_, fun hstop hlink y hy => ?_⟩
    · cases hy
      simpa using h.silent hstop _ hx
    · cases hy
      simpa using h.closed hstop hlink _ hx
  | deliverSubscribe hx =>
    refine ⟨fun hstop y hy => ?_, fun hstop hlink y hy => ?_⟩
    · cases hy
      simpa using h.silent hstop _ hx
    · cases hy
      simpa using h.closed hstop hlink _ hx
  | deliverDisconnect => exact ⟨fun _ => nofun, fun _ _ => nofun⟩
  | drop => exact ⟨fun _ => nofun, fun _ _ => nofun⟩
  | stop hstop =>
    have hrun : s.stop ≠ .disconnected := by
      rw [hstop]
      decide
    refine ⟨fun _ y hy => ?_, nofun⟩
    split at hy
    · exact (h.send (announcement_silent conn .off)).silent (by rwa [send_stop]) y hy
    · exact h.silent hrun y hy
  | disconnect =>
    refine ⟨fun hno => absurd rfl hno, fun _ hlink y hy => ?_⟩
    rw [send_link] at hlink
    obtain ⟨x, -, -, hinbox⟩ := send_session hy
    rw [hinbox, if_pos hlink]
    simp

/-- The state topic of a session that goes on. -/
def Announced (s : View) : Prop :=
  s.link = true → s.acked = true → s.pc ≠ .announcing → s.stop = .running →
    ∀ x, s.session = some x → heard s.state x.inbox = some .on

theorem Announced.step {s t : View} {a : Act} (h : Announced s) (hd : Disconnects s) (hstate : conn.hasState = true)
    (hm : Moves conn s a t) : Announced t := by
  cases hm with
  | accept => exact fun _ => nofun
  | refuse => exact h
  | connack => exact fun _ _ hpc => absurd rfl hpc
  | announce =>
    rw [announcement_eq hstate]
    intro hlink _ _ hstop y hy
    rw [send_stop] at hstop
    obtain ⟨x, -, -, heq⟩ := send_heard hy (hd.silent (by rw [hstop]; decide))
    rw [send_link] at hlink
    rw [send_state, heq, if_pos hlink]
    rfl
  | subscribe hpc =>
    intro hlink hacked _ hstop y hy
    rw [send_link] at hlink
    rw [send_acked] at hacked
    rw [send_stop] at hstop
    obtain ⟨x, hx, -, heq⟩ := send_heard hy (hd.silent (by rw [hstop]; decide))
    rw [send_state, heq, if_pos hlink]
    exact h hlink hacked (by rw [hpc]; simp) hstop x hx
  | subscribed hpc => exact fun hlink hacked _ => h hlink hacked (by rw [hpc]; simp)
  | lost => exact nofun
  | deliverState hx =>
    intro hlink hacked hpc hstop y hy
    cases hy
    exact h hlink hacked hpc hstop _ hx
  | deliverSubscribe hx =>
    intro hlink hacked hpc hstop y hy
    cases hy
    have := h hlink hacked hpc hstop _ hx
    exact this
  | deliverDisconnect => exact fun _ _ _ _ => nofun
  | drop => exact fun _ _ _ _ => nofun
  | stop => exact fun _ _ _ => nofun
  | disconnect => exact fun _ _ _ => nofun

/-! ## Runs -/

section Runs

variable {E : Type} {net : Net E} {s : State E}

/-- Nothing is known of the link yet. -/
theorem Init.view (h : Init net s) : s.view net = { state := (net.side s.net).state } := by
  unfold State.view
  rw [h.fresh, h.side]

theorem init_told (h : Init net s) : Told net s := by
  unfold Told
  rw [h.side, h.fresh]
  simp

theorem reachable_told (hnet : net.Documented conn.hasState) (h : Reachable (step net conn) (Init net) s) :
    Told net s :=
  h.invariant (fun _ => init_told) fun _ _ _ hs _ hstep => (moves_of_step hnet hs hstep).2

theorem reachable_moves (hnet : net.Documented conn.hasState) (h : Reachable (step net conn) (Init net) s) {a : Act}
    {t : State E} (hstep : step net conn s a = some t) : Moves conn (s.view net) a (t.view net) :=
  (moves_of_step hnet (reachable_told hnet h) hstep).1

theorem reachable_linked (hnet : net.Documented conn.hasState) (h : Reachable (step net conn) (Init net) s) :
    Linked (s.view net) := by
  refine h.invariant (I := fun s => Linked (s.view net)) (fun s hs => ?_) fun _ _ _ hs hr hstep =>
    hs.step (reachable_moves hnet hr hstep)
  rw [hs.view]
  exact ⟨fun _ => rfl, rfl⟩

theorem reachable_subscribed (hnet : net.Documented conn.hasState) (h : Reachable (step net conn) (Init net) s) :
    Subscribed conn (s.view net) := by
  refine h.invariant (I := fun s => Subscribed conn (s.view net)) (fun s hs => ?_) fun _ _ _ hs hr hstep =>
    hs.step (reachable_linked hnet hr) (reachable_moves hnet hr hstep)
  rw [hs.view]
  exact ⟨nofun, nofun⟩

theorem reachable_disconnects (hnet : net.Documented conn.hasState) (h : Reachable (step net conn) (Init net) s) :
    Disconnects (s.view net) := by
  refine h.invariant (I := fun s => Disconnects (s.view net)) (fun s hs => ?_) fun _ _ _ hs hr hstep =>
    hs.step (reachable_moves hnet hr hstep)
  rw [hs.view]
  exact ⟨fun _ => nofun, nofun⟩

theorem reachable_announced (hnet : net.Documented conn.hasState) (hstate : conn.hasState = true)
    (h : Reachable (step net conn) (Init net) s) : Announced (s.view net) := by
  refine h.invariant (I := fun s => Announced (s.view net)) (fun s hs => ?_) fun _ _ _ hs hr hstep =>
    hs.step (reachable_disconnects hnet hr) hstate (reachable_moves hnet hr hstep)
  rw [hs.view]
  exact nofun

/-- **Sessions.** After every connection, also a new one, the session gets the topic of each input once and in order,
and its state topic is ON until `conn_stop`. -/
theorem sessions_served (hnet : net.Documented conn.hasState) (h : Reachable (step net conn) (Init net) s)
    (hlink : (net.side s.net).link = true) (hacked : (net.side s.net).acked = true) {x : Session}
    (hx : (net.side s.net).session = some x) :
    x.topics ++ s.pc.left conn = conn.inputs ∧ (conn.hasState = true → s.pc ≠ .announcing → s.stop = .running →
      heard (net.side s.net).state x.inbox = some .on) :=
  ⟨(reachable_subscribed hnet h).complete hlink hacked x hx, fun hstate hpc hstop =>
    reachable_announced hnet hstate h hlink hacked hpc hstop x hx⟩

end Runs

/-! A connection with two inputs, whose first session ends while `connect_callback` subscribes. -/

/-- A broker that does what it can at any time. -/
def willing (hasWill : Bool) : Net Side where
  side := id
  send := Side.send
  accept e := if e.link = false ∧ e.closing = false then some (e.accepted hasWill) else none
  refuse e := if e.link = false ∧ e.closing = false then some e else none
  connack e := if e.link ∧ e.acked = false then some { e with acked := true } else none
  lost e := if e.link then some { e with link := false } else none
  deliver e :=
    match e.session with
    | some ⟨subs, p :: inbox⟩ => some (e.taken subs inbox p)
    | _ => none
  drop e := if e.session.isSome then some { e with session := none, state := will hasWill e.state } else none

theorem willing_documented (hasWill : Bool) : (willing hasWill).Documented hasWill where
  send _ _ := rfl
  accept e e' h := by
    obtain ⟨hc, h⟩ := Option.ite_none_right_eq_some.mp h
    obtain rfl := Option.some.inj h
    exact ⟨hc.1, hc.2, rfl⟩
  refuse e e' h := by
    obtain ⟨-, h⟩ := Option.ite_none_right_eq_some.mp h
    obtain rfl := Option.some.inj h
    rfl
  connack e e' h := by
    obtain ⟨hc, h⟩ := Option.ite_none_right_eq_some.mp h
    obtain rfl := Option.some.inj h
    exact ⟨hc.1, hc.2, rfl⟩
  lost e e' h := by
    obtain ⟨hc, h⟩ := Option.ite_none_right_eq_some.mp h
    obtain rfl := Option.some.inj h
    exact ⟨hc, rfl⟩
  deliver e e' h := by
    simp only [willing] at h
    split at h
    · rename_i subs p inbox hx
      exact ⟨subs, p, inbox, hx, (Option.some.inj h).symm⟩
    · cases h
  drop e e' h := by
    obtain ⟨hc, h⟩ := Option.ite_none_right_eq_some.mp h
    obtain rfl := Option.some.inj h
    exact ⟨hc, rfl⟩

def inputVal (topic : String) : Val := { name := topic, topic := topic, dir := .input, type := .switch }

def exampleConn : Conn := { hasState := true, values := [inputVal "a", inputVal "b"] }

def exampleStart : State Side := { net := {} }

theorem exampleStart_init : Init (willing true) exampleStart := ⟨rfl, rfl, nofun⟩

def reconnectActs : List Act :=
  [.accept, .connack, .announce, .deliver, .drop, .subscribe, .subscribe, .subscribe, .lost, .refuse, .accept,
    .connack, .announce, .subscribe, .deliver, .deliver, .subscribe]

def reconnected : State Side :=
  (reconnectActs.foldlM (step (willing true) exampleConn) exampleStart).get (by decide +kernel)

theorem sessions_served_example : reconnected.net.session = some ⟨["a"], [.subscribe "b"]⟩ ∧
    heard reconnected.net.state [.subscribe "b"] = some .on := by
  have hreach : Reachable (step (willing true) exampleConn) (Init (willing true)) reconnected :=
    ⟨_, reconnectActs, exampleStart_init, (Option.some_get _).symm⟩
  have hsession : reconnected.net.session = some ⟨["a"], [.subscribe "b"]⟩ := by decide +kernel
  obtain ⟨-, hon⟩ := sessions_served (willing_documented true) hreach (by decide +kernel) (by decide +kernel) hsession
  exact ⟨hsession, hon rfl (by decide +kernel) (by decide +kernel)⟩

end Uvrgw.Broker
