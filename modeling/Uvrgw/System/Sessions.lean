import Uvrgw.System.Broker

/-!
# The end of sessions (`mqtt.c`)

How a connection comes back after a loss, and what the state topic shows once the program has no session.
-/

namespace Uvrgw.Broker

open Uvrgw.Lib Uvrgw.Mqtt

variable {E : Type} {net : Net E} {conn : Conn}

/-! ## After a loss -/

/-- The broker can be reached, a link can be given up, and what has been sent can be taken. -/
structure Net.Responsive (net : Net E) : Prop where
  accept : ∀ e, (net.side e).link = false → (net.side e).closing = false → (net.accept e).isSome = true
  connack : ∀ e, (net.side e).link = true → (net.side e).acked = false → (net.connack e).isSome = true
  lost : ∀ e, (net.side e).link = true → (net.lost e).isSome = true
  deliver : ∀ e subs p inbox, (net.side e).session = some ⟨subs, p :: inbox⟩ → (net.deliver e).isSome = true

/-- The first packet on the way is taken. -/
theorem deliver_next (hnet : net.Documented conn.hasState) (hresp : net.Responsive) {e : E} {subs : List String}
    {p : Packet} {inbox : List Packet} (hx : (net.side e).session = some ⟨subs, p :: inbox⟩) :
    ∃ e', net.deliver e = some e' ∧ net.side e' = (net.side e).taken subs inbox p := by
  obtain ⟨e', he⟩ := Option.isSome_iff_exists.mp (hresp.deliver e subs p inbox hx)
  obtain ⟨subs', p', inbox', hx', hside⟩ := hnet.deliver e e' he
  rw [hx] at hx'
  cases hx'
  exact ⟨e', he, hside⟩

/-- An action that is not of `conn_stop`, nor the broker dropping a session. -/
def Act.Calm (a : Act) : Prop := a ≠ .stop ∧ a ≠ .disconnect ∧ a ≠ .drop

instance (a : Act) : Decidable a.Calm := inferInstanceAs (Decidable (_ ∧ _ ∧ _))

variable (net conn) in
/-- The network thread and the broker can go from `s` to `t`. -/
def LeadsTo (s t : State E) : Prop := ∃ acts : List Act, (∀ a ∈ acts, a.Calm) ∧ Run (step net conn) s acts t

theorem LeadsTo.refl (s : State E) : LeadsTo net conn s s := ⟨[], nofun, (run_nil ..).mpr rfl⟩

theorem LeadsTo.trans {s t u : State E} (h : LeadsTo net conn s t) (h' : LeadsTo net conn t u) :
    LeadsTo net conn s u := by
  obtain ⟨acts, hcalm, hrun⟩ := h
  obtain ⟨acts', hcalm', hrun'⟩ := h'
  refine ⟨acts ++ acts', fun a ha => ?_, (run_append _ _ _ _).mpr ⟨t, hrun, hrun'⟩⟩
  exact (List.mem_append.mp ha).elim (hcalm a) (hcalm' a)

theorem LeadsTo.of_step {s t : State E} {a : Act} (ha : a.Calm) (h : step net conn s a = some t) :
    LeadsTo net conn s t := by
  refine ⟨[a], fun b hb => ?_, (run_cons ..).mpr ⟨t, h, (run_nil ..).mpr rfl⟩⟩
  obtain rfl := List.mem_singleton.mp hb
  exact ha

@[simp] theorem send_isSome (s : View) (packets : List Packet) :
    (s.send packets).session.isSome = s.session.isSome := by
  unfold View.send
  split
  · exact Option.isSome_map
  · rfl

/-- What the end of `connect_callback` leaves as it is. -/
structure SameLink (s t : View) : Prop where
  connected : t.connected = s.connected
  stop : t.stop = s.stop
  link : t.link = s.link
  acked : t.acked = s.acked
  session : t.session.isSome = s.session.isSome

theorem SameLink.trans {s t u : View} (h : SameLink s t) (h' : SameLink t u) : SameLink s u where
  connected := h'.connected.trans h.connected
  stop := h'.stop.trans h.stop
  link := h'.link.trans h.link
  acked := h'.acked.trans h.acked
  session := h'.session.trans h.session

theorem SameLink.send (hnet : net.Documented conn.hasState) (s : State E) (packets : List Packet) (pc : Pc) :
    SameLink (s.view net) (State.view net { s with pc := pc, net := net.send packets s.net }) := by
  have hview : State.view net { s with pc := pc, net := net.send packets s.net } =
      { (s.view net).send packets with pc := pc } := by
    rw [← view_send hnet]
    rfl
  rw [hview]
  exact ⟨send_connected .., send_stop .., send_link .., send_acked .., send_isSome ..⟩

theorem leads_subscribed (hnet : net.Documented conn.hasState) {s : State E} {topics : List String}
    (hpc : s.pc = .subscribing topics) :
    ∃ t, LeadsTo net conn s t ∧ t.pc = .idle ∧ SameLink (s.view net) (t.view net) := by
  induction topics generalizing s with
  | nil =>
    have hstep : step net conn s .subscribe = some { s with pc := .idle } := by simp [step, hpc]
    exact ⟨_, .of_step (by decide) hstep, rfl, rfl, rfl, rfl, rfl, rfl⟩
  | cons topic topics ih =>
    have hstep : step net conn s .subscribe =
        some { s with pc := .subscribing topics, net := net.send [.subscribe topic] s.net } := by simp [step, hpc]
    obtain ⟨t, hlead, hidle, hsame⟩ :=
      @ih { s with pc := .subscribing topics, net := net.send [.subscribe topic] s.net } rfl
    exact ⟨t, (LeadsTo.of_step (by decide) hstep).trans hlead, hidle, (SameLink.send hnet ..).trans hsame⟩

/-- `connect_callback` always returns. -/
theorem leads_idle (hnet : net.Documented conn.hasState) (s : State E) :
    ∃ t, LeadsTo net conn s t ∧ t.pc = .idle ∧ SameLink (s.view net) (t.view net) := by
  cases hpc : s.pc with
  | idle => exact ⟨s, .refl s, hpc, rfl, rfl, rfl, rfl, rfl⟩
  | announcing =>
    have hstep : step net conn s .announce =
        some { s with pc := .subscribing conn.inputs, net := net.send (announcement conn .on) s.net } := by
      simp [step, hpc]
    obtain ⟨t, hlead, hidle, hsame⟩ := @leads_subscribed E net conn hnet
      { s with pc := .subscribing conn.inputs, net := net.send (announcement conn .on) s.net } _ rfl
    exact ⟨t, (LeadsTo.of_step (by decide) hstep).trans hlead, hidle, (SameLink.send hnet ..).trans hsame⟩
  | subscribing topics => exact leads_subscribed hnet hpc

/-- The broker takes the packets up to DISCONNECT. -/
theorem leads_delivered (hnet : net.Documented conn.hasState) (hresp : net.Responsive) {s : State E}
    {subs : List String} {inbox : List Packet} (hx : (net.side s.net).session = some ⟨subs, inbox⟩)
    (hsilent : .disconnect ∉ inbox) :
    ∃ t subs' state, LeadsTo net conn s t ∧
      t.view net = { s.view net with session := some ⟨subs', []⟩, state := state } := by
  induction inbox generalizing s subs with
  | nil =>
    refine ⟨s, subs, (net.side s.net).state, .refl s, ?_⟩
    rw [← hx]
    rfl
  | cons p inbox ih =>
    have hrest : .disconnect ∉ inbox := fun hmem => hsilent (List.mem_cons_of_mem p hmem)
    obtain ⟨e, he, hside⟩ := deliver_next hnet hresp hx
    have hstep : step net conn s .deliver = some { s with net := e } := by simp [step, he]
    have hview : ∀ subs' state',
        { State.view net { s with net := e } with session := some ⟨subs', []⟩, state := state' } =
        { s.view net with session := some ⟨subs', []⟩, state := state' } := by
      intro subs' state'
      unfold State.view
      rw [hside]
      cases p <;> rfl
    have hsession : ∃ subs', (net.side e).session = some ⟨subs', inbox⟩ := by
      rw [hside]
      cases p with
      | state payload => exact ⟨subs, rfl⟩
      | subscribe topic => exact ⟨subs ++ [topic], rfl⟩
      | disconnect => exact absurd List.mem_cons_self hsilent
    obtain ⟨subs₁, hx₁⟩ := hsession
    obtain ⟨t, subs', state', hlead, ht⟩ := @ih { s with net := e } subs₁ hx₁ hrest
    exact ⟨t, subs', state', (LeadsTo.of_step (by decide) hstep).trans hlead, ht.trans (hview subs' state')⟩

/-- A new connection after the callback has returned. -/
theorem leads_connected (hnet : net.Documented conn.hasState) (hresp : net.Responsive) {s : State E}
    (htold : Told net s) (hidle : s.pc = .idle) (hstop : s.stop = .running) :
    ∃ t, LeadsTo net conn s t ∧ t.pc = .announcing ∧ t.stop = .running ∧ (net.side t.net).link = true ∧
      (net.side t.net).acked = true ∧ (net.side t.net).session.isSome = true := by
  have hdown : ∃ u, LeadsTo net conn s u ∧ Told net u ∧ u.pc = .idle ∧ u.stop = .running ∧
      (net.side u.net).link = false := by
    cases hlink : (net.side s.net).link with
    | false => exact ⟨s, .refl s, htold, hidle, hstop, hlink⟩
    | true =>
      obtain ⟨e, he⟩ := Option.isSome_iff_exists.mp (hresp.lost _ hlink)
      have hstep : step net conn s .lost = some { s with connected := false, net := e } := by simp [step, hidle, he]
      exact ⟨_, .of_step (by decide) hstep, (moves_of_step hnet htold hstep).2, hidle, hstop,
        by rw [(hnet.lost _ _ he).2]⟩
  obtain ⟨u, hlead, htold, hidle, hstop, hlink⟩ := hdown
  have hclosing : (net.side u.net).closing = false := by
    by_contra hno
    have hend := htold.mp (by simpa using hno)
    rw [hstop] at hend
    cases hend
  obtain ⟨e, he⟩ := Option.isSome_iff_exists.mp (hresp.accept _ hlink hclosing)
  obtain ⟨-, -, hside⟩ := hnet.accept _ _ he
  have haccept : step net conn u .accept = some { u with net := e } := by simp [step, he]
  obtain ⟨e', he'⟩ := Option.isSome_iff_exists.mp (hresp.connack e (by rw [hside]; rfl) (by rw [hside]; rfl))
  have hside' : net.side e' = { (net.side u.net).accepted conn.hasState with acked := true } := by
    rw [(hnet.connack _ _ he').2.2, hside]
  have hconnack : step net conn { u with net := e } .connack =
      some { u with connected := true, pc := .announcing, net := e' } := by
    simp [step, hidle, he']
  refine ⟨_, (hlead.trans (.of_step (by decide) haccept)).trans (.of_step (by decide) hconnack), rfl, hstop, ?_⟩
  dsimp only
  rw [hside']
  exact ⟨rfl, rfl, rfl⟩

/-- **Recovery.** Until `conn_stop`, whatever has happened, the network thread can get to a session with all inputs
and the state ON. -/
theorem connection_recovers (hnet : net.Documented conn.hasState) (hresp : net.Responsive) {s : State E}
    (h : Reachable (step net conn) (Init net) s) (hstop : s.stop = .running) :
    ∃ t, LeadsTo net conn s t ∧ t.connected = true ∧ (net.side t.net).session = some ⟨conn.inputs, []⟩ ∧
      (conn.hasState = true → (net.side t.net).state = some .on) := by
  have hreach : ∀ {t}, LeadsTo net conn s t → Reachable (step net conn) (Init net) t :=
    fun ⟨_, _, hrun⟩ => h.run hrun
  obtain ⟨u, hu, hidle, hsame⟩ := leads_idle hnet s
  obtain ⟨v, hv, -, hstop, hlink, hacked, hsession⟩ :=
    leads_connected hnet hresp (reachable_told hnet (hreach hu)) hidle (hsame.stop.trans hstop)
  obtain ⟨w, hw, hidle, hsame⟩ := leads_idle hnet v
  have hlead := (hu.trans hv).trans hw
  obtain ⟨⟨subs, inbox⟩, hx⟩ := Option.isSome_iff_exists.mp (hsame.session.trans hsession)
  have hsilent : .disconnect ∉ inbox := by
    refine (reachable_disconnects hnet (hreach hlead)).silent ?_ _ hx
    have hrun : (v.view net).stop = .running := hstop
    rw [hsame.stop, hrun]
    decide
  obtain ⟨t, subs', state, hlast, hview⟩ := leads_delivered hnet hresp hx hsilent
  have ht := hreach (hlead.trans hlast)
  have hlink' : (t.view net).link = true := by
    rw [hview]
    exact hsame.link.trans hlink
  have hacked' : (t.view net).acked = true := by
    rw [hview]
    exact hsame.acked.trans hacked
  have hpc : (t.view net).pc = .idle := by
    rw [hview]
    exact hidle
  have hstop' : (t.view net).stop = .running := by
    rw [hview]
    exact hsame.stop.trans hstop
  have hx' : (t.view net).session = some ⟨subs', []⟩ := by rw [hview]
  have htopics := (reachable_subscribed hnet ht).complete hlink' hacked' _ hx'
  have hinputs : subs' = conn.inputs := by
    rw [← htopics]
    simp [Session.topics, hpc, Pc.left]
  refine ⟨t, hlead.trans hlast, ?_, hinputs ▸ hx', fun hstate => ?_⟩
  · exact (reachable_linked hnet ht).connected.trans (by rw [hlink', hacked']; rfl)
  · exact reachable_announced hnet hstate ht hlink' hacked' (by rw [hpc]; decide) hstop' _ hx'

theorem willing_responsive (hasWill : Bool) : (willing hasWill).Responsive where
  accept e hlink hclosing := by simp_all [willing]
  connack e hlink hacked := by simp_all [willing]
  lost e hlink := by simp_all [willing]
  deliver e subs p inbox hx := by simp_all [willing]

def droppedActs : List Act := [.accept, .connack, .announce, .deliver, .subscribe, .drop]

/-- The broker has ended the session, and `connect_callback` goes on subscribing. -/
def dropped : State Side :=
  (droppedActs.foldlM (step (willing true) exampleConn) exampleStart).get (by decide +kernel)

theorem connection_recovers_example : dropped.net.state = some .off ∧
    ∃ t, LeadsTo (willing true) exampleConn dropped t ∧ t.net.session = some ⟨["a", "b"], []⟩ ∧
      t.net.state = some .on := by
  have hreach : Reachable (step (willing true) exampleConn) (Init (willing true)) dropped :=
    ⟨_, droppedActs, exampleStart_init, (Option.some_get _).symm⟩
  obtain ⟨t, hlead, -, hsession, hon⟩ :=
    connection_recovers (willing_documented true) (willing_responsive true) hreach (by decide +kernel)
  exact ⟨by decide +kernel, t, hlead, hsession, hon rfl⟩

/-! ## After the end -/

/-- `connect_callback` does not publish the state between the two calls of `conn_stop`. -/
def Orderly (s : State E) (a : Act) : Prop := a = .announce → s.stop ≠ .published

instance (s : State E) (a : Act) : Decidable (Orderly s a) := inferInstanceAs (Decidable (_ → _))

/-- Where the state topic does not stay ON. -/
structure Quiet (s : View) : Prop where
  ended : s.session = none → s.state ≠ some .on
  closing : ∀ x, s.session = some x → .disconnect ∈ x.inbox → heard s.state x.inbox ≠ some .on
  stopping : s.stop = .published → s.link = true → ∀ x, s.session = some x → heard s.state x.inbox ≠ some .on
  before : s.link = true → s.acked = false ∨ s.pc = .announcing →
    ∀ x, s.session = some x → heard s.state x.inbox ≠ some .on

/-- What `Quiet` asks of a session outlives a packet that does not change what is heard. -/
theorem Quiet.same {s t : View} (h : Quiet s) (hstop : t.stop = s.stop) (hlink : t.link = s.link)
    (hacked : t.acked = s.acked) (hpc : t.pc = .announcing → s.pc = .announcing)
    (hnone : t.session = none → s.session = none ∧ t.state = s.state)
    (hsome : ∀ y, t.session = some y → ∃ x, s.session = some x ∧
      (.disconnect ∈ y.inbox → .disconnect ∈ x.inbox) ∧ heard t.state y.inbox = heard s.state x.inbox) : Quiet t := by
  refine ⟨fun hn => ?_, fun y hy hmem => ?_, fun hs hl y hy => ?_, fun hl hb y hy => ?_⟩
  · obtain ⟨hn, heq⟩ := hnone hn
    rw [heq]
    exact h.ended hn
  · obtain ⟨x, hx, hdisc, heq⟩ := hsome y hy
    rw [heq]
    exact h.closing x hx (hdisc hmem)
  · obtain ⟨x, hx, -, heq⟩ := hsome y hy
    rw [heq]
    exact h.stopping (hstop ▸ hs) (hlink ▸ hl) x hx
  · obtain ⟨x, hx, -, heq⟩ := hsome y hy
    rw [heq]
    exact h.before (hlink ▸ hl) (hb.imp (hacked ▸ ·) hpc) x hx

theorem Quiet.announce {s : View} (h : Quiet s) (hl : Linked s) (hd : Disconnects s)
    (hstate : conn.hasState = true) (hpc : s.pc = .announcing) (hstop : s.stop ≠ .published) :
    Quiet { s.send (announcement conn .on) with pc := .subscribing conn.inputs } := by
  obtain ⟨hlink, hacked⟩ := hl.up (by simp [hpc])
  rw [announcement_eq hstate]
  refine ⟨fun hn => ?_, fun y hy hmem => ?_, fun hs => ?_, fun _ hb => ?_⟩
  · rw [send_state]
    exact h.ended (send_none hn)
  · rw [send_state]
    by_cases hlast : s.stop = .disconnected
    · -- ON is behind DISCONNECT
      obtain ⟨x, hx, -, hinbox⟩ := send_session hy
      have hmem := hd.closed hlast hlink x hx
      rw [hinbox, heard_append_of_mem hmem]
      exact h.closing x hx hmem
    · obtain ⟨x, -, hdisc, -⟩ := send_heard hy (hd.silent hlast)
      cases (hdisc hmem).2
  · rw [send_stop] at hs
    exact absurd hs hstop
  · rw [send_acked, hacked] at hb
    rcases hb with hb | hb <;> cases hb

theorem Quiet.stop {s : View} (h : Quiet s) (hl : Linked s) (hd : Disconnects s) (hstate : conn.hasState = true)
    (hstop : s.stop = .running) :
    Quiet { (if s.connected then s.send (announcement conn .off) else s) with stop := .published } := by
  have hrun : s.stop ≠ .disconnected := by
    rw [hstop]
    decide
  rw [announcement_eq hstate]
  split
  · rename_i hconnected
    have hlink : s.link = true := by
      rw [hl.connected, Bool.and_eq_true] at hconnected
      exact hconnected.1
    have hoff : ∀ y, (s.send [.state .off]).session = some y → heard s.state y.inbox ≠ some .on := by
      intro y hy
      obtain ⟨x, -, -, heq⟩ := send_heard hy (hd.silent hrun)
      rw [heq, if_pos hlink]
      simp [heard]
    refine ⟨fun hn => ?_, fun y hy _ => ?_, fun _ _ y hy => ?_, fun _ _ y hy => ?_⟩
    · rw [send_state]
      exact h.ended (send_none hn)
    all_goals
      rw [send_state]
      exact hoff y hy
  · rename_i hconnected
    refine ⟨h.ended, h.closing, fun _ hlink => ?_, h.before⟩
    -- `connect_callback` has not been called for this link, so ON has not been published
    refine h.before hlink (.inl ?_)
    by_contra hacked
    apply hconnected
    rw [hl.connected, hlink]
    simpa using hacked

theorem Quiet.disconnect {s : View} (h : Quiet s) (hd : Disconnects s) (hstop : s.stop = .published) :
    Quiet { s.send [.disconnect] with stop := .disconnected } := by
  have hrun : s.stop ≠ .disconnected := by
    rw [hstop]
    decide
  have hheard : ∀ y, (s.send [.disconnect]).session = some y → ∃ x, s.session = some x ∧
      (.disconnect ∈ y.inbox → s.link = true) ∧ heard s.state y.inbox = heard s.state x.inbox := by
    intro y hy
    obtain ⟨x, hx, hdisc, heq⟩ := send_heard hy (hd.silent hrun)
    exact ⟨x, hx, fun hmem => (hdisc hmem).1, by rw [heq]; exact ite_self _⟩
  refine ⟨fun hn => ?_, fun y hy hmem => ?_, nofun, fun hlink hb y hy => ?_⟩
  · rw [send_state]
    exact h.ended (send_none hn)
  · obtain ⟨x, hx, hdisc, heq⟩ := hheard y hy
    rw [send_state, heq]
    exact h.stopping hstop (hdisc hmem) x hx
  · obtain ⟨x, hx, -, heq⟩ := hheard y hy
    rw [send_link] at hlink
    rw [send_state, heq]
    exact h.stopping hstop hlink x hx

theorem Quiet.step {s t : View} {a : Act} (h : Quiet s) (hl : Linked s) (hd : Disconnects s)
    (hstate : conn.hasState = true) (horderly : a = .announce → s.stop ≠ .published)
    (hm : Moves conn s a t) : Quiet t := by
  cases hm with
  | accept hlink hstop =>
    have hold : (if s.session.isSome then will conn.hasState s.state else s.state) ≠ some .on := by
      split
      · exact will_ne hstate s.state
      · rename_i hnone
        exact h.ended (by simpa using hnone)
    refine ⟨nofun, fun x hx hmem => ?_, fun _ _ x hx => ?_, fun _ _ x hx => ?_⟩
    · cases hx
      cases hmem
    · cases hx
      exact hold
    · cases hx
      exact hold
  | refuse => exact h
  | connack hlink hacked =>
    exact ⟨h.ended, h.closing, h.stopping, fun _ _ => h.before hlink (.inl hacked)⟩
  | announce hpc => exact h.announce hl hd hstate hpc (horderly rfl)
  | @subscribe topic topics hpc =>
    refine h.same (send_stop ..) (send_link ..) (send_acked ..) nofun (fun hn => ⟨send_none hn, send_state ..⟩)
      fun y hy => ?_
    obtain ⟨x, hx, -, hinbox⟩ := send_session hy
    refine ⟨x, hx, fun hmem => ?_, ?_⟩
    · rw [hinbox] at hmem
      rcases List.mem_append.mp hmem with hmem | hmem
      · exact hmem
      · split at hmem <;> simp at hmem
    · rw [send_state, hinbox]
      split
      · exact heard_subscribe ..
      · rw [List.append_nil]
  | subscribed hpc => exact h.same rfl rfl rfl nofun (fun hn => ⟨hn, rfl⟩) fun y hy => ⟨y, hy, id, rfl⟩
  | lost => exact ⟨h.ended, h.closing, nofun, nofun⟩
  | deliverState hx =>
    refine h.same rfl rfl rfl id nofun fun y hy => ?_
    cases hy
    exact ⟨_, hx, List.mem_cons_of_mem _, rfl⟩
  | deliverSubscribe hx =>
    refine h.same rfl rfl rfl id nofun fun y hy => ?_
    cases hy
    exact ⟨_, hx, List.mem_cons_of_mem _, rfl⟩
  | deliverDisconnect hx =>
    have hend : s.state ≠ some .on := h.closing _ hx List.mem_cons_self
    exact ⟨fun _ => hend, nofun, fun _ _ => nofun, fun _ _ => nofun⟩
  | drop => exact ⟨fun _ => will_ne hstate s.state, nofun, fun _ _ => nofun, fun _ _ => nofun⟩
  | stop hstop => exact h.stop hl hd hstate hstop
  | disconnect hstop => exact h.disconnect hd hstop

theorem reachable_quiet (hnet : net.Documented conn.hasState) (hstate : conn.hasState = true) {s t : State E}
    {acts : List Act} (hs : Init net s) (hrun : Run (step net conn) s acts t)
    (horderly : Meets (step net conn) Orderly s acts) : Quiet (t.view net) := by
  have hquiet : Reachable (step net conn) (Init net) t ∧ Quiet (t.view net) := by
    refine hrun.invariant_of_meets (I := fun u => Reachable (step net conn) (Init net) u ∧ Quiet (u.view net))
      (fun u a v ⟨hu, hq⟩ ho hstep => ?_) horderly ⟨.of_init hs, ?_⟩
    · exact ⟨hu.next hstep, hq.step (reachable_linked hnet hu) (reachable_disconnects hnet hu) hstate ho
        (reachable_moves hnet hu hstep)⟩
    · rw [hs.view]
      exact ⟨fun _ => hs.state, nofun, nofun, nofun⟩
  exact hquiet.2

def lateActs : List Act := [.accept, .connack, .stop, .announce, .disconnect, .deliver, .deliver, .deliver]

/-- Between the two calls of `conn_stop`, `connect_callback` can still publish ON. -/
theorem late_announcement (hnet : net.Documented conn.hasState) (hresp : net.Responsive)
    (hstate : conn.hasState = true) {s : State E} (hs : Init net s) :
    ∃ t, Run (step net conn) s lateActs t ∧ (net.side t.net).session = none ∧ (net.side t.net).state = some .on := by
  obtain ⟨e, rfl⟩ : ∃ e, s = { net := e } := ⟨s.net, hs.fresh⟩
  have hside : net.side e = { state := (net.side e).state } := hs.side
  obtain ⟨e₁, he₁⟩ := Option.isSome_iff_exists.mp (hresp.accept e (by rw [hside]) (by rw [hside]))
  have hside₁ : net.side e₁ = { link := true, session := some {}, state := (net.side e).state } := by
    rw [(hnet.accept _ _ he₁).2.2, hside]
    rfl
  obtain ⟨e₂, he₂⟩ := Option.isSome_iff_exists.mp (hresp.connack e₁ (by rw [hside₁]) (by rw [hside₁]))
  let e₅ := net.send [.disconnect] (net.send [.state .on] (net.send [.state .off] e₂))
  have hside₅ : net.side e₅ = { link := true, acked := true, closing := true,
                                session := some ⟨[], [.state .off, .state .on, .disconnect]⟩,
                                state := (net.side e).state } := by
    rw [hnet.send, hnet.send, hnet.send, (hnet.connack _ _ he₂).2.2, hside₁]
    rfl
  obtain ⟨e₆, he₆, hside₆⟩ := deliver_next hnet hresp (e := e₅) (by rw [hside₅])
  obtain ⟨e₇, he₇, hside₇⟩ := deliver_next hnet hresp (e := e₆) (by rw [hside₆]; rfl)
  obtain ⟨e₈, he₈, hside₈⟩ := deliver_next hnet hresp (e := e₇) (by rw [hside₇]; rfl)
  refine ⟨{ connected := true, pc := .subscribing conn.inputs, stop := .disconnected, net := e₈ }, ?_, ?_, ?_⟩
  · have hon : announcement conn .on = [.state .on] := announcement_eq hstate .on
    have hoff : announcement conn .off = [.state .off] := announcement_eq hstate .off
    simp [lateActs, step, he₁, he₂, he₆, he₇, he₈, hon, hoff, e₅]
  · rw [hside₈]
    rfl
  · rw [hside₈, hside₇]
    rfl

/-- **The state topic.** When the broker has no session of the program, whatever ended it, the topic is
not ON, as long as `connect_callback` does not publish it between the two calls of `conn_stop`. If it
does, the topic can stay ON. -/
theorem state_truthful (hnet : net.Documented conn.hasState) (hstate : conn.hasState = true) {s : State E}
    (hs : Init net s) :
    (∀ acts t, Run (step net conn) s acts t → Meets (step net conn) Orderly s acts →
        (net.side t.net).session = none → (net.side t.net).state ≠ some .on) ∧
      (net.Responsive → ∃ acts t, Run (step net conn) s acts t ∧ (net.side t.net).session = none ∧
        (net.side t.net).state = some .on) := by
  refine ⟨fun acts t hrun horderly hsession => ?_, fun hresp => ?_⟩
  · exact (reachable_quiet hnet hstate hs hrun horderly).ended hsession
  · obtain ⟨t, hlate⟩ := late_announcement hnet hresp hstate hs
    exact ⟨lateActs, t, hlate⟩

def stopActs : List Act :=
  [.accept, .connack, .announce, .subscribe, .subscribe, .subscribe, .deliver, .drop, .lost, .accept, .connack,
    .announce, .deliver, .stop, .disconnect, .deliver, .deliver]

def stopped : State Side := (stopActs.foldlM (step (willing true) exampleConn) exampleStart).get (by decide +kernel)

theorem state_truthful_example :
    (Run (step (willing true) exampleConn) exampleStart stopActs stopped ∧ stopped.net.state ≠ some .on) ∧
      ∃ acts t, Run (step (willing true) exampleConn) exampleStart acts t ∧ t.net.session = none ∧
        t.net.state = some .on := by
  have hrun : Run (step (willing true) exampleConn) exampleStart stopActs stopped := (Option.some_get _).symm
  obtain ⟨hnever, hlate⟩ := @state_truthful Side (willing true) exampleConn (willing_documented true) rfl _
    exampleStart_init
  exact ⟨⟨hrun, hnever stopActs stopped hrun (by decide +kernel) (by decide +kernel)⟩,
    hlate (willing_responsive true)⟩

end Uvrgw.Broker
