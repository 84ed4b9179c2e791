import Uvrgw.Lib.Resources
import Uvrgw.Lib.Run
import Uvrgw.Sunspec.Requests

/-!
# The server thread (`server_thread`)

A pass takes what `select` reports: the sockets with data, a new connection, and what is read from each
client. The sockets of the clients are resources.
-/

namespace Uvrgw.Sunspec

open Uvrgw.Lib.Resources

/-- `SUNSPEC_MAX_CLIENTS`. -/
def maxClients : Nat := 8

/-- What `modbus_receive` gives for a client; for a request, also what its sources hold and whether the reply is
sent. -/
inductive Received where
  | failed
  | ignored
  | request (unitId function : Nat) (read : Src → ℚ × Bool) (sent : Bool)

inductive Answer where
  | illegalFunction
  | serverFailure
  | registers (regs : List (BitVec 16))
  deriving DecidableEq, Repr

inductive Event where
  | receive (fd : Nat)
  | reply (fd : Nat) (answer : Answer)
  deriving DecidableEq, Repr

inductive Message where
  | acceptFailed
  | acceptingAgain
  | tooManyClients
  | meter (report : Report)
  deriving DecidableEq, Repr

structure Server where
  meters : List Meter
  /-- The socket of `ctx`. -/
  socket : Nat := 0
  clientFds : List (Option Nat) := List.replicate maxClients none
  clientsFull : Bool := false
  acceptFailed : Bool := false
  /-- The sockets that are open, and what was done with them. -/
  book : Book Nat Event := {}
  messages : List Message := []

namespace Server

def log (s : Server) (m : Message) : Server := { s with messages := s.messages ++ [m] }

def act (s : Server) (a : Act Nat Event) : Server := { s with book := s.book.act a }

/-- `server->client_fds[idx] = fd`. -/
def setClient (s : Server) (idx : Nat) (fd : Option Nat) : Server := { s with clientFds := s.clientFds.set idx fd }

def closeClient (s : Server) (idx : Nat) : Server :=
  match s.clientFds[idx]? with
  | some (some fd) => (s.act (.drop fd)).setClient idx none
  | _ => s

def acceptClient (s : Server) (fd : Option Nat) : Server :=
  match fd with
  | none => { if s.acceptFailed then s else s.log .acceptFailed with acceptFailed := true }
  | some fd =>
    let s := { s.act (.take fd) with acceptFailed := false }
    match s.clientFds.findIdx? (·.isNone) with
    | some i =>
      let s := s.setClient i (some fd)
      { if s.clientsFull then s.log .acceptingAgain else s with clientsFull := false }
    | none =>
      let s := { if s.clientsFull then s else s.log .tooManyClients with clientsFull := true }
      s.act (.drop fd)

/-- The answer of `handle_client` for the meter at `idx`. -/
def answer (math : Math) (s : Server) (idx : Nat) (m : Meter) (function : Nat) (read : Src → ℚ × Bool) :
    Server × Answer :=
  if function ≠ 3 then (s, .illegalFunction)
  else
    let u := updateSteps math m read
    let s := { s with meters := s.meters.set idx u.meter, messages := s.messages ++ u.reports.map .meter }
    if u.ret < 0 then (s, .serverFailure) else (s, .registers u.meter.regs)

def handleClient (math : Math) (s : Server) (idx fd : Nat) (received : Received) : Server :=
  let s := { s with socket := fd }
  let s := s.act (.event (.receive s.socket))
  match received with
  | .failed => s.closeClient idx
  | .ignored => s
  | .request unitId function read sent =>
    match s.meters.findIdx? (·.unitId = (unitId : Int)) with
    | none => s
    | some k =>
      match s.meters[k]? with
      | none => s
      | some m =>
        let (s, answer) := s.answer math k m function read
        let s := s.act (.event (.reply s.socket answer))
        if sent then s else s.closeClient idx

end Server

/-- What one pass of the loop meets. -/
structure Wake where
  /-- The clients that `select` reports. -/
  ready : List Nat
  /-- What `accept` gives, if the listening socket is reported. -/
  accept : Option (Option Nat)
  /-- What is read from each client. -/
  received : Nat → Received

namespace Server

def handleReady (math : Math) (w : Wake) (s : Server) (idx : Nat) : Server :=
  match s.clientFds[idx]? with
  | some (some fd) => if fd ∈ w.ready then s.handleClient math idx fd (w.received idx) else s
  | _ => s

/-- One pass of `server_thread`. -/
def pass (math : Math) (s : Server) (w : Wake) : Server :=
  let s := match w.accept with
    | none => s
    | some fd => s.acceptClient fd
  (List.range maxClients).foldl (handleReady math w) s

/-- `select` reports only what it was given, and `accept` gives a socket that is not open. -/
def Possible (s : Server) (w : Wake) : Prop :=
  (∀ fd ∈ w.ready, some fd ∈ s.clientFds) ∧ (w.accept.join.all fun fd => !s.book.held fd) = true

instance possibleDecidable (s : Server) (w : Wake) : Decidable (s.Possible w) :=
  inferInstanceAs (Decidable ((∀ fd ∈ w.ready, some fd ∈ s.clientFds) ∧
    (w.accept.join.all fun fd => !s.book.held fd) = true))

def step (math : Math) (s : Server) (w : Wake) : Option Server := if s.Possible w then some (s.pass math w) else none

theorem step_pass (math : Math) {s : Server} {w : Wake} (h : s.Possible w) : s.step math w = some (s.pass math w) :=
  if_pos h

/-- `server_shutdown`, as far as the clients go. -/
def shutdown (s : Server) : Server := (List.range maxClients).foldl closeClient s

end Server

/-! ## Exchanges -/

/-- The answer to a request to meter `m`. -/
inductive Answers (math : Math) (m : Meter) (function : Nat) (read : Src → ℚ × Bool) : Answer → Prop where
  | illegalFunction (h : function ≠ 3) : Answers math m function read .illegalFunction
  | serverFailure (h : function = 3) (hinvalid : ∃ s, Invalid m read s) : Answers math m function read .serverFailure
  | registers (h : function = 3) (hvalid : ∀ s, ¬ Invalid m read s) :
      Answers math m function read (.registers (updateImage math m read).1.regs)

/-- What happens with what was read from a client, where `meters` are the configured ones. -/
inductive Exchange (math : Math) (meters : List Meter) (fd : Nat) : Received → List (Act Nat Event) → Prop where
  | failed : Exchange math meters fd .failed [.event (.receive fd), .drop fd]
  | ignored : Exchange math meters fd .ignored [.event (.receive fd)]
  | unknown {unitId function : Nat} {read : Src → ℚ × Bool} {sent : Bool} (h : ∀ m ∈ meters, m.unitId ≠ unitId) :
      Exchange math meters fd (.request unitId function read sent) [.event (.receive fd)]
  | answered {unitId function : Nat} {read : Src → ℚ × Bool} {sent : Bool} {m : Meter} {a : Answer} (hm : m ∈ meters)
      (hid : m.unitId = unitId) (ha : Answers math m function read a) :
      Exchange math meters fd (.request unitId function read sent)
        ([.event (.receive fd), .event (.reply fd a)] ++ if sent then [] else [.drop fd])

/-! ## Meters -/

/-- A meter without what requests change. -/
def Meter.config (m : Meter) : Meter := { m with regs := [], unavailable := false }

theorem Meter.eq_of_config {m n : Meter} (h : m.config = n.config) :
    m = { n with regs := m.regs, unavailable := m.unavailable } := by
  cases m
  cases n
  simp only [config, Meter.mk.injEq] at h ⊢
  simp [h]

theorem updateSteps_fails (math : Math) {m : Meter} {read : Src → ℚ × Bool} (h : ∃ s, Invalid m read s) :
    (updateSteps math m read).ret = -1 ∧ (updateSteps math m read).meter = { m with unavailable := true } := by
  rw [updateSteps_eq]
  have hinv : (allReads m read).invalid.isSome = true := by
    unfold allReads
    rw [foldl_invalidAfter, invalidAfter_isSome]
    obtain ⟨s, hs⟩ := h
    exact .inr ⟨s, s.mem_all, hs⟩
  obtain ⟨name, hname⟩ := Option.isSome_iff_exists.mp hinv
  rw [hname]
  exact ⟨rfl, rfl⟩

theorem updateSteps_ok (math : Math) {m : Meter} {read : Src → ℚ × Bool} (hregs : m.regs.length = mapRegs)
    (h : ∀ s, ¬ Invalid m read s) :
    (updateSteps math m read).ret = 0 ∧ (updateSteps math m read).meter.config = m.config ∧
      (updateSteps math m read).meter.regs = (updateImage math m read).1.regs ∧
      (updateImage math m read).1.regs.length = mapRegs := by
  have hvalid : ∀ s, (m.src s).isSome = true → (read s).2 = true := by
    intro s hs
    by_contra hr
    exact h s ⟨hs, by simpa using hr⟩
  have hnone : (allReads m read).invalid = none := by
    have hsome : ¬ (allReads m read).invalid.isSome = true := by
      unfold allReads
      rw [foldl_invalidAfter, invalidAfter_isSome]
      rintro (h' | ⟨s, -, hs⟩)
      · cases h'
      · exact h s hs
    simpa using hsome
  rw [updateSteps_eq, hnone]
  have heq := updateMapping_eq math hregs read
  have hlength : (updateMapping math m read).1.regs.length = mapRegs := by
    rw [updateMapping_regs math hregs hvalid]
    exact length_image ..
  have hconfig : (updateMapping math m read).1.config = m.config := by
    rw [updateMapping_valid math hvalid]
    simp only [Meter.config]
  rw [← heq]
  exact ⟨rfl, hconfig, rfl, hlength⟩

/-- The image does not depend on what the registers held. -/
theorem updateImage_config (math : Math) {m n : Meter} {read : Src → ℚ × Bool} (h : m.config = n.config)
    (hvalid : ∀ s, ¬ Invalid n read s) : (updateImage math m read).1.regs = (updateImage math n read).1.regs := by
  rw [Meter.eq_of_config h]
  have hnone : ¬ (invalidAfter n read Src.all none).isSome = true := by
    rw [invalidAfter_isSome]
    rintro (h' | ⟨s, -, hs⟩)
    · cases h'
    · exact hvalid s hs
  have hnone' : ¬ (invalidAfter { n with regs := m.regs, unavailable := m.unavailable } read Src.all none).isSome =
      true := hnone
  unfold updateImage
  dsimp only
  rw [if_neg hnone, if_neg hnone']
  rfl

/-! ## The invariant -/

/-- What is done with a socket is done while it is open. -/
def rules : Rules Nat Event where
  needs _ _ := False
  uses _ _ := False
  allows
    | .receive fd, held => held fd = true
    | .reply fd _, held => held fd = true

structure Server.Inv (meters : List Meter) (s : Server) : Prop where
  length : s.clientFds.length = maxClients
  opened : ∀ fd, s.book.held fd = true ↔ some fd ∈ s.clientFds
  distinct : ∀ (i j fd : Nat), s.clientFds[i]? = some (some fd) → s.clientFds[j]? = some (some fd) → i = j
  config : s.meters.map Meter.config = meters.map Meter.config
  regs : ∀ m ∈ s.meters, m.regs.length = mapRegs

/-- The acts that lead from one server to a later one. -/
structure Server.Does (s t : Server) (acts : List (Act Nat Event)) : Prop where
  log : t.book.log = s.book.log ++ acts
  legal : LegalRun rules s.book.held acts
  held : t.book.held = s.book.held.afterAll acts

section Steps

variable {meters : List Meter} {s t u : Server} {acts acts' : List (Act Nat Event)}

theorem Server.Does.trans (h : s.Does t acts) (h' : t.Does u acts') : s.Does u (acts ++ acts') where
  log := by rw [h'.log, h.log, List.append_assoc]
  legal := legalRun_append.mpr ⟨h.legal, h.held ▸ h'.legal⟩
  held := by rw [h'.held, h.held, Held.afterAll, Held.afterAll, Held.afterAll, List.foldl_append]

theorem Server.Does.refl (s : Server) : s.Does s [] := ⟨(List.append_nil _).symm, trivial, rfl⟩

/-- Only the book, the sockets and the meters matter. -/
theorem Server.Inv.congr (h : s.Inv meters) (hfds : t.clientFds = s.clientFds) (hheld : t.book.held = s.book.held)
    (hmeters : t.meters = s.meters) : t.Inv meters where
  length := hfds ▸ h.length
  opened := by rw [hfds, hheld]; exact h.opened
  distinct := by rw [hfds]; exact h.distinct
  config := hmeters ▸ h.config
  regs := hmeters ▸ h.regs

theorem Server.closeClient_spec (h : s.Inv meters) {idx fd : Nat} (hfd : s.clientFds[idx]? = some (some fd)) :
    s.Does (s.closeClient idx) [.drop fd] ∧ (s.closeClient idx).Inv meters ∧
      (s.closeClient idx).clientFds = s.clientFds.set idx none := by
  have hheld : s.book.held fd = true := (h.opened fd).mpr (List.mem_of_getElem? hfd)
  unfold closeClient
  rw [hfd]
  dsimp only
  have hdrop : Legal rules s.book.held (.drop fd) := ⟨hheld, fun q hq => hq.elim False.elim False.elim⟩
  refine ⟨⟨rfl, ⟨hdrop, trivial⟩, rfl⟩, ⟨?_, fun q => ?_, fun i j q hi hj => ?_, h.config, h.regs⟩, rfl⟩
  · change (s.clientFds.set idx none).length = _
    rw [List.length_set]
    exact h.length
  · change s.book.held.remove [fd] q = true ↔ some q ∈ s.clientFds.set idx none
    rw [Held.remove_eq_true, h.opened, List.mem_singleton]
    constructor
    · rintro ⟨hq, hne⟩
      obtain ⟨i, hi⟩ := List.mem_iff_getElem?.mp hq
      refine List.mem_iff_getElem?.mpr ⟨i, ?_⟩
      rw [List.getElem?_set_ne, hi]
      rintro rfl
      rw [hfd] at hi
      exact hne (Option.some.inj (Option.some.inj hi)).symm
    · intro hq
      obtain ⟨i, hi⟩ := List.mem_iff_getElem?.mp hq
      have hne : idx ≠ i := by
        rintro rfl
        rw [List.getElem?_set_self (List.getElem?_eq_some_iff.mp hfd).1] at hi
        cases hi
      rw [List.getElem?_set_ne hne] at hi
      refine ⟨List.mem_of_getElem? hi, ?_⟩
      rintro rfl
      exact hne (h.distinct idx i q hfd hi)
  · have hget : ∀ k : Nat, (s.clientFds.set idx none)[k]? = some (some q) → s.clientFds[k]? = some (some q) := by
      intro k hk
      rw [List.getElem?_set] at hk
      split at hk
      · split at hk <;> cases hk
      · exact hk
    exact h.distinct i j q (hget i hi) (hget j hj)

theorem Server.setClient_spec (h : s.Inv meters) {i fd : Nat} (hi : s.clientFds[i]? = some none)
    (hfd : s.book.held fd = false) : ((s.act (.take fd)).setClient i (some fd)).Inv meters := by
  have hlt := (List.getElem?_eq_some_iff.mp hi).1
  have hfree : some fd ∉ s.clientFds := by
    rw [← h.opened, hfd]
    simp
  have hget : ∀ (k q : Nat), (s.clientFds.set i (some fd))[k]? = some (some q) →
      k = i ∧ q = fd ∨ k ≠ i ∧ s.clientFds[k]? = some (some q) := by
    intro k q hk
    by_cases hki : i = k
    · subst hki
      rw [List.getElem?_set_self hlt] at hk
      exact .inl ⟨rfl, (Option.some.inj (Option.some.inj hk)).symm⟩
    · rw [List.getElem?_set_ne hki] at hk
      exact .inr ⟨Ne.symm hki, hk⟩
  refine ⟨?_, fun q => ?_, fun j k q hj hk => ?_, h.config, h.regs⟩
  · change (s.clientFds.set i (some fd)).length = _
    rw [List.length_set]
    exact h.length
  · change s.book.held.add [fd] q = true ↔ some q ∈ s.clientFds.set i (some fd)
    rw [Held.add_eq_true, h.opened, List.mem_singleton]
    constructor
    · rintro (hq | rfl)
      · obtain ⟨k, hk⟩ := List.mem_iff_getElem?.mp hq
        refine List.mem_iff_getElem?.mpr ⟨k, ?_⟩
        rw [List.getElem?_set_ne, hk]
        rintro rfl
        rw [hi] at hk
        cases hk
      · exact List.mem_of_getElem? (List.getElem?_set_self hlt)
    · intro hq
      obtain ⟨k, hk⟩ := List.mem_iff_getElem?.mp hq
      rcases hget k q hk with ⟨-, hq⟩ | ⟨-, hk⟩
      · exact .inr hq
      · exact .inl (List.mem_of_getElem? hk)
  · rcases hget j q hj with ⟨hji, hq⟩ | ⟨-, hj'⟩ <;> rcases hget k q hk with ⟨hki, hq'⟩ | ⟨-, hk'⟩
    · exact hji.trans hki.symm
    · exact absurd (hq ▸ List.mem_of_getElem? hk') hfree
    · exact absurd (hq' ▸ List.mem_of_getElem? hj') hfree
    · exact h.distinct j k q hj' hk'

/-- Accepting a connection leaves the other clients alone. -/
theorem Server.acceptClient_spec (h : s.Inv meters) {fd : Option Nat}
    (hfd : ∀ q, fd = some q → s.book.held q = false) :
    ∃ acts, s.Does (s.acceptClient fd) acts ∧ (s.acceptClient fd).Inv meters ∧
      (∀ a ∈ acts, ∀ e, a ≠ .event e) ∧
      ∀ (i q : Nat), s.book.held q = true →
        ((s.acceptClient fd).clientFds[i]? = some (some q) ↔ s.clientFds[i]? = some (some q)) := by
  cases fd with
  | none =>
    have hsame : (s.acceptClient none).book = s.book ∧ (s.acceptClient none).clientFds = s.clientFds ∧
        (s.acceptClient none).meters = s.meters := by
      unfold acceptClient
      dsimp only
      split <;> exact ⟨rfl, rfl, rfl⟩
    refine ⟨[], ⟨by rw [hsame.1]; exact (List.append_nil _).symm, trivial, by rw [hsame.1]; rfl⟩,
      h.congr hsame.2.1 (by rw [hsame.1]) hsame.2.2, by simp, fun i q _ => by rw [hsame.2.1]⟩
  | some fd =>
    have hfd := hfd fd rfl
    have htake : Legal rules s.book.held (.take fd) := ⟨hfd, fun q hq => hq.elim⟩
    cases hfind : s.clientFds.findIdx? (·.isNone) with
    | some i =>
      obtain ⟨hlt, hnone, -⟩ := List.findIdx?_eq_some_iff_getElem.mp hfind
      have hi : s.clientFds[i]? = some none := by
        rw [List.getElem?_eq_getElem hlt, Option.isNone_iff_eq_none.mp hnone]
      have hsame : (s.acceptClient (some fd)).book = (s.act (.take fd)).book ∧
          (s.acceptClient (some fd)).clientFds = s.clientFds.set i (some fd) ∧
          (s.acceptClient (some fd)).meters = s.meters := by
        unfold acceptClient
        dsimp only [act]
        rw [hfind]
        dsimp only [setClient]
        cases s.clientsFull <;> exact ⟨rfl, rfl, rfl⟩
      refine ⟨[.take fd], ⟨by rw [hsame.1]; rfl, ⟨htake, trivial⟩, by rw [hsame.1]; rfl⟩,
        (Server.setClient_spec h hi hfd).congr hsame.2.1 (by rw [hsame.1]; rfl) hsame.2.2, by simp, fun j q hq => ?_⟩
      rw [hsame.2.1]
      by_cases hij : i = j
      · subst hij
        rw [List.getElem?_set_self hlt, hi]
        constructor
        · intro heq
          rw [← Option.some.inj (Option.some.inj heq), hfd] at hq
          cases hq
        · intro heq
          cases heq
      · rw [List.getElem?_set_ne hij]
    | none =>
      have hsame : (s.acceptClient (some fd)).book = ((s.act (.take fd)).act (.drop fd)).book ∧
          (s.acceptClient (some fd)).clientFds = s.clientFds ∧ (s.acceptClient (some fd)).meters = s.meters := by
        unfold acceptClient
        dsimp only [act]
        rw [hfind]
        dsimp only
        cases s.clientsFull <;> exact ⟨rfl, rfl, rfl⟩
      have hheld : (s.acceptClient (some fd)).book.held = s.book.held := by
        rw [hsame.1]
        exact take_drop_held hfd
      refine ⟨[.take fd, .drop fd], ⟨by rw [hsame.1]; exact List.append_assoc ..,
        ⟨htake, ⟨?_, fun q hq => ?_⟩, trivial⟩, by rw [hsame.1]; rfl⟩,
        h.congr hsame.2.1 hheld hsame.2.2, by simp, fun j q hq => by rw [hsame.2.1]⟩
      · simp [Held.after, Held.add]
      · exact hq.elim False.elim False.elim

/-! ## Requests -/

theorem Server.answer_spec (math : Math) (h : s.Inv meters) {idx : Nat} {m : Meter} (hm : s.meters[idx]? = some m)
    (function : Nat) (read : Src → ℚ × Bool) :
    (s.answer math idx m function read).1.Inv meters ∧ (s.answer math idx m function read).1.book = s.book ∧
      (s.answer math idx m function read).1.socket = s.socket ∧
      (s.answer math idx m function read).1.clientFds = s.clientFds ∧
      ∃ m₀ ∈ meters, m₀.unitId = m.unitId ∧ Answers math m₀ function read (s.answer math idx m function read).2 := by
  obtain ⟨m₀, hm₀, hconfig⟩ : ∃ m₀ ∈ meters, m₀.config = m.config := by
    have hmem : m.config ∈ s.meters.map Meter.config := List.mem_map_of_mem (List.mem_of_getElem? hm)
    rw [h.config] at hmem
    obtain ⟨m₀, hm₀, heq⟩ := List.mem_map.mp hmem
    exact ⟨m₀, hm₀, heq⟩
  have hid : m₀.unitId = m.unitId := by rw [Meter.eq_of_config hconfig]
  have hinvalid : ∀ src, Invalid m₀ read src ↔ Invalid m read src := by
    intro src
    rw [Meter.eq_of_config hconfig]
    exact Iff.rfl
  have hupdate : (updateSteps math m read).meter.config = m.config ∧
      (updateSteps math m read).meter.regs.length = mapRegs := by
    have hregs := h.regs m (List.mem_of_getElem? hm)
    by_cases hbad : ∃ src, Invalid m read src
    · rw [(updateSteps_fails math hbad).2]
      exact ⟨rfl, hregs⟩
    · obtain ⟨-, hconf, himage, hlen⟩ := updateSteps_ok math hregs (not_exists.mp hbad)
      exact ⟨hconf, by rw [himage, hlen]⟩
  have hinv : ∀ messages, ({ s with
      meters := s.meters.set idx (updateSteps math m read).meter
      messages := messages } : Server).Inv meters := by
    intro messages
    refine ⟨h.length, h.opened, h.distinct, ?_, fun m' hm' => ?_⟩
    · dsimp only
      rw [List.map_set, hupdate.1, ← h.config]
      refine List.ext_getElem? fun i => ?_
      rw [List.getElem?_set]
      split
      · rename_i hi
        subst hi
        split
        · simp [hm]
        · rename_i hlt
          simp at hlt
          simp [hlt]
      · rfl
    · rcases List.mem_or_eq_of_mem_set hm' with hm' | rfl
      · exact h.regs m' hm'
      · exact hupdate.2
  unfold answer
  split
  · rename_i hf
    exact ⟨h, rfl, rfl, rfl, m₀, hm₀, hid, .illegalFunction hf⟩
  rename_i hf
  have hf : function = 3 := by simpa using hf
  dsimp only
  split
  · rename_i hret
    refine ⟨hinv _, rfl, rfl, rfl, m₀, hm₀, hid, .serverFailure hf ?_⟩
    by_contra hok
    have hok : ∀ src, ¬ Invalid m read src := fun src hs => hok ⟨src, (hinvalid src).mpr hs⟩
    rw [(updateSteps_ok math (h.regs m (List.mem_of_getElem? hm)) hok).1] at hret
    omega
  · rename_i hret
    have hok : ∀ src, ¬ Invalid m read src := fun src hs => hret (by rw [(updateSteps_fails math ⟨src, hs⟩).1]; omega)
    refine ⟨hinv _, rfl, rfl, rfl, m₀, hm₀, hid, ?_⟩
    dsimp only
    have hok' : ∀ src, ¬ Invalid m₀ read src := fun src hs => hok src ((hinvalid src).mp hs)
    rw [(updateSteps_ok math (h.regs m (List.mem_of_getElem? hm)) hok).2.2.1,
      updateImage_config math hconfig.symm hok']
    exact .registers hf hok'

theorem Server.handleClient_spec (math : Math) (h : s.Inv meters) {idx fd : Nat}
    (hfd : s.clientFds[idx]? = some (some fd)) (received : Received) :
    ∃ acts, Exchange math meters fd received acts ∧ s.Does (s.handleClient math idx fd received) acts ∧
      (s.handleClient math idx fd received).Inv meters ∧
      ∀ j : Nat, j ≠ idx → (s.handleClient math idx fd received).clientFds[j]? = s.clientFds[j]? := by
  have hheld : s.book.held fd = true := (h.opened fd).mpr (List.mem_of_getElem? hfd)
  let r := ({ s with socket := fd } : Server).act (.event (.receive fd))
  have hr : r.Inv meters := h.congr rfl rfl rfl
  have hdoes : s.Does r [.event (.receive fd)] := ⟨rfl, ⟨hheld, trivial⟩, rfl⟩
  have hother : ∀ {v : Server} (j : Nat), v.clientFds = s.clientFds.set idx none → j ≠ idx →
      v.clientFds[j]? = s.clientFds[j]? := by
    intro v j hv hj
    rw [hv, List.getElem?_set_ne hj.symm]
  cases received with
  | failed =>
    obtain ⟨hclose, hinv, hfds⟩ := Server.closeClient_spec hr hfd
    exact ⟨_, .failed, hdoes.trans hclose, hinv, fun j => hother j hfds⟩
  | ignored => exact ⟨_, .ignored, hdoes, hr, fun _ _ => rfl⟩
  | request unitId function read sent =>
    cases hfind : r.meters.findIdx? (·.unitId = (unitId : Int)) with
    | none =>
      have hrun : s.handleClient math idx fd (.request unitId function read sent) = r := by
        change (match r.meters.findIdx? (·.unitId = (unitId : Int)) with
          | none => r
          | some k => _) = _
        rw [hfind]
      rw [hrun]
      refine ⟨_, .unknown ?_, hdoes, hr, fun _ _ => rfl⟩
      intro m hm hid
      have hmem : m.config ∈ r.meters.map Meter.config := by
        rw [hr.config]
        exact List.mem_map_of_mem hm
      obtain ⟨m', hm', heq⟩ := List.mem_map.mp hmem
      have := List.findIdx?_eq_none_iff.mp hfind m' hm'
      rw [Meter.eq_of_config heq] at this
      simp [hid] at this
    | some k =>
      obtain ⟨hlt, hid, -⟩ := List.findIdx?_eq_some_iff_getElem.mp hfind
      have hk : r.meters[k]? = some r.meters[k] := List.getElem?_eq_getElem hlt
      obtain ⟨hans, hbook, hsocket, hfds, m, hm, hmid, hanswers⟩ := Server.answer_spec math hr hk function read
      have hunit : m.unitId = unitId := hmid.trans (by simpa using hid)
      let a := r.answer math k r.meters[k] function read
      have hreply : r.Does (a.1.act (.event (.reply a.1.socket a.2))) [.event (.reply fd a.2)] := by
        have hsock : a.1.socket = fd := hsocket
        rw [hsock]
        refine ⟨?_, ⟨hheld, trivial⟩, ?_⟩
        · change a.1.book.log ++ _ = _
          rw [hbook]
        · change a.1.book.held = _
          rw [hbook]
          rfl
      have hinv : (a.1.act (.event (.reply a.1.socket a.2))).Inv meters := hans.congr rfl rfl rfl
      have hfds' : (a.1.act (.event (.reply a.1.socket a.2))).clientFds = s.clientFds := hfds
      have hrun : s.handleClient math idx fd (.request unitId function read sent) =
          if sent then a.1.act (.event (.reply a.1.socket a.2)) else
            (a.1.act (.event (.reply a.1.socket a.2))).closeClient idx := by
        change (match r.meters.findIdx? (·.unitId = (unitId : Int)) with
          | none => r
          | some k => match r.meters[k]? with
            | none => r
            | some m => _) = _
        rw [hfind]
        dsimp only
        rw [hk]
      refine ⟨_, .answered hm hunit hanswers, ?_⟩
      rw [hrun]
      cases sent with
      | true =>
        refine ⟨?_, hinv, fun j _ => by rw [← hfds']; rfl⟩
        rw [if_pos rfl, if_pos rfl, List.append_nil]
        exact hdoes.trans hreply
      | false =>
        obtain ⟨hclose, hinv', hset⟩ := Server.closeClient_spec hinv (hfds'.symm ▸ hfd)
        refine ⟨?_, hinv', fun j => hother j (hset.trans (by rw [hfds']))⟩
        rw [if_neg Bool.false_ne_true, if_neg Bool.false_ne_true]
        exact (hdoes.trans hreply).trans hclose

/-! ## Passes -/

/-- The client in slot `idx` is served. -/
def Server.ready (s : Server) (w : Wake) (idx : Nat) : Bool := (s.clientFds[idx]?.join).any (· ∈ w.ready)

/-- What a pass does for the clients in the slots `l`. -/
def Server.Serves (math : Math) (meters : List Meter) (s : Server) (w : Wake) (l : List Nat)
    (exchanges : List (List (Act Nat Event))) : Prop :=
  List.Forall₂ (fun idx acts => ∃ fd, s.clientFds[idx]? = some (some fd) ∧
    Exchange math meters fd (w.received idx) acts) (l.filter (s.ready w)) exchanges

theorem Server.handleReady_spec (math : Math) (h : s.Inv meters) (w : Wake) {l : List Nat} (hl : l.Nodup) :
    ∃ exchanges, s.Serves math meters w l exchanges ∧ s.Does (l.foldl (handleReady math w) s) exchanges.flatten ∧
      (l.foldl (handleReady math w) s).Inv meters := by
  induction l generalizing s with
  | nil => exact ⟨[], .nil, .refl s, h⟩
  | cons idx l ih =>
    rw [List.nodup_cons] at hl
    -- the other slots are not touched
    have hstep : ∃ acts, s.Serves math meters w [idx] acts ∧ s.Does (s.handleReady math w idx) acts.flatten ∧
        (s.handleReady math w idx).Inv meters ∧
        ∀ j : Nat, j ≠ idx → (s.handleReady math w idx).clientFds[j]? = s.clientFds[j]? := by
      by_cases hready : s.ready w idx = true
      · obtain ⟨fd, hfd, hmem⟩ : ∃ fd, s.clientFds[idx]? = some (some fd) ∧ fd ∈ w.ready := by
          unfold ready at hready
          cases hget : s.clientFds[idx]? with
          | none => simp [hget] at hready
          | some client =>
            cases client with
            | none => simp [hget] at hready
            | some fd => exact ⟨fd, rfl, by simpa [hget] using hready⟩
        obtain ⟨acts, hex, hdoes, hinv, hother⟩ := Server.handleClient_spec math h hfd (w.received idx)
        have heq : s.handleReady math w idx = s.handleClient math idx fd (w.received idx) := by
          unfold handleReady
          rw [hfd]
          exact if_pos hmem
        refine ⟨[acts], ?_, ?_, heq ▸ hinv, heq ▸ hother⟩
        · unfold Serves
          rw [List.filter_cons_of_pos hready]
          exact .cons ⟨fd, hfd, hex⟩ .nil
        · rw [heq, List.flatten_singleton]
          exact hdoes
      · have heq : s.handleReady math w idx = s := by
          unfold handleReady
          split
          · rename_i fd hfd
            refine if_neg fun hmem => hready ?_
            simpa [ready, hfd] using hmem
          · rfl
        refine ⟨[], ?_, by rw [heq]; exact .refl s, heq.symm ▸ h, fun j _ => by rw [heq]⟩
        unfold Serves
        rw [List.filter_cons_of_neg hready]
        exact .nil
    obtain ⟨acts, hacts, hdoes, hinv, hother⟩ := hstep
    obtain ⟨exchanges, hserves, hdoes', hinv'⟩ := ih hinv hl.2
    refine ⟨acts ++ exchanges, ?_, by rw [List.flatten_append]; exact hdoes.trans hdoes', hinv'⟩
    have hsame : ∀ j ∈ l, (s.handleReady math w idx).clientFds[j]? = s.clientFds[j]? := fun j hj =>
      hother j fun heq => hl.1 (heq ▸ hj)
    unfold Serves at hacts hserves ⊢
    have hfilter : l.filter ((s.handleReady math w idx).ready w) = l.filter (s.ready w) :=
      List.filter_congr fun j hj => by simp only [ready, hsame j hj]
    rw [hfilter] at hserves
    have hcons : (idx :: l).filter (s.ready w) = [idx].filter (s.ready w) ++ l.filter (s.ready w) := by
      rw [← List.filter_append]
      rfl
    rw [hcons]
    refine List.rel_append hacts ?_
    have hmem := (List.forall₂_and_left _ _).mpr ⟨fun j hj => List.mem_of_mem_filter hj, hserves⟩
    refine hmem.imp fun j acts h => ?_
    rw [← hsame j h.1]
    exact h.2

theorem Server.pass_spec (math : Math) (h : s.Inv meters) {w : Wake} (hw : s.Possible w) :
    ∃ accepts exchanges, s.Does (s.pass math w) (accepts ++ exchanges.flatten) ∧ (∀ a ∈ accepts, ∀ e, a ≠ .event e) ∧
      s.Serves math meters w (List.range maxClients) exchanges ∧ (s.pass math w).Inv meters := by
  have haccept : ∃ v acts, s.pass math w = (List.range maxClients).foldl (handleReady math w) v ∧ s.Does v acts ∧
      v.Inv meters ∧ (∀ a ∈ acts, ∀ e, a ≠ .event e) ∧
      ∀ (i q : Nat), s.book.held q = true → (v.clientFds[i]? = some (some q) ↔ s.clientFds[i]? = some (some q)) := by
    unfold pass
    cases hw' : w.accept with
    | none => exact ⟨s, [], rfl, .refl s, h, by simp, fun _ _ _ => Iff.rfl⟩
    | some fd =>
      have hfree : ∀ q, fd = some q → s.book.held q = false := by
        intro q hq
        simpa [hw', hq] using hw.2
      obtain ⟨acts, hdoes, hinv, hevents, hsame⟩ := Server.acceptClient_spec h hfree
      exact ⟨_, acts, rfl, hdoes, hinv, hevents, hsame⟩
  obtain ⟨v, accepts, hpass, hdoes, hinv, hevents, hsame⟩ := haccept
  obtain ⟨exchanges, hserves, hdoes', hinv'⟩ := Server.handleReady_spec math hinv w List.nodup_range
  rw [hpass]
  refine ⟨accepts, exchanges, hdoes.trans hdoes', hevents, ?_, hinv'⟩
  -- `select` reports only clients that were there before
  have hfds : ∀ i fd, fd ∈ w.ready → (v.clientFds[i]? = some (some fd) ↔ s.clientFds[i]? = some (some fd)) :=
    fun i fd hmem => hsame i fd ((h.opened fd).mpr (hw.1 fd hmem))
  have hready_iff : ∀ (r : Server) i, r.ready w i = true ↔ ∃ fd, r.clientFds[i]? = some (some fd) ∧ fd ∈ w.ready := by
    intro r i
    unfold ready
    rw [Option.any_eq_true]
    simp [Option.join_eq_some_iff]
  have hready : v.ready w = s.ready w := by
    funext i
    rw [Bool.eq_iff_iff, hready_iff, hready_iff]
    exact exists_congr fun fd => and_congr_left (hfds i fd)
  unfold Serves at hserves ⊢
  rw [hready] at hserves
  have hmem := (List.forall₂_and_left _ _).mpr ⟨fun j hj => List.of_mem_filter hj, hserves⟩
  refine hmem.imp fun i acts hi => ?_
  obtain ⟨hi, fd, hfd, hex⟩ := hi
  obtain ⟨fd', hfd', hmem⟩ := (hready_iff s i).mp hi
  rw [(hfds i fd' hmem).mpr hfd'] at hfd
  cases hfd
  exact ⟨_, hfd', hex⟩

/-! ## Runs -/

def Server.start (meters : List Meter) : Server := { meters := meters }

theorem Server.start_inv (hmeters : ∀ m ∈ meters, m.regs.length = mapRegs) : (start meters).Inv meters where
  length := rfl
  opened := by
    intro fd
    simp [start]
  distinct := by
    intro i j fd hi
    have := List.mem_of_getElem? hi
    simp [start] at this
  config := rfl
  regs := hmeters

theorem Server.run_spec (math : Math) {wakes : List Wake} (h : s.Inv meters) (hrun : Lib.Run (step math) s wakes t) :
    t.Inv meters ∧ Goes rules s.book t.book := by
  induction wakes generalizing s with
  | nil =>
    rw [(Lib.run_nil s t).mp hrun] at h ⊢
    exact ⟨h, .refl _⟩
  | cons w wakes ih =>
    obtain ⟨u, hstep, hrun⟩ := (Lib.run_cons s w wakes t).mp hrun
    unfold step at hstep
    split at hstep
    · rename_i hw
      obtain ⟨accepts, exchanges, hdoes, -, -, hinv⟩ := Server.pass_spec math h hw
      cases hstep
      obtain ⟨hinv', hgoes⟩ := ih hinv hrun
      exact ⟨hinv', Goes.trans ⟨_, hdoes.log, hdoes.legal, hdoes.held⟩ hgoes⟩
    · cases hstep

/-- Closing the clients in the slots `l`. -/
theorem Server.closeAll_spec (h : s.Inv meters) (l : List Nat) :
    Goes rules s.book (l.foldl closeClient s).book ∧ (l.foldl closeClient s).Inv meters ∧
      ∀ (i fd : Nat), (l.foldl closeClient s).clientFds[i]? = some (some fd) →
        i ∉ l ∧ s.clientFds[i]? = some (some fd) := by
  induction l generalizing s with
  | nil => exact ⟨.refl _, h, fun i fd hi => ⟨List.not_mem_nil, hi⟩⟩
  | cons idx l ih =>
    have hclose : Goes rules s.book (s.closeClient idx).book ∧ (s.closeClient idx).Inv meters ∧
        ∀ (i fd : Nat), (s.closeClient idx).clientFds[i]? = some (some fd) →
          i ≠ idx ∧ s.clientFds[i]? = some (some fd) := by
      by_cases hget : ∃ fd, s.clientFds[idx]? = some (some fd)
      · obtain ⟨fd, hfd⟩ := hget
        obtain ⟨hdoes, hinv, hfds⟩ := Server.closeClient_spec h hfd
        refine ⟨⟨_, hdoes.log, hdoes.legal, hdoes.held⟩, hinv, fun i q hi => ?_⟩
        rw [hfds] at hi
        by_cases hidx : idx = i
        · subst hidx
          rw [List.getElem?_set_self (List.getElem?_eq_some_iff.mp hfd).1] at hi
          cases hi
        · rw [List.getElem?_set_ne hidx] at hi
          exact ⟨Ne.symm hidx, hi⟩
      · have heq : s.closeClient idx = s := by
          unfold closeClient
          split
          · exact absurd ⟨_, ‹_›⟩ hget
          · rfl
        rw [heq]
        refine ⟨.refl _, h, fun i fd hi => ⟨?_, hi⟩⟩
        rintro rfl
        exact hget ⟨fd, hi⟩
    obtain ⟨hgoes, hinv, hfds⟩ := hclose
    obtain ⟨hgoes', hinv', hfds'⟩ := ih hinv
    refine ⟨hgoes.trans hgoes', hinv', fun i fd hi => ?_⟩
    obtain ⟨hl, hi⟩ := hfds' i fd hi
    obtain ⟨hne, hi⟩ := hfds i fd hi
    exact ⟨fun hmem => (List.mem_cons.mp hmem).elim hne hl, hi⟩

theorem Server.shutdown_spec (h : s.Inv meters) :
    Goes rules s.book s.shutdown.book ∧ ∀ fd, s.shutdown.book.held fd = false := by
  obtain ⟨hgoes, hinv, hfds⟩ := Server.closeAll_spec h (List.range maxClients)
  refine ⟨hgoes, fun fd => ?_⟩
  by_contra hfd
  obtain ⟨i, hi⟩ := List.mem_iff_getElem?.mp ((hinv.opened fd).mp (Bool.not_eq_false _ ▸ hfd))
  refine (hfds i fd hi).1 (List.mem_range.mpr ?_)
  rw [← hinv.length]
  exact (List.getElem?_eq_some_iff.mp hi).1

theorem Server.Inv.few (h : s.Inv meters) {fds : List Nat} (hnodup : fds.Nodup)
    (hfds : ∀ fd ∈ fds, s.book.held fd = true) : fds.length ≤ maxClients := by
  have hsub : fds.map some ⊆ s.clientFds := by
    intro client hclient
    obtain ⟨fd, hfd, rfl⟩ := List.mem_map.mp hclient
    exact (h.opened fd).mp (hfds fd hfd)
  rw [← h.length, ← List.length_map some]
  exact ((hnodup.map (Option.some_injective _)).subperm hsub).length_le

end Steps

/-! ## Main results -/

/-- **Every request has one answer.** A pass of the server serves each client that `select` reports once, in the order
of the slots: a request to a configured meter is answered on the client's own socket, from this meter alone, and a
request to another unit is not answered. -/
theorem requests_answered (math : Math) {meters : List Meter} (hmeters : ∀ m ∈ meters, m.regs.length = mapRegs)
    {wakes : List Wake} {s t : Server} (hrun : Lib.Run (Server.step math) (Server.start meters) wakes s) {w : Wake}
    (hstep : s.step math w = some t) :
    ∃ accepts exchanges, t.book.log = s.book.log ++ (accepts ++ exchanges.flatten) ∧
      (∀ a ∈ accepts, ∀ e, a ≠ .event e) ∧ s.Serves math meters w (List.range maxClients) exchanges ∧
      ∀ fd ∈ w.ready, ∃ idx ∈ (List.range maxClients).filter (s.ready w), s.clientFds[idx]? = some (some fd) := by
  obtain ⟨hinv, -⟩ := Server.run_spec math (Server.start_inv hmeters) hrun
  unfold Server.step at hstep
  split at hstep
  · rename_i hw
    cases hstep
    obtain ⟨accepts, exchanges, hdoes, hevents, hserves, -⟩ := Server.pass_spec math hinv hw
    refine ⟨accepts, exchanges, hdoes.log, hevents, hserves, fun fd hfd => ?_⟩
    obtain ⟨idx, hidx⟩ := List.mem_iff_getElem?.mp (hw.1 fd hfd)
    refine ⟨idx, List.mem_filter.mpr ⟨List.mem_range.mpr ?_, ?_⟩, hidx⟩
    · rw [← hinv.length]
      exact (List.getElem?_eq_some_iff.mp hidx).1
    · simpa [Server.ready, hidx] using hfd
  · cases hstep

/-! Two clients: one asks for the registers while no source is valid, and the other one goes away. -/

def exampleAccept (fd : Nat) : Wake where
  ready := []
  accept := some (some fd)
  received := fun _ => .ignored

def exampleRequests : Wake where
  ready := [4, 7]
  accept := none
  received := fun idx => if idx = 0 then .request 5 3 (fun src => ((exampleRead 1 src).1, false)) true else .failed

def exampleFirst : Server := (Server.start [exampleMeter]).pass exampleMath (exampleAccept 4)

def exampleOpened : Server := exampleFirst.pass exampleMath (exampleAccept 7)

def exampleAnswered : Server := exampleOpened.pass exampleMath exampleRequests

theorem run_exampleOpened :
    Lib.Run (Server.step exampleMath) (.start [exampleMeter]) [exampleAccept 4, exampleAccept 7] exampleOpened :=
  (Lib.run_cons ..).mpr ⟨exampleFirst, Server.step_pass exampleMath (by decide +kernel),
    (Lib.run_cons ..).mpr ⟨_, Server.step_pass exampleMath (by decide +kernel), (Lib.run_nil ..).mpr rfl⟩⟩

theorem step_exampleRequests : exampleOpened.step exampleMath exampleRequests = some exampleAnswered :=
  Server.step_pass exampleMath (by decide +kernel)

theorem requests_answered_example : ∃ accepts exchanges,
    exampleAnswered.book.log = exampleOpened.book.log ++ (accepts ++ exchanges.flatten) ∧
      (∀ a ∈ accepts, ∀ e, a ≠ .event e) ∧
      exampleOpened.Serves exampleMath [exampleMeter] exampleRequests (List.range maxClients) exchanges := by
  obtain ⟨accepts, exchanges, hlog, hevents, hserves, -⟩ := requests_answered exampleMath
    (fun _ hm => List.mem_singleton.mp hm ▸ rfl) run_exampleOpened step_exampleRequests
  exact ⟨accepts, exchanges, hlog, hevents, hserves⟩

/-- **No socket is lost.** Over every run of the server, what is done with a socket is done while it is
open, no socket has two slots, at most `maxClients` sockets are open after a pass, and after the
shutdown each one has been closed as often as accepted. -/
theorem sockets_closed (math : Math) {meters : List Meter} (hmeters : ∀ m ∈ meters, m.regs.length = mapRegs)
    {wakes : List Wake} {s : Server} (hrun : Lib.Run (Server.step math) (Server.start meters) wakes s) :
    LegalRun rules (fun _ => false) s.shutdown.book.log ∧
      (∀ (i j fd : Nat), s.clientFds[i]? = some (some fd) → s.clientFds[j]? = some (some fd) → i = j) ∧
      (∀ fds : List Nat, fds.Nodup → (∀ fd ∈ fds, s.book.held fd = true) → fds.length ≤ maxClients) ∧
      ∀ fd, s.shutdown.book.held fd = false ∧ takes fd s.shutdown.book.log = drops fd s.shutdown.book.log := by
  obtain ⟨hinv, hgoes⟩ := Server.run_spec math (Server.start_inv hmeters) hrun
  obtain ⟨hshutdown, hfree⟩ := Server.shutdown_spec hinv
  obtain ⟨acts, hlog, hlegal, hheld⟩ := hgoes.trans hshutdown
  have hlog : s.shutdown.book.log = acts := hlog
  rw [hlog]
  refine ⟨hlegal, hinv.distinct, fun fds => hinv.few, fun fd => ⟨hfree fd, ?_⟩⟩
  have hbalance := hlegal.balance fd
  rw [← hheld, hfree fd] at hbalance
  exact hbalance

theorem sockets_closed_example : LegalRun rules (fun _ => false) exampleAnswered.shutdown.book.log ∧
    takes 4 exampleAnswered.shutdown.book.log = drops 4 exampleAnswered.shutdown.book.log := by
  have hrun := (Lib.run_append ..).mpr ⟨_, run_exampleOpened,
    (Lib.run_cons ..).mpr ⟨_, step_exampleRequests, (Lib.run_nil ..).mpr rfl⟩⟩
  have h := sockets_closed exampleMath (fun _ hm => List.mem_singleton.mp hm ▸ rfl) hrun
  exact ⟨h.1, (h.2.2.2 4).2⟩

end Uvrgw.Sunspec
