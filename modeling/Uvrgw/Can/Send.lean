import Mathlib.Data.List.Infix
import Mathlib.Logic.Function.Basic
import Uvrgw.Can.Code
import Uvrgw.Lib.Run

/-!
# Sending CAN frames (`can.c`)

`send_value` in the threads of the sources, `iface_task` in the TX thread. Each holds `send_buf_mutex` of
one frame at a time, the socket write included.
-/

namespace Uvrgw.Can

open Uvrgw.Lib

/-! ## Machine -/

/-- The part of `CAN_FRAME_T` that `send_buf_mutex` protects; id and length of `send_buf` are constant. -/
structure FrameState where
  sendBuf : List (BitVec 8) := List.replicate 8 0
  /-- 0 is idle. -/
  sendTime : Int := 0
  deriving DecidableEq, Repr

inductive Event where
  | dispatched (frame value : Nat) (f : ℚ)
  | written (frame : Nat) (data : List (BitVec 8))
  | failed (frame : Nat)
  deriving DecidableEq, Repr

structure State where
  frames : Nat → FrameState := fun _ => {}
  nextTimestamp : Int := 0
  /-- Inside `iface_task`: the next frame and the clock reading. -/
  task : Option (Nat × Int) := none
  log : List Event := []

inductive Act where
  /-- `send_value`, with its clock reading. -/
  | send (frame value : Nat) (f : ℚ) (now : Int)
  /-- `iface_task` up to the loop; `timestamp` is the success of `send_timestamp`. -/
  | start (now : Int) (timestamp : Bool)
  /-- A pass of the loop of `iface_task`, with the success of `iface_write`. -/
  | frame (ok : Bool)
  deriving DecidableEq, Repr

def FrameState.Due (x : FrameState) (now : Int) : Prop := x.sendTime ≠ 0 ∧ x.sendTime ≤ now

instance (x : FrameState) (now : Int) : Decidable (x.Due now) := by
  unfold FrameState.Due
  infer_instance

section Machine

variable (iface : Iface)

def Iface.output (i j : Nat) : Option CanVal := do
  let frame ← iface.frames[i]?
  guard (frame.dir = .output)
  frame.values[j]?

def sendValue (i j : Nat) (v : CanVal) (f : ℚ) (now : Int) (s : State) : State :=
  let x := s.frames i
  { s with
    frames := Function.update s.frames i {
      sendBuf := v.encode f x.sendBuf
      sendTime := if x.sendTime = 0 then now + iface.sendTimeout else x.sendTime }
    log := s.log ++ [.dispatched i j f] }

def startTask (now : Int) (timestamp : Bool) (s : State) : State :=
  if 0 < iface.timestampPeriod ∧ s.nextTimestamp ≤ now then
    { s with
      nextTimestamp := now + iface.timestampPeriod
      task := if timestamp then some (0, now) else none }
  else { s with task := some (0, now) }

def taskFrame (i : Nat) (now : Int) (ok : Bool) (s : State) : State :=
  match iface.frames[i]? with
  | none => { s with task := none }
  | some frame =>
    let x := s.frames i
    if frame.dir ≠ .output ∨ ¬ x.Due now then { s with task := some (i + 1, now) }
    else
      let s := { s with frames := Function.update s.frames i { x with sendTime := 0 } }
      if ok then { s with task := some (i + 1, now), log := s.log ++ [.written i x.sendBuf] }
      else { s with task := none, log := s.log ++ [.failed i] }

def step (s : State) : Act → Option State
  | .send i j f now => (iface.output i j).map fun v => sendValue iface i j v f now s
  | .start now timestamp => if s.task = none then some (startTask iface now timestamp s) else none
  | .frame ok => s.task.map fun x => taskFrame iface x.1 x.2 ok s

def Init (s : State) : Prop := s = {}

/-! ## What has been sent -/

def Event.writtenFor (i : Nat) : Event → Option (List (BitVec 8))
  | .written i' data => if i' = i then some data else none
  | _ => none

def Event.dispatchedFor (i j : Nat) : Event → Option ℚ
  | .dispatched i' j' f => if i' = i ∧ j' = j then some f else none
  | _ => none

/-- The bit that a dispatch puts at position `k` of frame `i`. -/
def Event.bitFor (i k : Nat) : Event → Option Bool
  | .dispatched i' j f =>
    if i' = i then (iface.output i j).bind fun v => if v.Covers k then some (v.bitFor f k) else none else none
  | _ => none

def lastWritten (i : Nat) (log : List Event) : Option (List (BitVec 8)) :=
  (log.filterMap (Event.writtenFor i)).getLast?

def latest (i j : Nat) (log : List Event) : Option ℚ := (log.filterMap (Event.dispatchedFor i j)).getLast?

def latestBit (i k : Nat) (log : List Event) : Option Bool := (log.filterMap (Event.bitFor iface i k)).getLast?

/-- No other value of the frame has a bit of this one. -/
def Alone (i j : Nat) (v : CanVal) : Prop :=
  ∀ j' w, iface.output i j' = some w → j' ≠ j → ∀ k, v.Covers k → ¬ w.Covers k

/-- The data bytes show `f` as the value. -/
def CanVal.Carried (v : CanVal) (f : ℚ) (data : List (BitVec 8)) : Prop :=
  ∀ k, v.Covers k → bitAt data k = v.bitFor f k

/-- The step writes inside the data bytes, does not arm the frame for time 0, and no write of a frame
that differs from the last written one fails. -/
def Kept (s : State) : Act → Prop
  | .send i j _ now =>
    (∀ v, iface.output i j = some v → v.InFrame) ∧
      ((s.frames i).sendTime = 0 → now + iface.sendTimeout ≠ 0)
  | .frame ok => ∀ i now, s.task = some (i, now) → (s.frames i).Due now →
      ok = true ∨ lastWritten i s.log = some (s.frames i).sendBuf
  | .start _ _ => True

instance (s : State) : ∀ a, Decidable (Kept iface s a)
  | .send i j _ now =>
    have : Decidable (∀ v, iface.output i j = some v → v.InFrame) :=
      match iface.output i j with
      | none => isTrue fun _ h => nomatch h
      | some v => decidable_of_iff v.InFrame ⟨fun h _ hw => Option.some.inj hw ▸ h, fun h => h v rfl⟩
    inferInstanceAs (Decidable (_ ∧ ((s.frames i).sendTime = 0 → now + iface.sendTimeout ≠ 0)))
  | .frame ok =>
    match h : s.task with
    | none => isTrue fun _ _ hi => by simp [h] at hi
    | some (i, now) =>
      decidable_of_iff ((s.frames i).Due now → ok = true ∨ lastWritten i s.log = some (s.frames i).sendBuf)
        (by simp [Kept, h])
  | .start _ _ => isTrue trivial

/-! ## Invariant -/

structure Inv (s : State) : Prop where
  length : ∀ i, (s.frames i).sendBuf.length = 8
  /-- Each bit is the one of the last dispatch that covers it. -/
  bits : ∀ i k b, latestBit iface i k s.log = some b → bitAt (s.frames i).sendBuf k = b
  /-- So it was in every written frame. -/
  written : ∀ pre i data, pre ++ [.written i data] <+: s.log →
    ∀ k b, latestBit iface i k pre = some b → bitAt data k = b
  idle : ∀ i, (s.frames i).sendTime = 0 → (∃ j f, .dispatched i j f ∈ s.log) →
    lastWritten i s.log = some (s.frames i).sendBuf

end Machine

section Steps

variable {iface : Iface} {s t : State}

theorem Inv.init (h : Init s) : Inv iface s := by
  subst h
  refine ⟨fun _ => rfl, fun i k b h => ?_, fun pre i data h => ?_, fun i _ ⟨j, f, h⟩ => ?_⟩
  · cases h
  · simp at h
  · cases h

theorem Inv.frame (h : Inv iface s) (hf : t.frames = s.frames) (hl : t.log = s.log) : Inv iface t := by
  constructor
  · rw [hf]
    exact h.length
  · rw [hf, hl]
    exact h.bits
  · rw [hl]
    exact h.written
  · rw [hf, hl]
    exact h.idle

theorem filterMap_concat {α β : Type} (g : α → Option β) (l : List α) (a : α) :
    ((l ++ [a]).filterMap g).getLast? = (g a).or (l.filterMap g).getLast? := by
  rw [List.filterMap_append]
  cases ha : g a with
  | none => simp [ha]
  | some b => simp [ha]

theorem latestBit_concat (i k : Nat) (log : List Event) (e : Event) :
    latestBit iface i k (log ++ [e]) = (e.bitFor iface i k).or (latestBit iface i k log) :=
  filterMap_concat ..

theorem lastWritten_concat (i : Nat) (log : List Event) (e : Event) :
    lastWritten i (log ++ [e]) = (e.writtenFor i).or (lastWritten i log) := filterMap_concat ..

theorem bitFor_dispatched {i j : Nat} {v : CanVal} (hv : iface.output i j = some v) (i' k : Nat) (f : ℚ) :
    Event.bitFor iface i' k (.dispatched i j f) =
      if i' = i then (if v.Covers k then some (v.bitFor f k) else none) else none := by
  by_cases hi : i' = i
  · subst hi
    simp [Event.bitFor, hv]
  · simp [Event.bitFor, hi, Ne.symm hi]

theorem sendValue_sendBuf (i j : Nat) (v : CanVal) (f : ℚ) (now : Int) (s : State) (i' : Nat) :
    ((sendValue iface i j v f now s).frames i').sendBuf =
      if i' = i then v.encode f (s.frames i).sendBuf else (s.frames i').sendBuf := by
  unfold Can.sendValue
  by_cases hi : i' = i
  · subst hi
    simp
  · simp [hi]

theorem taskFrame_sendBuf (i : Nat) (now : Int) (ok : Bool) (s : State) (i' : Nat) :
    ((taskFrame iface i now ok s).frames i').sendBuf = (s.frames i').sendBuf := by
  unfold taskFrame
  split
  · rfl
  · dsimp only
    split
    · rfl
    · by_cases hi : i' = i
      · subst hi
        cases ok <;> simp
      · cases ok <;> simp [hi]

/-- `data` of a frame has 8 bytes. -/
theorem length_sendBuf (hs : Reachable (Can.step iface) Init s) (i : Nat) : (s.frames i).sendBuf.length = 8 := by
  revert i
  apply hs.invariant
  · rintro s rfl i
    rfl
  · intro s a t ih _ hst i
    cases a with
    | send i' j f now =>
      obtain ⟨v, -, rfl⟩ := Option.map_eq_some_iff.mp hst
      rw [sendValue_sendBuf]
      split
      · rw [length_encode, ih]
      · exact ih i
    | start now timestamp =>
      simp only [Can.step, Option.ite_none_right_eq_some, Option.some.injEq] at hst
      obtain ⟨-, rfl⟩ := hst
      unfold startTask
      split <;> exact ih i
    | frame ok =>
      obtain ⟨⟨i', now⟩, -, rfl⟩ := Option.map_eq_some_iff.mp hst
      dsimp only
      rw [taskFrame_sendBuf]
      exact ih i

theorem Inv.sendValue (h : Inv iface s) {i j : Nat} {v : CanVal} (f : ℚ) {now : Int}
    (hv : iface.output i j = some v) (hkept : Kept iface s (.send i j f now)) :
    Inv iface (sendValue iface i j v f now s) := by
  obtain ⟨hin, hzero⟩ := hkept
  have hlog : (Can.sendValue iface i j v f now s).log = s.log ++ [.dispatched i j f] := rfl
  constructor
  · intro i'
    rw [sendValue_sendBuf]
    split
    · rw [length_encode]
      exact h.length i
    · exact h.length i'
  · intro i' k b hb
    rw [hlog, latestBit_concat, bitFor_dispatched hv] at hb
    rw [sendValue_sendBuf]
    split at hb
    · rename_i hi
      rw [if_pos hi, bitAt_encode (hin v hv) f (h.length i)]
      split at hb
      · rw [if_pos ‹_›]
        exact Option.some.inj hb
      · rw [if_neg ‹_›]
        exact h.bits i k b (hi ▸ hb)
    · rw [if_neg ‹_›]
      exact h.bits i' k b hb
  · intro pre i' data hpre
    rw [hlog] at hpre
    rcases List.prefix_concat_iff.mp hpre with heq | hpre
    · have := (List.append_inj' heq rfl).2
      simp at this
    · exact h.written pre i' data hpre
  · intro i' hidle hdisp
    rw [hlog] at hdisp
    by_cases hi : i' = i
    · -- the frame is armed
      subst hi
      simp only [Can.sendValue, Function.update_self] at hidle
      split at hidle
      · rename_i h0
        exact absurd hidle (hzero h0)
      · rename_i h0
        exact absurd hidle h0
    · simp only [Can.sendValue, Function.update_of_ne hi] at hidle
      rw [sendValue_sendBuf, if_neg hi, hlog, lastWritten_concat]
      refine h.idle i' hidle ?_
      obtain ⟨j', f', hmem⟩ := hdisp
      refine ⟨j', f', ?_⟩
      simpa [hi] using hmem

theorem Inv.write (h : Inv iface s) {i : Nat} {now : Int} {ok : Bool} (hdue : (s.frames i).Due now)
    (htask : s.task = some (i, now)) (hkept : Kept iface s (.frame ok)) (task : Option (Nat × Int)) :
    Inv iface { s with
      frames := Function.update s.frames i { s.frames i with sendTime := 0 }
      task := task
      log := s.log ++ [if ok then .written i (s.frames i).sendBuf else .failed i] } := by
  have hbuf : ∀ i', (Function.update s.frames i { s.frames i with sendTime := 0 } i').sendBuf =
      (s.frames i').sendBuf := by
    intro i'
    by_cases hi : i' = i
    · subst hi
      simp
    · simp [hi]
  constructor
  · intro i'
    rw [hbuf]
    exact h.length i'
  · intro i' k b hb
    rw [hbuf]
    refine h.bits i' k b ?_
    rw [latestBit_concat] at hb
    cases ok <;> exact hb
  · intro pre i' data hpre
    rcases List.prefix_concat_iff.mp hpre with heq | hpre
    · obtain ⟨rfl, hlast⟩ := List.append_inj' heq rfl
      cases ok with
      | false => simp at hlast
      | true =>
        obtain ⟨rfl, rfl⟩ : i' = i ∧ data = (s.frames i).sendBuf := by simpa using hlast
        exact h.bits i'
    · exact h.written pre i' data hpre
  · intro i' hidle hdisp
    have hdisp' : ∃ j f, .dispatched i' j f ∈ s.log := by
      obtain ⟨j, f, hmem⟩ := hdisp
      refine ⟨j, f, ?_⟩
      cases ok <;> simpa using hmem
    dsimp only
    rw [hbuf, lastWritten_concat]
    by_cases hi : i' = i
    · subst hi
      cases ok with
      | true => simp [Event.writtenFor]
      | false => exact (hkept i' now htask hdue).resolve_left (by simp)
    · have hnone : Event.writtenFor i' (if ok then .written i (s.frames i).sendBuf else .failed i) = none := by
        have hi' : i ≠ i' := fun e => hi e.symm
        cases ok <;> simp [Event.writtenFor, hi']
      rw [hnone]
      refine h.idle i' ?_ hdisp'
      simpa [hi] using hidle

theorem Inv.step (h : Inv iface s) {a : Act} (hkept : Kept iface s a) (hst : step iface s a = some t) :
    Inv iface t := by
  cases a with
  | send i j f now =>
    obtain ⟨v, hv, rfl⟩ := Option.map_eq_some_iff.mp hst
    exact h.sendValue f hv hkept
  | start now timestamp =>
    simp only [Can.step, Option.ite_none_right_eq_some, Option.some.injEq] at hst
    obtain ⟨-, rfl⟩ := hst
    unfold startTask
    split <;> exact h.frame rfl rfl
  | frame ok =>
    obtain ⟨⟨i, now⟩, htask, rfl⟩ := Option.map_eq_some_iff.mp hst
    unfold taskFrame
    dsimp only
    split
    · exact h.frame rfl rfl
    · split
      · exact h.frame rfl rfl
      · rename_i hdue
        rw [not_or, not_not] at hdue
        cases ok
        · exact h.write (not_not.mp hdue.2) htask hkept none
        · exact h.write (not_not.mp hdue.2) htask hkept (some (i + 1, now))

/-- For a value that shares no bit, the last bits are those of its last dispatch. -/
theorem latestBit_alone {i j k : Nat} {v : CanVal} (hv : iface.output i j = some v) (hal : Alone iface i j v)
    (hk : v.Covers k) (log : List Event) :
    latestBit iface i k log = (latest i j log).map (v.bitFor · k) := by
  have hevent : ∀ e, Event.bitFor iface i k e = (Event.dispatchedFor i j e).map (v.bitFor · k) := by
    intro e
    cases e with
    | written _ _ => rfl
    | failed _ => rfl
    | dispatched i' j' f =>
      by_cases hi : i' = i
      · by_cases hj : j' = j
        · simp [Event.bitFor, Event.dispatchedFor, hi, hj, hv, hk]
        · cases hw : iface.output i j' with
          | none => simp [Event.bitFor, Event.dispatchedFor, hi, hj, hw]
          | some w => simp [Event.bitFor, Event.dispatchedFor, hi, hj, hw, hal j' w hw hj k hk]
      · simp [Event.bitFor, Event.dispatchedFor, hi]
  unfold latestBit latest
  rw [funext hevent, ← List.getLast?_map, List.map_filterMap]

end Steps

/-- **No update is lost**, as long as every write of a changed frame succeeds: an idle frame has been sent
as it is, and every frame that was sent carried the latest bits, so the latest number of each value that
shares no bit with another one. -/
theorem no_lost_update (iface : Iface) (s t : State) (l : List Act) (hs : Init s)
    (hrun : Run (step iface) s l t) (hkept : Meets (step iface) (Kept iface) s l) (i : Nat) :
    ((t.frames i).sendTime = 0 → (∃ j f, .dispatched i j f ∈ t.log) →
      lastWritten i t.log = some (t.frames i).sendBuf) ∧
    ∀ pre data, pre ++ [.written i data] <+: t.log →
      (∀ k b, latestBit iface i k pre = some b → bitAt data k = b) ∧
      ∀ j v, iface.output i j = some v → Alone iface i j v → ∀ f, latest i j pre = some f → v.Carried f data := by
  have hinv : Inv iface t :=
    hrun.invariant_of_meets (fun u a w hu ha hst => hu.step ha hst) hkept (Inv.init hs)
  refine ⟨hinv.idle i, fun pre data hpre => ⟨hinv.written pre i data hpre, ?_⟩⟩
  intro j v hv hal f hf k hk
  apply hinv.written pre i data hpre
  rw [latestBit_alone hv hal hk, hf]
  rfl

/-! Interfaces with one frame: a number and a bit, and a bit only. -/

def pairIface : Iface :=
  (ifaceConfigure {
    interface := some "can0"
    frames := [{
      canId := 1
      dir := some .output
      values := [
        { title := "a", type := some .u16, pos := 0 },
        { title := "b", type := some .bit, pos := 16 }] }] }).get
    (by decide +kernel)

/-- The number comes twice, the bit once. -/
def sentActs : List Act :=
  [.send 0 0 258 10, .send 0 1 1 11, .start 1010 true, .frame true, .frame true, .send 0 0 300 1100, .start 2200 true,
    .frame true, .frame true]

def sent : State := (sentActs.foldlM (step pairIface) {}).get (by decide +kernel)

def pairValues : List CanVal :=
  [{ name := "a", type := .u16, pos := 0, scale := 1, offset := 0 },
    { name := "b", type := .bit, pos := 16, scale := 1, offset := 0 }]

theorem pairIface_output (j : Nat) : pairIface.output 0 j = pairValues[j]? := by
  have hframes : pairIface.frames = [{ canId := 1, dir := .output, values := pairValues, minDlc := 3 }] := by
    decide +kernel
  simp [Iface.output, hframes, guard]

theorem pairIface_alone {j : Nat} {v : CanVal} (hv : pairIface.output 0 j = some v) : Alone pairIface 0 j v := by
  intro j' w hw hne k hk hk'
  rw [pairIface_output] at hv hw
  match j, j' with
  | 0, 0 | 1, 1 => exact hne rfl
  | 0, 1 | 1, 0 =>
    obtain rfl := Option.some.inj hv
    obtain rfl := Option.some.inj hw
    simp only [CanVal.Covers, ValType.len] at hk hk'
    omega
  | j + 2, _ => cases hv
  | _, j' + 2 => cases hw

theorem no_lost_update_example :
    lastWritten 0 sent.log = some (sent.frames 0).sendBuf ∧
      (∀ v, pairIface.output 0 0 = some v → v.Carried 300 (sent.frames 0).sendBuf) ∧
      ∀ v, pairIface.output 0 1 = some v → v.Carried 1 (sent.frames 0).sendBuf := by
  obtain ⟨hidle, hcarried⟩ :=
    no_lost_update pairIface {} sent sentActs rfl (Option.some_get _).symm (by decide +kernel) 0
  have hlog : sent.log.dropLast ++ [.written 0 (sent.frames 0).sendBuf] <+: sent.log := by decide +kernel
  refine ⟨hidle (by decide +kernel) ⟨0, 258, by decide +kernel⟩, fun v hv => ?_, fun v hv => ?_⟩
  · exact (hcarried _ _ hlog).2 0 v hv (pairIface_alone hv) 300 (by decide +kernel)
  · exact (hcarried _ _ hlog).2 1 v hv (pairIface_alone hv) 1 (by decide +kernel)

def bitIface : Iface :=
  (ifaceConfigure {
    interface := some "can0"
    frames := [{ canId := 1, dir := some .output, values := [{ title := "a", type := some .bit, pos := 0 }] }] }).get
    (by decide +kernel)

def lostActs : List Act := [.send 0 0 1 10, .start 1010 true, .frame false]

def lost : State := (lostActs.foldlM (step bitIface) {}).get (by decide +kernel)

/-- The write fails: the frame is idle, and the dispatched bit was never sent. -/
theorem update_lost :
    Run (step bitIface) {} lostActs lost ∧ .dispatched 0 0 1 ∈ lost.log ∧ lost.task = none ∧
      (lost.frames 0).sendTime = 0 ∧ lastWritten 0 lost.log ≠ some (lost.frames 0).sendBuf :=
  ⟨(Option.some_get _).symm, by decide +kernel, by decide +kernel, by decide +kernel, by decide +kernel⟩

end Uvrgw.Can
