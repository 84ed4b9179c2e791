import Mathlib.Data.List.Basic
import Mathlib.Order.Basic

/-!
# A mailbox for the newest message

Many senders, one carrier. A new message replaces one that waits. The carrier takes the waiting message
and delivers it, or puts it back unless a newer one waits by then.
-/

namespace Uvrgw.Lib

structure Mailbox (α : Type) where
  slot : Option α := none
  flight : Option α := none
  posted : List α := []
  delivered : List α := []

namespace Mailbox

variable {α : Type}

inductive Step : Mailbox α → Mailbox α → Prop
  | post (b : Mailbox α) (x : α) : Step b { b with slot := some x, posted := b.posted ++ [x] }
  | take (b : Mailbox α) (h : b.flight = none) : Step b { b with slot := none, flight := b.slot }
  | deliver (b : Mailbox α) :
      Step b { b with flight := none, delivered := b.delivered ++ b.flight.toList }
  | back (b : Mailbox α) : Step b { b with flight := none, slot := b.slot.or b.flight }

/-- What has arrived or still will. -/
def line (b : Mailbox α) : List α := b.delivered ++ b.flight.toList ++ b.slot.toList

/-- The line is in the order of posting, and the newest message ends it. -/
structure Ordered (b : Mailbox α) : Prop where
  order : b.line.Sublist b.posted
  newest : b.line.getLast? = b.posted.getLast?

theorem Ordered.empty : Ordered ({} : Mailbox α) := ⟨List.Sublist.refl _, rfl⟩

theorem Ordered.step {b c : Mailbox α} (h : Ordered b) (hs : Step b c) : Ordered c := by
  cases hs with
  | post x =>
    constructor
    · have hsub : (b.delivered ++ b.flight.toList).Sublist b.line := List.sublist_append_left _ _
      exact (hsub.trans h.order).append (List.Sublist.refl [x])
    · simp [line]
  | take hf =>
    have hline : line { b with slot := none, flight := b.slot } = b.line := by simp [line, hf]
    exact ⟨hline ▸ h.order, hline ▸ h.newest⟩
  | deliver =>
    have hline : line { b with flight := none, delivered := b.delivered ++ b.flight.toList } = b.line := by
      simp [line]
    exact ⟨hline ▸ h.order, hline ▸ h.newest⟩
  | back =>
    cases hslot : b.slot with
    | none =>
      have hline : line { b with flight := none, slot := (none : Option α).or b.flight } = b.line := by
        simp [line, hslot]
      exact ⟨hline ▸ h.order, hline ▸ h.newest⟩
    | some y =>
      -- a newer message waits: the one under way is dropped
      have hline : b.line = b.delivered ++ b.flight.toList ++ [y] := by simp [line, hslot]
      constructor
      · refine List.Sublist.trans ?_ h.order
        rw [hline]
        simp [line]
      · rw [← h.newest, hline]
        simp [line]

/-- With nothing waiting or under way, the last delivered message is the last posted one. -/
theorem Ordered.settled {b : Mailbox α} (h : Ordered b) (hs : b.slot = none) (hf : b.flight = none) :
    b.delivered.getLast? = b.posted.getLast? := by
  have := h.newest
  rw [line, hs, hf] at this
  simpa using this

theorem Ordered.inOrder {b : Mailbox α} (h : Ordered b) : b.delivered.Sublist b.posted := by
  refine List.Sublist.trans ?_ h.order
  rw [line, List.append_assoc]
  exact List.sublist_append_left _ _

end Mailbox

end Uvrgw.Lib
