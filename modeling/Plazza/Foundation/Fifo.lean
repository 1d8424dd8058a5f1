import Mathlib.Data.List.Basic
import Mathlib.Data.List.Count

namespace Plazza.Foundation

/-- A first-in first-out channel keeps the items already taken beside the items still in flight. -/
structure Fifo (Item : Type) where
  received : List Item
  pending : List Item
  deriving DecidableEq

namespace Fifo

variable {Item : Type}

/-- The new channel has no history and nothing in flight. -/
def empty : Fifo Item := ⟨[], []⟩

/-- The sent items are the received ones and then the pending ones. -/
def sent (channel : Fifo Item) : List Item := channel.received ++ channel.pending

/-- A send puts one item behind the pending ones. -/
def send (channel : Fifo Item) (item : Item) : Fifo Item :=
  { channel with pending := channel.pending ++ [item] }

/-- A receive takes the oldest pending item. -/
def receive (channel : Fifo Item) : Option (Item × Fifo Item) :=
  match channel.pending with
  | [] => none
  | item :: rest => some (item, ⟨channel.received ++ [item], rest⟩)

@[simp] theorem sent_send (channel : Fifo Item) (item : Item) :
    (channel.send item).sent = channel.sent ++ [item] := by
  rw [sent, sent, send, List.append_assoc]

/-- A property of all sent items is kept by a send of an item that has it. -/
theorem forall_sent_send {channel : Fifo Item} {item : Item} {P : Item → Prop}
    (before : ∀ other ∈ channel.sent, P other) (sent : P item) :
    ∀ other ∈ (channel.send item).sent, P other := by
  rw [sent_send]
  exact List.forall_mem_append.mpr ⟨before, List.forall_mem_singleton.mpr sent⟩

/-- A receive moves the oldest pending item to the history. -/
theorem receive_eq_some_iff {channel next : Fifo Item} {item : Item} :
    channel.receive = some (item, next) ↔
      channel.pending = item :: next.pending ∧ next.received = channel.received ++ [item] := by
  rcases channel with ⟨received, pending⟩
  rcases next with ⟨received', pending'⟩
  cases pending with
  | nil => simp [receive]
  | cons head rest => simp [receive, eq_comm, and_comm]; grind

/-- A receive takes the first of the pending items. -/
theorem receive_of_pending {channel : Fifo Item} {item : Item} {rest : List Item}
    (pending : channel.pending = item :: rest) :
    channel.receive = some (item, ⟨channel.received ++ [item], rest⟩) :=
  receive_eq_some_iff.mpr ⟨pending, rfl⟩

/-- A receive leaves the sent items as they are. -/
theorem sent_receive {channel next : Fifo Item} {item : Item}
    (taken : channel.receive = some (item, next)) : next.sent = channel.sent := by
  obtain ⟨head, history⟩ := receive_eq_some_iff.mp taken
  simp [sent, head, history]

/-- Every sent item is received once nothing is pending. -/
theorem prefix_received {channel : Fifo Item} {items : List Item} (sent : items <+: channel.sent)
    (empty : channel.pending = []) : items <+: channel.received := by
  rwa [Fifo.sent, empty, List.append_nil] at sent

/-- Nothing is pending once an item is received that was sent only at the end. -/
theorem pending_of_received {channel : Fifo Item} {item final : Item} {earlier : List Item}
    (received : item ∈ channel.received) (last : channel.sent = earlier ++ [final])
    (once : item ∉ earlier) : channel.pending = [] := by
  rcases List.eq_nil_or_concat channel.pending with none' | ⟨front, back, some'⟩
  · exact none'
  · have split : channel.received ++ front = earlier := by
      rw [sent, some', List.concat_eq_append, ← List.append_assoc] at last
      exact List.append_inj_left' last rfl
    exact absurd (split ▸ List.mem_append_left front received) once

/-- Nothing is pending behind an item that was sent last and only once. -/
theorem pending_of_last {channel next : Fifo Item} {item : Item} {earlier : List Item}
    (taken : channel.receive = some (item, next)) (last : channel.sent = earlier ++ [item])
    (once : item ∉ earlier) : next.pending = [] := by
  obtain ⟨_, history⟩ := receive_eq_some_iff.mp taken
  exact pending_of_received (by simp [history]) ((sent_receive taken).trans last) once

end Fifo

end Plazza.Foundation
