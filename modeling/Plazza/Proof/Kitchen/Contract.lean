import Plazza.Construction.KitchenProcess
import Mathlib.Algebra.Order.Group.Multiset

namespace Plazza
open Plazza.Foundation

/-- The tags of the selected packets, without their order. -/
def tags (select : Packet → Bool) (packets : List Packet) : Multiset (PackedPizza × Int) :=
  ((packets.filter select).map Packet.tag : List (PackedPizza × Int))

@[simp] theorem tags_append (select : Packet → Bool) (first second : List Packet) :
    tags select (first ++ second) = tags select first + tags select second := by
  simp [tags]

/-- A selected packet adds its tag and any other packet adds nothing. -/
theorem tags_singleton (select : Packet → Bool) (packet : Packet) :
    tags select [packet] = if select packet then {packet.tag} else 0 := by
  unfold tags
  split <;> rename_i selected <;> simp [selected]

theorem tags_cons (select : Packet → Bool) (packet : Packet) (rest : List Packet) :
    tags select (packet :: rest) = tags select [packet] + tags select rest :=
  tags_append select [packet] rest

/-- A step of a kitchen process has one of these effects on its queues and on the pizzas it owes. -/
inductive Move {State : Type} (unanswered : State → Multiset (PackedPizza × Int))
    (exited : State → Bool) (site next : Site State) : Prop
  | internal (orders : next.orderQueue = site.orderQueue)
      (results : next.resultQueue = site.resultQueue)
      (owes : unanswered next.process = unanswered site.process)
      (stays : exited next.process = false)
  | take (packet : Packet) (orders : site.orderQueue.receive = some (packet, next.orderQueue))
      (results : next.resultQueue = site.resultQueue)
      (owes : unanswered next.process = unanswered site.process + tags Packet.isPizza [packet])
      (stays : exited next.process = false)
  | answer (packet : Packet) (answers : packet.isAnswer = true)
      (orders : next.orderQueue = site.orderQueue)
      (results : next.resultQueue = site.resultQueue.send packet)
      (owes : unanswered site.process = unanswered next.process + {packet.tag})
      (stays : exited next.process = false)
  | inform (packet : Packet) (informs : packet.type = .cookStatus ∨ packet.type = .statusReply)
      (orders : next.orderQueue = site.orderQueue)
      (results : next.resultQueue = site.resultQueue.send packet)
      (owes : unanswered next.process = unanswered site.process)
      (stays : exited next.process = false)
  | leave (orders : next.orderQueue = site.orderQueue)
      (results : next.resultQueue = site.resultQueue.send { type := .shutdown })
      (settled : unanswered site.process = 0) (owes : unanswered next.process = 0)
      (leaves : exited next.process = true)

/-- A kitchen answers each pizza packet once, sends its shutdown packet last and then stops. -/
structure KitchenProcess.Contract (P : KitchenProcess) where
  unanswered : P.State → Multiset (PackedPizza × Int)
  Valid : P.State → Prop
  valid_initial : Valid P.initial
  unanswered_initial : unanswered P.initial = 0
  exited_initial : P.exited P.initial = false
  step : ∀ {now : Nat} {site next : Site P.State} {label : P.Label}, Valid site.process →
    P.step now site label = some next →
      P.exited site.process = false ∧ Valid next.process ∧ Move unanswered P.exited site next

namespace Site

variable {P : KitchenProcess}

/-- The shutdown packet is the last packet of a kitchen that has exited and no packet of any other. -/
structure Honest (contract : P.Contract) (site : Site P.State) : Prop where
  valid : contract.Valid site.process
  balance : tags Packet.isPizza site.orderQueue.received =
    contract.unanswered site.process + tags Packet.isAnswer site.resultQueue.sent
  open' : P.exited site.process = false → ∀ packet ∈ site.resultQueue.sent, packet.type ≠ .shutdown
  closed : P.exited site.process = true → contract.unanswered site.process = 0 ∧
    ∃ earlier, site.resultQueue.sent = earlier ++ [{ type := .shutdown }] ∧
      ∀ packet ∈ earlier, packet.type ≠ .shutdown

/-- A new site honours the contract. -/
theorem honest_fresh (contract : P.Contract) : (fresh P.initial).Honest contract where
  valid := contract.valid_initial
  balance := by
    rw [fresh, contract.unanswered_initial, zero_add]
    rfl
  open' _ packet member := by cases member
  closed left := by
    have stays := contract.exited_initial
    simp [fresh, stays] at left

/-- Each step of the process keeps the site honest. -/
theorem Honest.step {contract : P.Contract} {site next : Site P.State} {now : Nat}
    {label : P.Label} (honest : site.Honest contract)
    (taken : P.step now site label = some next) : next.Honest contract := by
  obtain ⟨running, valid, move⟩ := contract.step honest.valid taken
  have balance := honest.balance
  have before := honest.open' running
  cases move with
  | internal orders results owes stays =>
      refine ⟨valid, ?_, ?_, ?_⟩
      · rw [orders, results, owes]; exact balance
      · intro _; rw [results]; exact before
      · intro left; simp [stays] at left
  | take packet orders results owes stays =>
      obtain ⟨_, history⟩ := Fifo.receive_eq_some_iff.mp orders
      refine ⟨valid, ?_, ?_, ?_⟩
      · rw [history, tags_append, results, owes, balance]
        ac_rfl
      · intro _; rw [results]; exact before
      · intro left; simp [stays] at left
  | answer packet answers orders results owes stays =>
      refine ⟨valid, ?_, ?_, ?_⟩
      · rw [orders, results, Fifo.sent_send, tags_append, tags_singleton, if_pos answers, balance, owes]
        ac_rfl
      · intro _
        rw [results]
        refine Fifo.forall_sent_send before fun shutdown => ?_
        simp [Packet.isAnswer, shutdown] at answers
      · intro left; simp [stays] at left
  | inform packet informs orders results owes stays =>
      have silent : packet.isAnswer = false := by
        rcases informs with type | type <;> simp [Packet.isAnswer, type]
      refine ⟨valid, ?_, ?_, ?_⟩
      · rw [orders, results, Fifo.sent_send, tags_append, tags_singleton, silent, owes, balance]
        simp
      · intro _
        rw [results]
        refine Fifo.forall_sent_send before ?_
        rcases informs with type | type <;> simp [type]
      · intro left; simp [stays] at left
  | leave orders results settled owes leaves =>
      refine ⟨valid, ?_, ?_, ?_⟩
      · rw [orders, results, Fifo.sent_send, tags_append, tags_singleton, owes, balance, settled]
        simp [Packet.isAnswer]
      · intro stays; simp [leaves] at stays
      · intro _
        exact ⟨owes, site.resultQueue.sent, by rw [results, Fifo.sent_send], before⟩

/-- The process sends nothing on its order queue and receives nothing from its result queue. -/
theorem frame_step {contract : P.Contract} {site next : Site P.State} {now : Nat}
    {label : P.Label} (honest : site.Honest contract) (taken : P.step now site label = some next) :
    next.orderQueue.sent = site.orderQueue.sent ∧
      next.resultQueue.received = site.resultQueue.received := by
  obtain ⟨_, _, move⟩ := contract.step honest.valid taken
  cases move with
  | internal orders results _ _ => rw [orders, results]; exact ⟨rfl, rfl⟩
  | take packet orders results _ _ => rw [results]; exact ⟨Fifo.sent_receive orders, rfl⟩
  | answer packet _ orders results _ _ => rw [orders, results]; exact ⟨rfl, rfl⟩
  | inform packet _ orders results _ _ => rw [orders, results]; exact ⟨rfl, rfl⟩
  | leave orders results _ _ _ => rw [orders, results]; exact ⟨rfl, rfl⟩

/-- The process takes one packet from its order queue or leaves the queue as it is. -/
theorem orders_step {contract : P.Contract} {site next : Site P.State} {now : Nat}
    {label : P.Label} (honest : site.Honest contract) (taken : P.step now site label = some next) :
    next.orderQueue = site.orderQueue ∨
      ∃ packet, site.orderQueue.receive = some (packet, next.orderQueue) := by
  obtain ⟨_, _, move⟩ := contract.step honest.valid taken
  cases move with
  | take packet orders => exact .inr ⟨packet, orders⟩
  | internal orders | answer _ _ orders | inform _ _ orders | leave orders => exact .inl orders

/-- A process that has exited takes no step. -/
theorem exited_step {contract : P.Contract} {site next : Site P.State} {now : Nat}
    {label : P.Label} (honest : site.Honest contract)
    (taken : P.step now site label = some next) : P.exited site.process = false :=
  (contract.step honest.valid taken).1

/-- A pizza packet is pending, unanswered or answered. -/
theorem Honest.account {contract : P.Contract} {site : Site P.State}
    (honest : site.Honest contract) :
    tags Packet.isPizza site.orderQueue.sent =
      tags Packet.isPizza site.orderQueue.pending + contract.unanswered site.process +
        tags Packet.isAnswer site.resultQueue.pending +
          tags Packet.isAnswer site.resultQueue.received := by
  have balance := honest.balance
  rw [Fifo.sent, tags_append] at balance
  rw [Fifo.sent, tags_append, balance]
  ac_rfl

/-- Nothing follows a received shutdown packet. -/
theorem Honest.pending_of_shutdown {contract : P.Contract} {site : Site P.State} {packet : Packet}
    {resultQueue : Fifo Packet} (honest : site.Honest contract)
    (taken : site.resultQueue.receive = some (packet, resultQueue))
    (shutdown : packet.type = .shutdown) :
    P.exited site.process = true ∧ resultQueue.pending = [] := by
  obtain ⟨head, _⟩ := Fifo.receive_eq_some_iff.mp taken
  have member : packet ∈ site.resultQueue.sent := by
    rw [Fifo.sent, head]
    simp
  have left : P.exited site.process = true := by
    by_contra stays
    exact honest.open' (by simpa using stays) packet member shutdown
  obtain ⟨_, earlier, last, others⟩ := honest.closed left
  rw [last] at member
  have here : packet = { type := .shutdown } := by
    rcases List.mem_append.mp member with before | after
    · exact absurd shutdown (others packet before)
    · exact List.mem_singleton.mp after
  subst here
  exact ⟨left, Fifo.pending_of_last taken last fun before => others _ before rfl⟩

end Site

end Plazza
