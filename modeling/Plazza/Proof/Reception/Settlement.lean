import Plazza.Proof.Reception.LedgerRules
import Plazza.Proof.Reception.Record
import Plazza.Proof.Reception.Refusal

namespace Plazza
open Plazza.Foundation

/-- The total of an order fits into an `int`. -/
def Entry.fits : Entry → Bool
  | order orders => quantities orders < 2 ^ 31
  | _ => true

namespace Books

/-- The counts of the registered orders sum up to the pizzas without a completion. -/
def remaining (books : Books) : Int := (books.ledger.pendingOrders.map Prod.snd).sum

/-- The registered counts are positive and match the sent, the finished and the unsent pizzas. -/
structure Counts (books : Books) : Prop where
  positive : ∀ order ∈ books.ledger.pendingOrders, 0 < order.2
  balance : books.remaining + books.done.card = books.sent.card + books.todo.length
  answered : books.done + books.full ≤ books.sent

/-- The registered counts sum up to at least the number of the registered orders. -/
theorem sum_nonneg {orders : List (Int × Int)} (positive : ∀ order ∈ orders, 0 < order.2) :
    0 ≤ (orders.map Prod.snd).sum := by
  apply List.sum_nonneg
  intro count member
  obtain ⟨order, inside, rfl⟩ := List.mem_map.mp member
  exact (positive order inside).le

/-- An accepted order adds its number of pizzas on both sides. -/
theorem Counts.order {books next : Books} {orders : List PizzaOrder} (counts : books.Counts)
    (fits : quantities orders < 2 ^ 31) (taken : books.step (.order orders) = some next) :
    next.Counts := by
  simp only [step] at taken
  split at taken
  · rename_i sentAll
    obtain ⟨⟨ledger, origin⟩, called, rfl⟩ := Option.map_eq_some_iff.mp taken
    have balance := counts.balance
    rw [sentAll, List.length_nil] at balance
    have length : (tagged (expand orders) origin).length = quantities orders := by
      rw [tagged, List.length_map, length_expand]
    obtain ⟨total, counted, change⟩ := Ledger.orderCallback_cases called
    obtain rfl : (quantities orders : Int) = total :=
      Option.some.inj ((Ledger.orderTotal_of_fits fits).symm.trans counted)
    rcases change with ⟨zero, rfl, rfl⟩ | ⟨some', rfl, rfl⟩
    · refine ⟨counts.positive, ?_, counts.answered⟩
      simp only [remaining, length] at balance ⊢
      omega
    · refine ⟨fun order member => ?_, ?_, counts.answered⟩
      · rcases List.mem_append.mp member with before | last
        · exact counts.positive order before
        · obtain rfl := List.mem_singleton.mp last
          exact some'
      · simp only [remaining, length, List.map_append, List.map_cons, List.map_nil,
          List.sum_append, List.sum_cons, List.sum_nil] at balance ⊢
        omega
  · cases taken

/-- A completion takes one from the oldest count. -/
theorem Counts.done {books next : Books} {tag : PackedPizza × Int} (counts : books.Counts)
    (taken : books.step (.done tag) = some next) : next.Counts := by
  simp only [step] at taken
  split at taken <;> cases taken
  rename_i owed
  have balance := counts.balance
  have more := Multiset.card_le_card owed
  rw [Multiset.card_add, Multiset.card_add, Multiset.card_singleton] at more
  have answered : books.done + {tag} + books.full ≤ books.sent := by
    rw [add_right_comm]
    exact owed
  cases front : books.ledger.pendingOrders with
  | nil =>
      simp only [remaining, front, List.map_nil, List.sum_nil] at balance
      omega
  | cons order rest =>
      obtain ⟨orderId, count⟩ := order
      have positive := counts.positive
      rw [front] at positive
      have others : ∀ order ∈ rest, 0 < order.2 := fun order member =>
        positive order (List.mem_cons_of_mem _ member)
      simp only [remaining, front, List.map_cons, List.sum_cons] at balance
      rcases Ledger.doneCallback_cons front with ⟨last, called⟩ | ⟨notLast, called⟩
      · refine ⟨by simpa [called] using others, ?_, answered⟩
        simp only [remaining, called, Multiset.card_add, Multiset.card_singleton]
        omega
      · have first := positive (orderId, count) List.mem_cons_self
        refine ⟨?_, ?_, answered⟩
        · intro order member
          rw [called] at member
          rcases List.mem_cons.mp member with rfl | inside
          · simp only at first ⊢
            omega
          · exact others order inside
        · simp only [remaining, called, Multiset.card_add, Multiset.card_singleton, List.map_cons,
            List.sum_cons]
          omega

/-- Every entry that fits keeps the counts. -/
theorem Counts.step {books next : Books} {entry : Entry} (counts : books.Counts)
    (fits : entry.fits = true) (taken : books.step entry = some next) : next.Counts := by
  cases entry with
  | order orders => exact counts.order (of_decide_eq_true fits) taken
  | send =>
      simp only [Books.step] at taken
      split at taken <;> cases taken
      rename_i tag rest front
      have balance := counts.balance
      rw [front, List.length_cons] at balance
      refine ⟨counts.positive, ?_, le_trans counts.answered (Multiset.le_add_right _ _)⟩
      simp only [remaining, Multiset.card_add, Multiset.card_singleton] at balance ⊢
      omega
  | done tag => exact counts.done taken
  | full tag =>
      simp only [Books.step] at taken
      split at taken <;> cases taken
      rename_i owed
      refine ⟨counts.positive, counts.balance, ?_⟩
      rw [← add_assoc]
      exact owed

/-- Every run of orders that fit keeps the counts. -/
theorem counts_of_reachable {books : Books}
    (reached : machine.ReachableUnder (fun _ entry => entry.fits) books) : books.Counts :=
  reached.invariant ⟨nofun, rfl, le_rfl⟩ fun _ counts fits taken => counts.step fits taken

/-- Once everything is sent the counts are the owed pizzas exactly when no pizza was refused. -/
theorem Counts.remaining_eq_owed_iff {books : Books} (counts : books.Counts)
    (sentAll : books.todo = []) : books.remaining = books.owed.card ↔ books.full = 0 := by
  have balance := counts.balance
  have less := Multiset.card_le_card counts.answered
  rw [sentAll, List.length_nil] at balance
  rw [owed, Multiset.card_sub counts.answered, ← Multiset.card_eq_zero]
  rw [Multiset.card_add] at less ⊢
  omega

/-- No order is pending once nothing remains. -/
theorem Counts.pending_eq_nil {books : Books} (counts : books.Counts)
    (nothing : books.remaining = 0) : books.ledger.pendingOrders = [] := by
  cases front : books.ledger.pendingOrders with
  | nil => rfl
  | cons order rest =>
      have positive := counts.positive
      rw [front] at positive
      have first := positive order List.mem_cons_self
      have others := sum_nonneg fun other member => positive other (List.mem_cons_of_mem _ member)
      simp only [remaining, front, List.map_cons, List.sum_cons] at nothing
      omega

end Books

namespace Pizzeria

variable {P : KitchenProcess} {nCooks : Nat} {limit : Option Nat}

/-- Only orders whose totals fit into an `int` are placed. -/
def ordersFit : PizzeriaLabel P → Bool
  | .order orders => quantities orders < 2 ^ 31
  | _ => true

/-- Every pizza packet sent so far has been answered. -/
def Answered (pizzeria : Pizzeria P) : Prop :=
  ∀ id < pizzeria.nextKitchenId, tags Packet.isPizza (pizzeria.sites id).orderQueue.sent =
    tags Packet.isAnswer (pizzeria.sites id).resultQueue.sent

/-- The pending counts are the owed pizzas, and no order is pending once every pizza packet has been
answered and every recorded load is zero. -/
def Settled (pizzeria : Pizzeria P) : Prop :=
  pizzeria.books.remaining = pizzeria.books.owed.card ∧
    (pizzeria.Answered → (∀ kitchen ∈ pizzeria.kitchens, kitchen.load = 0) →
      pizzeria.ledger.pendingOrders = [])

/-- The books of every run of orders that fit keep their counts. -/
theorem counts_of_reachable (contract : P.Contract) {pizzeria : Pizzeria P}
    (reached : (machine P nCooks limit).ReachableUnder (fun _ label => ordersFit label) pizzeria) :
    pizzeria.books.Counts := by
  refine Books.counts_of_reachable ((refines_books contract).reachable ?_ reached)
  intro state label event fits observed
  cases label with
  | order orders => cases observed; exact fits
  | reception =>
      simp only [entry] at observed
      repeat' split at observed
      all_goals cases observed
      all_goals rfl
  | _ => cases observed

/-- No full packet was handled if and only if the books list no refused pizza. -/
theorem full_eq_zero_iff (pizzeria : Pizzeria P) : pizzeria.books.full = 0 ↔
    ∀ id < pizzeria.nextKitchenId, ∀ packet ∈ (pizzeria.sites id).resultQueue.received,
      packet.type ≠ .full := by
  have each : ∀ packets : List Packet,
      tags Packet.isFull packets = 0 ↔ ∀ packet ∈ packets, packet.type ≠ .full := by
    intro packets
    simp [tags, Packet.isFull]
  simp only [books, total, handledTags, Finset.sum_eq_zero_iff, Finset.mem_range, each]

/-- An idle reception has handled every answer once all loads are zero. -/
theorem owed_of_answered (contract : P.Contract) {pizzeria : Pizzeria P}
    (reached : (machine P nCooks limit).Reachable pizzeria) (counts : pizzeria.books.Counts)
    (idle : pizzeria.call = .idle) (answered : pizzeria.Answered)
    (loads : ∀ kitchen ∈ pizzeria.kitchens, kitchen.load = 0) :
    pizzeria.books.owed = 0 := by
  have balanced := balanced_of_reachable contract reached
  have drained := drained_of_reachable contract
    (reapsDrained_of_open Packet.isAnswer reached (by rw [idle]; rfl))
  have each : ∀ id ∈ Finset.range pizzeria.nextKitchenId,
      (sentTags (pizzeria.sites id)).card = (handledTags Packet.isDone (pizzeria.sites id)).card +
        (handledTags Packet.isFull (pizzeria.sites id)).card := by
    intro id member
    have spawned := Finset.mem_range.mp member
    rw [handledTags, handledTags, ← Multiset.card_add, ← tags_isAnswer, card_tags, sentTags]
    by_cases listed : ∃ kitchen ∈ pizzeria.kitchens, kitchen.id = id
    · obtain ⟨kitchen, inside, rfl⟩ := listed
      have balance := (balanced.accounts kitchen inside).balance
      rw [card_tags, ← balance, loads kitchen inside, zero_add]
    · have gone := drained.gone id spawned fun kitchen inside same => listed ⟨kitchen, inside, same⟩
      rw [answered id spawned, card_tags, Fifo.sent, List.countP_append,
        List.countP_eq_length_filter (l := (pizzeria.sites id).resultQueue.pending), gone,
        List.length_nil, add_zero]
  have all := Finset.sum_congr rfl each
  rw [Finset.sum_add_distrib, ← Multiset.card_sum, ← Multiset.card_sum, ← Multiset.card_sum,
    ← Multiset.card_add] at all
  rw [← Multiset.card_eq_zero, Books.owed, Multiset.card_sub counts.answered]
  exact Nat.sub_eq_zero_of_le all.le

/-- An idle reception is settled if and only if it has handled no full packet. -/
theorem settled_iff (contract : P.Contract) {pizzeria : Pizzeria P}
    (reached : (machine P nCooks limit).ReachableUnder (fun _ label => ordersFit label) pizzeria)
    (idle : pizzeria.call = .idle) : pizzeria.Settled ↔
      ∀ id < pizzeria.nextKitchenId, ∀ packet ∈ (pizzeria.sites id).resultQueue.received,
        packet.type ≠ .full := by
  have counts := counts_of_reachable contract reached
  have sentAll : pizzeria.books.todo = [] := by simp [books, idle, Call.todo, tagged]
  rw [← full_eq_zero_iff, ← counts.remaining_eq_owed_iff sentAll]
  refine ⟨fun settled => settled.1, fun same => ⟨same, fun answered loads => ?_⟩⟩
  have owed := owed_of_answered contract reached.reachable counts idle answered loads
  exact counts.pending_eq_nil (by rw [same, owed]; rfl)

open KitchenWorker

/-- After a poll the only pizza is finished and nothing is pending. -/
theorem settled_after_poll :
    ∃ pizzeria, (machine (process 1 none) 1 none).ReachableUnder
        (fun _ label => ordersFit label) pizzeria ∧
      pizzeria.log.length = 1 ∧
      (pizzeria.Settled ↔ ∀ id < pizzeria.nextKitchenId,
        ∀ packet ∈ (pizzeria.sites id).resultQueue.received, packet.type ≠ .full) := by
  obtain ⟨pizzeria, reached, checked⟩ :=
    (machine (process 1 none) 1 none).exists_reachableUnder (fun _ label => ordersFit label)
      (cookedRun ++ .poll :: receptionSteps 1 5)
      (fun pizzeria => pizzeria.call = .idle ∧ pizzeria.log.length = 1) (by decide)
  obtain ⟨idle, logged⟩ := of_decide_eq_true checked
  exact ⟨pizzeria, reached, logged, settled_iff (contract 1 none) reached idle⟩

/-- A refused pizza leaves its order pending after every pizza packet is answered. -/
theorem not_settled :
    ∃ pizzeria, (machine (process 1 none) 1 none).ReachableUnder
        (fun _ label => ordersFit label) pizzeria ∧
      pizzeria.call = .idle ∧ ¬ pizzeria.Settled := by
  obtain ⟨pizzeria, reached, checked⟩ :=
    (machine (process 1 none) 1 none).exists_reachableUnder (fun _ label => ordersFit label)
      (lateDecrementRun ++ cookSteps 0 onlyCook 9 ++ .poll :: receptionSteps 1 6)
      (fun pizzeria => pizzeria.call = .idle ∧
        (pizzeria.nextKitchenId = 1 ∧ tags Packet.isPizza (pizzeria.sites 0).orderQueue.sent =
          tags Packet.isAnswer (pizzeria.sites 0).resultQueue.sent) ∧
        (∀ kitchen ∈ pizzeria.kitchens, kitchen.load = 0) ∧
        pizzeria.ledger.pendingOrders ≠ []) (by decide)
  obtain ⟨idle, ⟨one, answered⟩, loads, pending⟩ := of_decide_eq_true checked
  refine ⟨pizzeria, reached, idle, fun settled => pending (settled.2 (fun id spawned => ?_) loads)⟩
  obtain rfl : id = 0 := by omega
  exact answered

end Pizzeria

end Plazza
