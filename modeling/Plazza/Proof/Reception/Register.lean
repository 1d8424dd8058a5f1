import Plazza.Foundation.Fairness
import Plazza.Proof.Reception.Settlement

namespace Plazza
open Plazza.Foundation

namespace Ledger

/-- The ids of all registered orders, first the announced ones. -/
def register (ledger : Ledger) : List Int := ledger.announced ++ ledger.pendingOrders.map Prod.fst

/-- The completions that the orders with the first places in the register still wait for. -/
def ahead (ledger : Ledger) (places : Nat) : Int :=
  ((ledger.pendingOrders.take (places - ledger.announced.length)).map Prod.snd).sum

theorem length_register (ledger : Ledger) :
    ledger.register.length = ledger.announced.length + ledger.pendingOrders.length := by
  rw [register, List.length_append, List.length_map]

/-- A new order has the last place. -/
theorem register_orderCallback {ledger next : Ledger} {orders : List PizzaOrder} {origin : Int}
    (called : ledger.orderCallback orders = some (next, origin)) {places : Nat}
    (within : places ≤ ledger.register.length) :
    ledger.register <+: next.register ∧ next.announced = ledger.announced ∧
      next.ahead places = ledger.ahead places := by
  obtain ⟨total, _, ⟨_, rfl, _⟩ | ⟨_, _, rfl⟩⟩ := orderCallback_cases called
  · exact ⟨List.prefix_rfl, rfl, rfl⟩
  · rw [length_register] at within
    refine ⟨?_, rfl, ?_⟩
    · simp only [register, List.map_append, ← List.append_assoc]
      exact List.prefix_append _ _
    · simp only [ahead, List.take_append_of_le_length (Nat.sub_le_iff_le_add'.mpr within)]

/-- A completion keeps the places and takes one from what the places still wait for. -/
theorem register_doneCallback {ledger : Ledger} {places : Nat}
    (within : places ≤ ledger.register.length) :
    ledger.doneCallback.register = ledger.register ∧
      ledger.announced <+: ledger.doneCallback.announced ∧
      (places ≤ ledger.announced.length ∨
        ledger.doneCallback.ahead places + 1 = ledger.ahead places) := by
  rw [length_register] at within
  cases front : ledger.pendingOrders with
  | nil =>
      rw [front] at within
      rw [doneCallback_nil front]
      exact ⟨rfl, List.prefix_rfl, .inl within⟩
  | cons order rest =>
      obtain ⟨orderId, remaining⟩ := order
      have split : places ≤ ledger.announced.length ∨
          places - ledger.announced.length = places - (ledger.announced.length + 1) + 1 := by omega
      rcases doneCallback_cons front with ⟨rfl, called⟩ | ⟨_, called⟩
      · refine ⟨by simp [register, called, front], by simp [called], split.imp_right fun next => ?_⟩
        simp only [ahead, called, front, next, List.length_append, List.length_singleton,
          List.take_succ_cons, List.map_cons, List.sum_cons]
        omega
      · refine ⟨by simp [register, called, front], by simp [called], split.imp_right fun next => ?_⟩
        simp only [ahead, called, front, next, List.take_succ_cons, List.map_cons, List.sum_cons]
        omega

/-- The places that wait for no completion are announced. -/
theorem announced_of_ahead {ledger : Ledger} (positive : ∀ order ∈ ledger.pendingOrders, 0 < order.2)
    {places : Nat} (within : places ≤ ledger.register.length) (nothing : ledger.ahead places ≤ 0) :
    places ≤ ledger.announced.length := by
  by_contra waits
  rw [length_register] at within
  cases front : ledger.pendingOrders with
  | nil =>
      rw [front, List.length_nil] at within
      omega
  | cons order rest =>
      obtain ⟨more, place⟩ := Nat.exists_eq_add_of_lt (Nat.not_le.mp waits)
      have first := positive order (by rw [front]; exact List.mem_cons_self)
      have others := Books.sum_nonneg fun other (member : other ∈ rest.take more) =>
        positive other (by rw [front]; exact List.mem_cons_of_mem _ (List.mem_of_mem_take member))
      have taken : places - ledger.announced.length = more + 1 := by omega
      simp only [ahead, front, taken, List.take_succ_cons, List.map_cons, List.sum_cons] at nothing
      omega

end Ledger

namespace Books

/-- These orders are registered first, and the last of them is announced once this many pizzas are
finished. -/
structure Awaited (orderIds : List Int) (due : Int) (books : Books) : Prop where
  registered : orderIds <+: books.ledger.register
  missing : orderIds.length ≤ books.ledger.announced.length ∨
    books.ledger.ahead orderIds.length + books.done.card = due

/-- Every entry keeps the number of the pizzas that the orders wait for. -/
theorem Awaited.step {orderIds : List Int} {due : Int} {books next : Books} {entry : Entry}
    (awaited : books.Awaited orderIds due) (taken : books.step entry = some next) :
    next.Awaited orderIds due := by
  have within := awaited.registered.length_le
  cases entry with
  | order orders =>
      simp only [Books.step] at taken
      split at taken
      · obtain ⟨⟨ledger, origin⟩, called, rfl⟩ := Option.map_eq_some_iff.mp taken
        obtain ⟨grows, announced, same⟩ := Ledger.register_orderCallback called within
        refine ⟨awaited.registered.trans grows, ?_⟩
        simp only [announced, same]
        exact awaited.missing
      · cases taken
  | send =>
      simp only [Books.step] at taken
      split at taken <;> cases taken
      exact ⟨awaited.registered, awaited.missing⟩
  | done tag =>
      simp only [Books.step] at taken
      split at taken <;> cases taken
      obtain ⟨same, grows, fewer⟩ := Ledger.register_doneCallback within
      refine ⟨same.symm ▸ awaited.registered, ?_⟩
      simp only [Multiset.card_add, Multiset.card_singleton]
      rcases awaited.missing with reached | missing
      · exact .inl (reached.trans grows.length_le)
      · rcases fewer with reached | fewer
        · exact .inl (reached.trans grows.length_le)
        · right
          omega
  | full tag =>
      simp only [Books.step] at taken
      split at taken <;> cases taken
      exact ⟨awaited.registered, awaited.missing⟩

theorem awaited_stable (orderIds : List Int) (due : Int) :
    machine.Stable fun books => books.Awaited orderIds due :=
  fun _ awaited taken => awaited.step taken

/-- The registered orders wait for the pizzas that have no completion yet. -/
theorem awaited_of_counts {books : Books} (counts : books.Counts) (sentAll : books.todo = []) :
    books.Awaited books.ledger.register books.sent.card := by
  refine ⟨List.prefix_rfl, .inr ?_⟩
  have balance := counts.balance
  rw [sentAll, List.length_nil] at balance
  rw [Ledger.ahead, Ledger.length_register, Nat.add_sub_cancel_left, List.take_length]
  simpa [remaining] using balance

/-- The orders are announced in the order of their registration once enough pizzas are finished. -/
theorem Awaited.announced {orderIds : List Int} {due : Int} {books : Books}
    (awaited : books.Awaited orderIds due) (counts : books.Counts) (enough : due ≤ books.done.card) :
    orderIds <+: books.ledger.announced := by
  have within := awaited.registered.length_le
  have front : books.ledger.announced <+: books.ledger.register := List.prefix_append _ _
  refine List.prefix_of_prefix_length_le awaited.registered front ?_
  rcases awaited.missing with reached | missing
  · exact reached
  · exact Ledger.announced_of_ahead counts.positive within (by omega)

end Books

end Plazza
