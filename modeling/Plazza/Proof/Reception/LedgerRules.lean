import Plazza.Construction.Ledger
import Plazza.Construction.LoadBalancer

namespace Plazza

/-- The number of the pizzas that an order asks for. -/
def quantities (orders : List PizzaOrder) : Nat := (orders.map PizzaOrder.quantity).sum

theorem length_expand (orders : List PizzaOrder) : (expand orders).length = quantities orders := by
  simp [expand, quantities, List.length_flatMap]

/-- A value below the sign bit keeps its value. -/
theorem toInt_of_lt {value : Nat} (small : value < 2 ^ 31) : toInt value = value := by
  exact Int.bmod_eq_of_le (by omega) (by omega)

/-- A signed 32-bit value is in its range. -/
theorem toInt_range (value : Nat) : -2 ^ 31 ≤ toInt value ∧ toInt value < 2 ^ 31 :=
  ⟨Int.le_bmod (by decide), Int.bmod_lt (by decide)⟩

namespace Ledger

/-- The total of an order that fits is the number of its pizzas. -/
theorem orderTotal_of_fits {orders : List PizzaOrder} (fits : quantities orders < 2 ^ 31) :
    orderTotal orders = some (quantities orders : Int) := by
  have scan : ∀ (rest : List PizzaOrder) (start : Nat), start + quantities rest < 2 ^ 31 →
      rest.foldlM (fun total order => addInt total (toInt order.quantity)) (start : Int) =
        some ((start + quantities rest : Nat) : Int) := by
    intro rest
    induction rest with
    | nil => intro start _; simp [quantities]
    | cons order rest ih =>
        intro start bounded
        simp only [quantities, List.map_cons, List.sum_cons] at bounded ih ⊢
        have sum : addInt (start : Int) (toInt order.quantity) =
            some ((start + order.quantity : Nat) : Int) := by
          rw [toInt_of_lt (by omega), addInt, if_pos (by omega)]
          push_cast
          rfl
        rw [List.foldlM_cons, sum, Option.bind_eq_bind, Option.bind_some, ih _ (by omega),
          Nat.add_assoc]
  simpa [orderTotal] using scan orders 0 (by simpa using fits)

/-- A positive total registers the order under the next id and any other total changes nothing. -/
theorem orderCallback_cases {ledger next : Ledger} {orders : List PizzaOrder} {origin : Int}
    (called : ledger.orderCallback orders = some (next, origin)) :
    ∃ total, orderTotal orders = some total ∧
      (total ≤ 0 ∧ next = ledger ∧ origin = 0 ∨
        0 < total ∧ origin = ledger.nextOrderId + 1 ∧ next = { ledger with
          nextOrderId := origin
          pendingOrders := ledger.pendingOrders ++ [(origin, total)] }) := by
  obtain ⟨total, counted, called⟩ := Option.bind_eq_some_iff.mp called
  refine ⟨total, counted, ?_⟩
  split at called
  · rename_i positive
    obtain ⟨orderId, added, called⟩ := Option.bind_eq_some_iff.mp called
    cases called
    unfold addInt at added
    split at added <;> cases added
    exact .inr ⟨positive, rfl, rfl⟩
  · rename_i notPositive
    cases called
    exact .inl ⟨by omega, rfl, rfl⟩

/-- An order with one entry always passes the callback. -/
theorem exists_orderCallback (order : PizzaOrder) :
    ∃ result, initial.orderCallback [order] = some result := by
  have range := toInt_range order.quantity
  have total : orderTotal [order] = some (toInt order.quantity) := by
    rw [orderTotal, List.foldlM_cons, addInt, if_pos (by omega), Int.zero_add, Option.bind_eq_bind,
      Option.bind_some, List.foldlM_nil, Option.pure_def]
  have next : addInt initial.nextOrderId 1 = some 1 := by
    change addInt 0 1 = some 1
    rw [addInt, if_pos (by omega), Int.zero_add]
  rw [orderCallback, total, Option.bind_eq_bind, Option.bind_some]
  by_cases positive : 0 < toInt order.quantity
  · rw [if_pos positive, next, Option.bind_some, Option.pure_def]
    exact ⟨_, rfl⟩
  · rw [if_neg positive, Option.pure_def]
    exact ⟨_, rfl⟩

/-- A completion counts against the oldest order, which is announced with its last pizza. -/
theorem doneCallback_cons {ledger : Ledger} {orderId remaining : Int} {rest : List (Int × Int)}
    (front : ledger.pendingOrders = (orderId, remaining) :: rest) :
    remaining = 1 ∧ ledger.doneCallback = { ledger with
        pendingOrders := rest
        announced := ledger.announced ++ [orderId] } ∨
      remaining ≠ 1 ∧ ledger.doneCallback = { ledger with
        pendingOrders := (orderId, remaining - 1) :: rest } := by
  unfold doneCallback
  rw [front]
  simp only
  split
  · exact .inl ⟨by omega, rfl⟩
  · exact .inr ⟨by omega, rfl⟩

theorem doneCallback_nil {ledger : Ledger} (none' : ledger.pendingOrders = []) :
    ledger.doneCallback = ledger := by
  unfold doneCallback
  rw [none']

end Ledger

end Plazza
