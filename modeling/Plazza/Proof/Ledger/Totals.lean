import Plazza.Proof.Parser.Orders
import Plazza.Proof.Reception.Dispatch
import Plazza.Proof.Reception.LedgerRules

namespace Plazza

/-- A written quantity is a positive 64-bit value. -/
theorem Parser.Writes.bounds {segment : Parser.Text} {order : PizzaOrder}
    (writes : Parser.Writes segment order) :
    1 ≤ order.quantity ∧ order.quantity ≤ 2 ^ 64 - 1 := by
  obtain ⟨_, _, _, _, _, _, _, _, _, _, _, _, low, high⟩ := writes
  exact ⟨low, high⟩

/-- The parser gives at least one order, and each quantity is a positive 64-bit value. -/
theorem Parser.quantities_of_parse {line : Parser.Text} {orders : List PizzaOrder}
    (parsed : Parser.parse line = .ok orders) :
    orders ≠ [] ∧ ∀ order ∈ orders, 1 ≤ order.quantity ∧ order.quantity ≤ 2 ^ 64 - 1 := by
  obtain ⟨nonempty, parts, _, each⟩ := Parser.parse_eq_ok_iff.mp parsed
  have written := (List.forall₂_and_left orders parts).mp
    (each.flip.imp fun _ _ writes => ⟨Parser.Writes.bounds writes, writes⟩)
  exact ⟨nonempty, written.1⟩

/-- Each pizza of the loops sends one packet. -/
theorem LoadBalancer.length_sent_assignPizza (balancer : LoadBalancer) (pizza : Pizza) :
    (balancer.assignPizza pizza).sent.length = balancer.sent.length + 1 := by
  unfold assignPizza
  split <;> simp [sendPizza, spawnKitchen]

/-- The loops of `dispatch` send one packet for each pizza. -/
theorem LoadBalancer.length_sent_dispatch (balancer : LoadBalancer) (orders : List PizzaOrder) :
    (balancer.dispatch orders).sent.length = balancer.sent.length + quantities orders := by
  rw [dispatch_eq, ← Plazza.length_expand]
  induction expand orders generalizing balancer with
  | nil => rfl
  | cons pizza rest ih =>
      rw [List.foldl_cons, ih, length_sent_assignPizza, List.length_cons]
      omega

namespace Ledger

/-- A checked sum that started in range ends in range. -/
theorem orderTotal_range {orders : List PizzaOrder} {total : Int}
    (counted : orderTotal orders = some total) : -2 ^ 31 ≤ total ∧ total < 2 ^ 31 := by
  have scan : ∀ (rest : List PizzaOrder) (start : Int), -2 ^ 31 ≤ start ∧ start < 2 ^ 31 →
      rest.foldlM (fun total order => addInt total (toInt order.quantity)) start = some total →
        -2 ^ 31 ≤ total ∧ total < 2 ^ 31 := by
    intro rest
    induction rest with
    | nil =>
        intro start inside same
        rw [List.foldlM_nil] at same
        cases same
        exact inside
    | cons order rest ih =>
        intro start _ summed
        rw [List.foldlM_cons] at summed
        obtain ⟨middle, added, summed⟩ := Option.bind_eq_some_iff.mp summed
        unfold addInt at added
        split at added <;> cases added
        exact ih _ ‹_› summed
  exact scan orders 0 (by omega) counted

/-- No cast and no addition of the order callback loses a unit, and the order that it registers has
as many pizzas as `dispatch` sends for it. -/
structure TotalsExactly (orders : List PizzaOrder) : Prop where
  casts : ∀ order ∈ orders, toInt order.quantity = order.quantity
  total : orderTotal orders = some (quantities orders : Int)
  registered : ∀ (ledger : Ledger) (origin : Int) (balancer : LoadBalancer),
    addInt ledger.nextOrderId 1 = some origin →
      ∃ next, ledger.orderCallback orders = some (next, origin) ∧
        next.pendingOrders = ledger.pendingOrders ++
          [(origin, (balancer.dispatch orders).sent.length - (balancer.sent.length : Int))]

/-- A quantity is at most the number of all pizzas. -/
theorem quantity_le {orders : List PizzaOrder} {order : PizzaOrder} (member : order ∈ orders) :
    order.quantity ≤ quantities orders :=
  List.single_le_sum (fun _ _ => Nat.zero_le _) _ (List.mem_map_of_mem member)

/-- The totals of accepted orders are exact if and only if the number of the pizzas is a positive
32-bit value. -/
theorem totalsExactly_iff {orders : List PizzaOrder} (nonempty : orders ≠ [])
    (positive : ∀ order ∈ orders, 1 ≤ order.quantity) :
    TotalsExactly orders ↔ quantities orders < 2 ^ 31 := by
  constructor
  · intro exactly
    have inside := orderTotal_range exactly.total
    omega
  · intro fits
    have total := orderTotal_of_fits fits
    refine ⟨fun order member => toInt_of_lt (lt_of_le_of_lt (quantity_le member) fits), total, ?_⟩
    intro ledger origin balancer numbered
    obtain ⟨order, member⟩ := List.exists_mem_of_ne_nil orders nonempty
    have one := (positive order member).trans (quantity_le member)
    have sent : ((balancer.dispatch orders).sent.length : Int) - balancer.sent.length =
        quantities orders := by
      rw [LoadBalancer.length_sent_dispatch]
      push_cast
      omega
    refine ⟨{ ledger with
      nextOrderId := origin
      pendingOrders := ledger.pendingOrders ++ [(origin, (quantities orders : Int))] }, ?_, ?_⟩
    · rw [orderCallback, total, Option.bind_eq_bind, Option.bind_some, if_pos (by omega), numbered,
        Option.bind_some, Option.pure_def]
    · rw [sent]

/-- For every order list that the parser returns the total is exact if and only if the number of the
pizzas is below the limit of a 32-bit value. -/
theorem totalsExactly_of_parse_iff (line : Parser.Text) (orders : List PizzaOrder)
    (parsed : Parser.parse line = .ok orders) :
    TotalsExactly orders ↔ quantities orders < 2 ^ 31 := by
  obtain ⟨nonempty, bounds⟩ := Parser.quantities_of_parse parsed
  exact totalsExactly_iff nonempty fun order member => (bounds order member).1

/-- The total of an order of two segments is exact. -/
theorem totalsExactly_two : TotalsExactly [⟨.regina, .xxl, 2⟩, ⟨.fantasia, .m, 3⟩] :=
  (totalsExactly_of_parse_iff "regina XXL x2; fantasia M x3".toList _ (by decide)).mpr (by decide)

/-- An order of 2147483648 pizzas wraps to a negative total and is not registered. -/
theorem not_totalsExactly : ¬∀ (line : Parser.Text) (orders : List PizzaOrder),
    Parser.parse line = .ok orders → TotalsExactly orders := by
  intro exactly
  have parsed : Parser.parse "margaritaSx2147483648".toList =
      .ok [⟨.margarita, .s, 2147483648⟩] := by decide
  have inside := orderTotal_range (exactly _ _ parsed).total
  simp [quantities] at inside

end Ledger

end Plazza
