import Plazza.Construction.Dispatch
import Plazza.Foundation.Balance

namespace Plazza
open Plazza.Foundation

/-- The loads that the reception keeps for its kitchens. -/
def loads (kitchens : List KitchenHandle) : List Nat := kitchens.map KitchenHandle.load

namespace LoadBalancer

/-- The capacity of every kitchen is an unsigned 64-bit product. -/
def capacity (balancer : LoadBalancer) : Nat := 2 * balancer.nCooks % 2 ^ 64

/-- The call of `updateKitchens` leaves only live kitchens, which all have the same capacity. -/
def Updated (balancer : LoadBalancer) : Prop :=
  ∀ kitchen ∈ balancer.kitchens, kitchen.alive = true ∧ kitchen.capacity = balancer.capacity

/-- A pizza for a kitchen changes its load only. -/
theorem sendPizza_eq {balancer : LoadBalancer} {best : Nat} {kitchen : KitchenHandle}
    (here : balancer.kitchens[best]? = some kitchen) (pizza : Pizza) :
    balancer.sendPizza best pizza = { balancer with
      kitchens := balancer.kitchens.set best { kitchen with load := kitchen.load + 1 }
      sent := balancer.sent ++ [(best, pizzaPacket pizza)] } := by
  unfold sendPizza
  congr 1
  apply List.ext_getElem?
  intro index
  by_cases same : best = index
  · subst same
    obtain ⟨inside, rfl⟩ := List.getElem?_eq_some_iff.mp here
    simp [inside]
  · simp [same]

theorem sendPizza_kitchens {balancer : LoadBalancer} {best : Nat} {kitchen : KitchenHandle}
    (here : balancer.kitchens[best]? = some kitchen) (pizza : Pizza) :
    (balancer.sendPizza best pizza).kitchens =
      balancer.kitchens.set best { kitchen with load := kitchen.load + 1 } := by
  rw [sendPizza_eq here]

/-- The new kitchen stands at the end. -/
theorem spawnKitchen_last (balancer : LoadBalancer) :
    balancer.spawnKitchen.kitchens[balancer.spawnKitchen.kitchens.length - 1]? =
      some (KitchenHandle.new balancer.nextKitchenId balancer.nCooks) := by
  simp [spawnKitchen]

/-- A send keeps the kitchens live and their capacity. -/
theorem Updated.sendPizza {balancer : LoadBalancer} (updated : balancer.Updated) {best : Nat}
    {kitchen : KitchenHandle} (here : balancer.kitchens[best]? = some kitchen) (pizza : Pizza) :
    (balancer.sendPizza best pizza).Updated := by
  intro other member
  rw [sendPizza_kitchens here] at member
  rcases List.mem_or_eq_of_mem_set member with old | rfl
  · exact updated other old
  · exact updated kitchen (List.mem_of_getElem? here)

/-- A new kitchen is live and has the capacity of the others. -/
theorem Updated.spawnKitchen {balancer : LoadBalancer} (updated : balancer.Updated) :
    balancer.spawnKitchen.Updated := by
  intro other member
  rcases List.mem_append.mp member with old | new
  · exact updated other old
  · rw [List.mem_singleton.mp new]
    exact ⟨rfl, rfl⟩

/-- In a list of updated kitchens only the full ones are not usable. -/
theorem Updated.usable_iff {balancer : LoadBalancer} (updated : balancer.Updated)
    {kitchen : KitchenHandle} (member : kitchen ∈ balancer.kitchens) :
    kitchen.Usable ↔ kitchen.load < balancer.capacity := by
  rw [KitchenHandle.Usable, (updated kitchen member).1, (updated kitchen member).2]
  exact and_iff_right rfl

/-- The inner loop gives one pizza to a least loaded kitchen with room, or to a new one. -/
theorem assign_assignPizza {balancer : LoadBalancer} (updated : balancer.Updated) (pizza : Pizza) :
    ∃ best, (balancer.assignPizza pizza).sent = balancer.sent ++ [(best, pizzaPacket pizza)] ∧
      Assign balancer.capacity (loads balancer.kitchens) best
        (loads (balancer.assignPizza pizza).kitchens) := by
  unfold assignPizza
  split
  · rename_i best chosen
    obtain ⟨kitchen, here, usable, least⟩ := bestKitchen_spec chosen
    have member := List.mem_of_getElem? here
    refine ⟨best, rfl, ?_⟩
    rw [sendPizza_kitchens here, loads, loads, List.map_set]
    refine .least (by rw [List.getElem?_map, here]; rfl) ((updated.usable_iff member).mp usable) ?_
    intro load inside room
    obtain ⟨other, there, rfl⟩ := List.mem_map.mp inside
    exact least other there ((updated.usable_iff there).mpr room)
  · rename_i unchosen
    have full := bestKitchen_none unchosen
    have grown : loads (balancer.spawnKitchen.sendPizza
        (balancer.spawnKitchen.kitchens.length - 1) pizza).kitchens =
          loads balancer.kitchens ++ [1] := by
      rw [sendPizza_kitchens balancer.spawnKitchen_last]
      simp [spawnKitchen, loads, KitchenHandle.new]
    refine ⟨(loads balancer.kitchens).length, by simp [sendPizza, spawnKitchen, loads], ?_⟩
    rw [grown]
    refine .fresh fun load inside => ?_
    obtain ⟨other, there, rfl⟩ := List.mem_map.mp inside
    exact Nat.le_of_not_lt fun room => full other there ((updated.usable_iff there).mpr room)

/-- A handle without its load. -/
def unloaded (kitchen : KitchenHandle) : KitchenHandle := { kitchen with load := 0 }

/-- New kitchens follow the old ones and nothing but a load changes in the old ones. -/
structure Grown (before after : LoadBalancer) (spawned : Nat) : Prop where
  nCooks : after.nCooks = before.nCooks
  nextKitchenId : after.nextKitchenId = before.nextKitchenId + spawned
  kitchens : after.kitchens.map unloaded = before.kitchens.map unloaded ++
    (List.range spawned).map fun index => .new (before.nextKitchenId + index) before.nCooks

/-- A send changes nothing but a load. -/
theorem unloaded_sendPizza {balancer : LoadBalancer} {best : Nat} {kitchen : KitchenHandle}
    (here : balancer.kitchens[best]? = some kitchen) (pizza : Pizza) :
    (balancer.sendPizza best pizza).kitchens.map unloaded = balancer.kitchens.map unloaded := by
  obtain ⟨inside, rfl⟩ := List.getElem?_eq_some_iff.mp here
  rw [sendPizza_kitchens here, List.map_set]
  apply List.ext_getElem?
  intro index
  by_cases same : best = index
  · subst same
    simp [unloaded, inside]
  · simp [same]

/-- One pizza spawns at most one kitchen. -/
theorem Grown.assignPizza {before after : LoadBalancer} {spawned : Nat}
    (grown : Grown before after spawned) (pizza : Pizza) :
    ∃ more, Grown before (after.assignPizza pizza) (spawned + more) := by
  unfold LoadBalancer.assignPizza
  split
  · rename_i best chosen
    obtain ⟨kitchen, here, _, _⟩ := bestKitchen_spec chosen
    exact ⟨0, grown.nCooks, grown.nextKitchenId,
      (unloaded_sendPizza here pizza).trans grown.kitchens⟩
  · refine ⟨1, grown.nCooks, ?_, ?_⟩
    · exact congrArg (· + 1) grown.nextKitchenId
    · rw [unloaded_sendPizza after.spawnKitchen_last, spawnKitchen, List.map_append, grown.kitchens,
        List.range_succ, List.map_append, List.append_assoc, grown.nextKitchenId, grown.nCooks]
      rfl

/-- The kitchens that `dispatch` leaves are live and have the same capacity. -/
theorem Updated.assignPizza {balancer : LoadBalancer} (updated : balancer.Updated) (pizza : Pizza) :
    (balancer.assignPizza pizza).Updated := by
  unfold LoadBalancer.assignPizza
  split
  · rename_i best chosen
    obtain ⟨kitchen, here, _, _⟩ := bestKitchen_spec chosen
    exact updated.sendPizza here pizza
  · exact updated.spawnKitchen.sendPizza balancer.spawnKitchen_last pizza

/-- The inner loop counts the pizzas of one order. -/
theorem dispatchOrder_eq (balancer : LoadBalancer) (order : PizzaOrder) :
    balancer.dispatchOrder order =
      (List.replicate order.quantity ⟨order.type, order.size⟩).foldl assignPizza balancer := by
  unfold dispatchOrder
  induction order.quantity with
  | zero => rfl
  | succ quantity ih =>
      rw [List.replicate_succ', List.foldl_append, ← ih]
      rfl

/-- The nested loops assign the pizzas of the orders in turn. -/
theorem dispatch_eq (balancer : LoadBalancer) (orders : List PizzaOrder) :
    balancer.dispatch orders = (expand orders).foldl assignPizza balancer := by
  unfold dispatch expand
  induction orders generalizing balancer with
  | nil => rfl
  | cons order rest ih =>
      rw [List.foldl_cons, List.flatMap_cons, List.foldl_append, ← dispatchOrder_eq, ih]

/-- The sent packets, their kitchens and the growth of the kitchen list over a list of pizzas. -/
structure Assigned (before after : LoadBalancer) (pizzas : List Pizza)
    (sends : List (Nat × Packet)) : Prop where
  sent : after.sent = before.sent ++ sends
  packets : sends.map Prod.snd = pizzas.map pizzaPacket
  loads : AssignAll before.capacity (loads before.kitchens) (sends.map Prod.fst)
    (loads after.kitchens)
  updated : after.Updated
  grown : ∃ spawned, Grown before after spawned

/-- A list of pizzas is assigned one after another. -/
theorem exists_assigned {balancer : LoadBalancer} (updated : balancer.Updated)
    (pizzas : List Pizza) :
    ∃ sends, Assigned balancer (pizzas.foldl assignPizza balancer) pizzas sends := by
  induction pizzas using List.reverseRecOn with
  | nil =>
      exact ⟨[], (List.append_nil _).symm, rfl, .nil, updated, 0, rfl, rfl, (List.append_nil _).symm⟩
  | append_singleton pizzas pizza ih =>
      obtain ⟨sends, assigned⟩ := ih
      obtain ⟨spawned, grown⟩ := assigned.grown
      have same : (pizzas.foldl assignPizza balancer).capacity = balancer.capacity := by
        rw [capacity, grown.nCooks, capacity]
      obtain ⟨best, added, next⟩ := assign_assignPizza assigned.updated pizza
      obtain ⟨more, later⟩ := grown.assignPizza pizza
      rw [List.foldl_append, List.foldl_cons, List.foldl_nil]
      refine ⟨sends ++ [(best, pizzaPacket pizza)], ?_, ?_, ?_, assigned.updated.assignPizza pizza,
        spawned + more, later⟩
      · rw [added, assigned.sent, List.append_assoc]
      · rw [List.map_append, assigned.packets, List.map_append]
        rfl
      · rw [List.map_append]
        exact .snoc assigned.loads (same ▸ next)

/-- No kitchen that received a pizza exceeds an earlier kitchen with room by more than one. -/
def Balanced (before after : LoadBalancer) (sends : List (Nat × Packet)) : Prop :=
  ∀ index ∈ sends.map Prod.fst, ∀ kitchen ∈ after.kitchens[index]?,
    ∀ other < before.kitchens.length, ∀ old ∈ after.kitchens[other]?,
      old.load < old.capacity → kitchen.load ≤ old.load + 1

/-- Every call of `dispatch` balances the loads. -/
theorem balanced_dispatch {balancer : LoadBalancer} (updated : balancer.Updated)
    (orders : List PizzaOrder) :
    ∃ sends, (balancer.dispatch orders).sent = balancer.sent ++ sends ∧
      Balanced balancer (balancer.dispatch orders) sends := by
  rw [dispatch_eq]
  obtain ⟨sends, assigned⟩ := exists_assigned updated (expand orders)
  obtain ⟨spawned, grown⟩ := assigned.grown
  refine ⟨sends, assigned.sent, ?_⟩
  intro index received kitchen here other first old there room
  have capacity := (assigned.updated old (List.mem_of_getElem? there)).2
  rw [capacity, LoadBalancer.capacity, grown.nCooks] at room
  refine assigned.loads.balanced received ?_ (by simpa [Plazza.loads] using first) ?_ room
  · rw [Plazza.loads, List.getElem?_map, here, Option.map_some]
  · rw [Plazza.loads, List.getElem?_map, there, Option.map_some]

/-- Three pizzas fill the gap between two kitchens. -/
theorem balanced_dispatch_two :
    let balancer : LoadBalancer := ⟨2, [.new 0 2, { KitchenHandle.new 1 2 with load := 2 }], 2, []⟩
    ∃ sends, (balancer.dispatch [⟨.regina, .s, 3⟩]).sent = balancer.sent ++ sends ∧
      Balanced balancer (balancer.dispatch [⟨.regina, .s, 3⟩]) sends :=
  balanced_dispatch (by unfold Updated; decide) _

/-- The number of the pizzas that the orders ask for. -/
def total (orders : List PizzaOrder) : Nat := (orders.map PizzaOrder.quantity).sum

/-- What a call of `dispatch` sends, what it spawns and what it does to the loads. -/
structure Served (before after : LoadBalancer) (orders : List PizzaOrder)
    (sends : List (Nat × Packet)) : Prop where
  sent : after.sent = before.sent ++ sends
  count : sends.length = total orders
  packets : sends.map Prod.snd = (expand orders).map pizzaPacket
  grown : Grown before after
    ((total orders - free before.capacity (loads before.kitchens)) ⌈/⌉ before.capacity)
  inside : ∀ send ∈ sends, send.1 < after.kitchens.length
  loads : ∀ index, ∀ kitchen ∈ after.kitchens[index]?, kitchen.load =
    (before.kitchens[index]?.map KitchenHandle.load).getD 0 + (sends.map Prod.fst).count index
  within : ∀ kitchen ∈ after.kitchens, kitchen.load ≤ before.capacity

theorem length_expand (orders : List PizzaOrder) : (expand orders).length = total orders := by
  simp [expand, total, List.length_flatMap]

/-- A grown kitchen list tells how many kitchens were spawned. -/
theorem Grown.spawned_eq {before after : LoadBalancer} {spawned : Nat}
    (grown : Grown before after spawned) :
    (loads after.kitchens).length = (loads before.kitchens).length + spawned := by
  simpa [loads] using congrArg List.length grown.kitchens

/-- Every call of `dispatch` sends what was ordered and spawns only for the pizzas without a place. -/
theorem served_dispatch {balancer : LoadBalancer} (updated : balancer.Updated)
    (positive : 0 < balancer.capacity)
    (within : ∀ kitchen ∈ balancer.kitchens, kitchen.load ≤ balancer.capacity)
    (orders : List PizzaOrder) :
    ∃ sends, Served balancer (balancer.dispatch orders) orders sends := by
  rw [dispatch_eq]
  obtain ⟨sends, assigned⟩ := exists_assigned updated (expand orders)
  obtain ⟨spawned, grown⟩ := assigned.grown
  have count : sends.length = total orders := by
    simpa [length_expand] using congrArg List.length assigned.packets
  refine ⟨sends, assigned.sent, count, assigned.packets, ?_, ?_, ?_, ?_⟩
  · have length := assigned.loads.length_eq positive
    rw [List.length_map, count, grown.spawned_eq] at length
    rwa [← Nat.add_left_cancel length]
  · intro send member
    have below := assigned.loads.lt_length send.1 (List.mem_map_of_mem member)
    simpa [Plazza.loads] using below
  · intro index kitchen here
    have load := assigned.loads.load_eq index
    simpa [Plazza.loads, List.getD_eq_getElem?_getD, Option.mem_def.mp here] using load
  · intro kitchen member
    refine assigned.loads.le_capacity positive ?_ _ (List.mem_map_of_mem member)
    intro load inside
    obtain ⟨other, there, rfl⟩ := List.mem_map.mp inside
    exact within other there

/-- Four pizzas for one free place spawn two kitchens of capacity two. -/
theorem served_dispatch_four :
    let balancer : LoadBalancer := ⟨1, [{ KitchenHandle.new 0 1 with load := 1 }], 1, []⟩
    ∃ sends, Served balancer (balancer.dispatch [⟨.regina, .s, 4⟩]) [⟨.regina, .s, 4⟩] sends :=
  served_dispatch (by unfold Updated; decide) (by decide) (by decide) _

end LoadBalancer

end Plazza
