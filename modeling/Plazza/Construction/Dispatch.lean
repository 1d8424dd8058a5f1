import Plazza.Construction.LoadBalancer

namespace Plazza

/-- The members that `dispatch` reads and writes. The last field is a history of the packets that it
sends, each with the position of its kitchen. -/
structure LoadBalancer where
  nCooks : Nat
  kitchens : List KitchenHandle
  nextKitchenId : Nat
  sent : List (Nat × Packet)

namespace LoadBalancer

def spawnKitchen (balancer : LoadBalancer) : LoadBalancer :=
  { balancer with
    kitchens := balancer.kitchens ++ [KitchenHandle.new balancer.nextKitchenId balancer.nCooks]
    nextKitchenId := balancer.nextKitchenId + 1 }

/-- The packet carries the type and the size of the pizza. -/
def pizzaPacket (pizza : Pizza) : Packet := { type := .pizza, pizza := pack pizza }

/-- The chosen kitchen gets the packet and its load grows. -/
def sendPizza (balancer : LoadBalancer) (best : Nat) (pizza : Pizza) : LoadBalancer :=
  { balancer with
    kitchens := balancer.kitchens.modify best fun kitchen => { kitchen with load := kitchen.load + 1 }
    sent := balancer.sent ++ [(best, pizzaPacket pizza)] }

/-- The inner loop spawns a kitchen when no kitchen is chosen. -/
def assignPizza (balancer : LoadBalancer) (pizza : Pizza) : LoadBalancer :=
  match bestKitchen balancer.kitchens with
  | some best => balancer.sendPizza best pizza
  | none =>
      let spawned := balancer.spawnKitchen
      spawned.sendPizza (spawned.kitchens.length - 1) pizza

def dispatchOrder (balancer : LoadBalancer) (order : PizzaOrder) : LoadBalancer :=
  Nat.repeat (fun balancer => balancer.assignPizza ⟨order.type, order.size⟩) order.quantity balancer

/-- The loops of `dispatch` follow its call of `updateKitchens`. -/
def dispatch (balancer : LoadBalancer) (orders : List PizzaOrder) : LoadBalancer :=
  orders.foldl dispatchOrder balancer

end LoadBalancer

end Plazza
