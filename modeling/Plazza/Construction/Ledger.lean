import Plazza.Construction.Pizza
import Plazza.Foundation.Machine
import Mathlib.Algebra.Group.Int.Defs
import Mathlib.Algebra.GroupWithZero.Nat

namespace Plazza

/-- A signed 32-bit value keeps the low bits of a wider one. -/
def toInt (value : Nat) : Int := Int.bmod value (2 ^ 32)

/-- A signed 32-bit addition has no result when it overflows. -/
def addInt (left right : Int) : Option Int :=
  if -2 ^ 31 ≤ left + right ∧ left + right < 2 ^ 31 then some (left + right) else none

/-- The callbacks of `main` share these variables. The last one lists the announced orders. -/
structure Ledger where
  pendingOrders : List (Int × Int)
  nextOrderId : Int
  announced : List Int
  deriving DecidableEq

namespace Ledger

def initial : Ledger := ⟨[], 0, []⟩

def orderTotal (orders : List PizzaOrder) : Option Int :=
  orders.foldlM (fun total order => addInt total (toInt order.quantity)) 0

/-- A positive total registers the order under the next id. Id zero stands for no registration. -/
def orderCallback (ledger : Ledger) (orders : List PizzaOrder) : Option (Ledger × Int) := do
  let total ← orderTotal orders
  if 0 < total then
    let orderId ← addInt ledger.nextOrderId 1
    return ({ ledger with
      nextOrderId := orderId
      pendingOrders := ledger.pendingOrders ++ [(orderId, total)] }, orderId)
  else return (ledger, 0)

/-- Each completion counts against the oldest order. -/
def doneCallback (ledger : Ledger) : Ledger :=
  match ledger.pendingOrders with
  | [] => ledger
  | (orderId, remaining) :: rest =>
      if remaining - 1 = 0 then
        { ledger with pendingOrders := rest, announced := ledger.announced ++ [orderId] }
      else { ledger with pendingOrders := (orderId, remaining - 1) :: rest }

end Ledger

/-- The shell calls the order callback and the load balancer calls the done callback. -/
inductive LedgerLabel where
  | order (orders : List PizzaOrder)
  | done

namespace Ledger

def step (ledger : Ledger) : LedgerLabel → Option Ledger
  | .order orders => (ledger.orderCallback orders).map Prod.fst
  | .done => some ledger.doneCallback

/-- The machine interleaves the two callbacks of `main`. -/
def machine : Foundation.Machine Ledger LedgerLabel where
  initial := initial
  step := step

end Ledger

end Plazza
