import Plazza.Proof.Kitchen.Idling
import Plazza.Proof.Reception.Completion

namespace Plazza
open Plazza.Foundation

/-- The call is idle or updates the kitchens for no pizza. -/
def Call.polls : Call → Bool
  | idle | updating _ [] _ | draining _ [] _ | dispatching [] _ _ => true
  | _ => false

namespace Pizzeria
open KitchenWorker

section Process

variable {P : KitchenProcess} {nCooks : Nat} {limit : Option Nat} {contract : P.Contract}

end Process

variable {nCooks : Nat} {limit : Option Nat}

section Scheduled

variable {execution : (machine (process nCooks limit) nCooks limit).Execution}

variable (scheduled : Scheduled execution) (roomy : Roomy nCooks limit)
include scheduled roomy

end Scheduled

end Pizzeria

end Plazza
