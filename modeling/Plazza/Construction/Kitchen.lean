import Plazza.Construction.KitchenWorker
import Plazza.Foundation.Machine

namespace Plazza
open Plazza.Foundation

/-- One kitchen with the clock. Its environment sends any packets and takes the answers. -/
structure Kitchen (nCooks : Nat) where
  site : Site (KitchenWorker nCooks)
  now : Nat

inductive KitchenLabel (nCooks : Nat) where
  | deliver (packet : Packet)
  | collect
  | process (label : KitchenWorker.Label nCooks)
  | elapse (duration : Nat)

namespace Kitchen

variable {nCooks : Nat}

def step (limit : Option Nat) (kitchen : Kitchen nCooks) :
    KitchenLabel nCooks → Option (Kitchen nCooks)
  | .deliver packet => some { kitchen with
      site := { kitchen.site with orderQueue := kitchen.site.orderQueue.send packet } }
  | .collect => kitchen.site.resultQueue.receive.map fun received =>
      { kitchen with site := { kitchen.site with resultQueue := received.2 } }
  | .process label => (KitchenWorker.step limit kitchen.now kitchen.site label).map fun site =>
      { kitchen with site }
  | .elapse duration => some { kitchen with now := kitchen.now + duration }

/-- The machine of one kitchen starts with its process. -/
def machine (nCooks : Nat) (limit : Option Nat) :
    Machine (Kitchen nCooks) (KitchenLabel nCooks) where
  initial := ⟨Site.fresh (KitchenWorker.new nCooks), 0⟩
  step := step limit

/-- What a visited state shows of the pool. -/
structure Moment where
  time : Nat
  load : Nat
  accepted : List Ticket

def moment (kitchen : Kitchen nCooks) : Moment where
  time := kitchen.now
  load := kitchen.site.process.pool.load
  accepted := kitchen.site.process.pool.accepted

/-- The history of a kitchen: its moments, the times of its activity, and the clock of the first check
that has found the pool idle since the last activity. -/
structure Watch where
  moments : List Moment
  activities : List Nat
  idleSince : Option Nat

/-- The loop is active when it starts, when it has accepted a pizza and when it finds the pool busy,
which dates from the clock that it has read before. -/
def activity (kitchen : Kitchen nCooks) : KitchenLabel nCooks → Option Nat
  | .process (.main _) =>
      match kitchen.site.process.control with
      | .starting | .accepting => some kitchen.now
      | .checking _ sampled => if kitchen.site.process.isIdle then none else some sampled
      | _ => none
  | _ => none

/-- An activity forgets the checks that have found the pool idle. -/
def idleSince (kitchen : Kitchen nCooks) (since : Option Nat) :
    KitchenLabel nCooks → Option Nat
  | .process (.main _) =>
      match kitchen.site.process.control with
      | .starting | .accepting => none
      | .checking _ _ =>
          if kitchen.site.process.isIdle then some (since.getD kitchen.now) else none
      | _ => since
  | _ => since

def watch (kitchen : Kitchen nCooks) (label : KitchenLabel nCooks) (next : Kitchen nCooks)
    (watch : Watch) : Watch where
  moments := watch.moments ++ [next.moment]
  activities := watch.activities ++ (kitchen.activity label).toList
  idleSince := kitchen.idleSince watch.idleSince label

/-- The machine of one kitchen with its history. -/
def watched (nCooks : Nat) (limit : Option Nat) :
    Machine (Kitchen nCooks × Watch) (KitchenLabel nCooks) :=
  (machine nCooks limit).withHistory watch ⟨[(machine nCooks limit).initial.moment], [], none⟩

/-- The loop has read this time and is about to check the load. -/
def sampled (kitchen : Kitchen nCooks) : Option Nat :=
  match kitchen.site.process.control with
  | .checking _ sampled => some sampled
  | _ => none

/-- The loop is about to end because the idle timeout has elapsed. -/
def TimesOut (kitchen : Kitchen nCooks) (now : Nat) : Prop :=
  kitchen.sampled = some now ∧ kitchen.site.process.isIdle = true ∧
    kitchen.site.process.lastActiveTime + kIdleTimeout ≤ now

instance (kitchen : Kitchen nCooks) (now : Nat) : Decidable (kitchen.TimesOut now) :=
  inferInstanceAs (Decidable (_ ∧ _))

end Kitchen

end Plazza
