import Plazza.Construction.Packet
import Plazza.Foundation.Fifo

namespace Plazza
open Plazza.Foundation

/-- A site is one kitchen process with its order queue and its result queue. -/
structure Site (State : Type) where
  orderQueue : Fifo Packet
  resultQueue : Fifo Packet
  process : State

namespace Site

variable {State : Type}

/-- A new site has two empty queues. -/
def fresh (process : State) : Site State := ⟨.empty, .empty, process⟩

/-- A blocking send waits until the result queue has room. -/
def sendResult (site : Site State) (limit : Option Nat) (packet : Packet) (process : State) :
    Option (Site State) :=
  if hasRoom limit site.resultQueue.pending then
    some { site with resultQueue := site.resultQueue.send packet, process }
  else none

/-- A blocking send waits until the order queue has room. -/
def sendOrder (site : Site State) (limit : Option Nat) (packet : Packet) : Option (Site State) :=
  if hasRoom limit site.orderQueue.pending then
    some { site with orderQueue := site.orderQueue.send packet }
  else none

end Site

/-- The reception sees a kitchen process only through its queues and its exit. -/
structure KitchenProcess where
  State : Type
  Label : Type
  initial : State
  /-- The first argument is the value of the clock. -/
  step : Nat → Site State → Label → Option (Site State)
  exited : State → Bool

end Plazza
