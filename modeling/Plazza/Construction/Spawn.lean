import Plazza.Construction.Concurrency
import Plazza.Construction.MessageQueue

namespace Plazza
open Plazza.Foundation

/-- A handle with the objects that it owns. -/
structure OwningHandle where
  handle : KitchenHandle
  orderQueue : MessageQueue
  resultQueue : MessageQueue
  process : Process

/-- The part of the reception that opens kitchens. -/
structure Roster where
  kitchens : List OwningHandle
  nextKitchenId : Nat
  kernel : Kernel

namespace Roster

/-- What the system answers while one kitchen is opened. -/
structure Answers where
  orders : MessageQueue.Answers
  results : MessageQueue.Answers
  fork : Option Nat

/-- A constructor works on the kernel. -/
def onKernel {Value : Type} (body : Effect Kernel Value) : Effect Roster Value :=
  Effect.within kernel (fun roster kernel => { roster with kernel }) body

/-- The destructor of a queue that a handle owns. -/
def destroyQueue (queue : MessageQueue) (roster : Roster) : Roster :=
  { roster with kernel := queue.destroy roster.kernel }

/-- The queues of the new handle are destroyed in reverse order when a later statement throws. -/
def spawnKitchen (answers : Answers) (nCooks : Nat) : Effect Roster Unit := do
  let kitchenId := (← get).nextKitchenId
  modify fun roster => { roster with nextKitchenId := roster.nextKitchenId + 1 }
  let orderQueue ← onKernel (MessageQueue.construct answers.orders (Child.orderPath kitchenId) .create)
  Effect.unwinding (destroyQueue orderQueue) do
    let resultQueue ←
      onKernel (MessageQueue.construct answers.results (Child.resultPath kitchenId) .create)
    Effect.unwinding (destroyQueue resultQueue) do
      let process ← onKernel (Process.construct answers.fork)
      modify fun roster => { roster with
        kitchens := roster.kitchens ++
          [⟨KitchenHandle.new kitchenId nCooks, orderQueue, resultQueue, process⟩] }

end Roster

end Plazza
