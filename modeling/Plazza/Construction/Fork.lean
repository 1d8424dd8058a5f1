import Plazza.Construction.LoadBalancer
import Plazza.Foundation.Unwind

namespace Plazza
open Plazza.Foundation

def kMqOpenFailed := "Failed to open message queue"
def kMqSendFailed := "Failed to send on message queue"

/-- The functions of the reception that stand above the constructor of a process. -/
inductive Frame where
  | spawnKitchen
  | dispatch
  | handleLine
  | run
  | main
  deriving DecidableEq

/-- What the copies of the reception's data let the forked child do. -/
inductive ChildEvent where
  /-- A function of the call chain goes on after the constructor or handles its exception. -/
  | resumed (frame : Frame)
  | sentShutdown (kitchenId : Nat)
  | removedQueue (path : String)
  | removedAnchor (path : String)
  | printed (line : String)
  deriving DecidableEq

/-- The code of the child process. -/
abbrev Child := Trace ChildEvent

/-- A blocking send succeeds, waits for room that never comes or fails. -/
inductive Delivery where
  | sent
  | full
  | failed
  deriving DecidableEq

namespace Child

/-- A step without a visible event ends in any way. -/
def attempt (ending : Ending Unit) : Child Unit := ⟨[], ending⟩

def orderPath (kitchenId : Nat) : String := "order_queue_" ++ toString kitchenId

def resultPath (kitchenId : Nat) : String := "result_queue_" ++ toString kitchenId

/-- The destructor of a message queue removes the queue and its anchor file for an owner only. -/
def destroyQueue (path : String) (owner : Bool) : Child Unit :=
  if owner then do
    Trace.emit (.removedQueue path)
    Trace.emit (.removedAnchor path)
  else pure ()

/-- The members of a handle are destroyed in reverse order of declaration. -/
def destroyHandle (kitchenId : Nat) : Child Unit := do
  destroyQueue (resultPath kitchenId) true
  destroyQueue (orderPath kitchenId) true

/-- A live kitchen gets a shutdown packet. The wait for its process, which is no child of the caller,
returns at once. -/
def closeKitchen (delivery : Nat → Delivery) (kitchen : KitchenHandle) : Child Unit :=
  if kitchen.alive then
    match delivery kitchen.id with
    | .sent => Trace.emit (.sentShutdown kitchen.id)
    | .full => attempt .stuck
    | .failed => Trace.raise kMqSendFailed
  else pure ()

def shutdown (delivery : Nat → Delivery) : List KitchenHandle → Child Unit
  | [] => pure ()
  | kitchen :: rest => do
      closeKitchen delivery kitchen
      shutdown delivery rest

def destroyHandles : List KitchenHandle → Child Unit
  | [] => pure ()
  | kitchen :: rest => do
      destroyHandle kitchen.id
      destroyHandles rest

/-- The destructor calls `shutdown` and then destroys the handles. -/
def destroyLoadBalancer (delivery : Nat → Delivery) (kitchens : List KitchenHandle) : Child Unit := do
  shutdown delivery kitchens
  destroyHandles kitchens

/-- The routine of a kitchen ends in one of many ways at each of these points. -/
structure Points where
  openOrders : Ending Unit
  openResults : Ending Unit
  construct : Ending Unit
  run : Ending Unit
  teardown : Ending Unit

/-- The routine does not own the queues that it opens. -/
def kitchenRoutine (kitchenId : Nat) (points : Points) : Child Unit := do
  attempt points.openOrders
  Trace.ensuring
    (do
      attempt points.openResults
      Trace.ensuring
        (do
          attempt points.construct
          Trace.ensuring (attempt points.run) (attempt points.teardown))
        (destroyQueue (resultPath kitchenId) false))
    (destroyQueue (orderPath kitchenId) false)

/-- The child leaves the constructor of its process only by an exception. -/
def process (routine : Child Unit) : Child Unit := do
  routine
  Trace.exit 0

/-- The new handle owns both queues when the constructor throws. -/
def spawnKitchen (kitchenId : Nat) (routine : Child Unit) : Child Unit :=
  Trace.ensuring
    (do
      process routine
      Trace.emit (.resumed .spawnKitchen))
    (destroyHandle kitchenId)

def dispatch (kitchenId : Nat) (routine : Child Unit) : Child Unit := do
  spawnKitchen kitchenId routine
  Trace.emit (.resumed .dispatch)

/-- The handler of the shell throws again. -/
def handleLine (kitchenId : Nat) (routine : Child Unit) : Child Unit :=
  (dispatch kitchenId routine).catching fun message => do
    Trace.emit (.resumed .handleLine)
    Trace.raise ("error: " ++ message)

def run (kitchenId : Nat) (routine : Child Unit) : Child Unit := do
  handleLine kitchenId routine
  Trace.emit (.resumed .run)

/-- The load balancer is destroyed before the handler prints. -/
def main (delivery : Nat → Delivery) (kitchens : List KitchenHandle) (kitchenId : Nat)
    (routine : Child Unit) : Child Unit :=
  Trace.catching
    (Trace.ensuring
      (do
        run kitchenId routine
        Trace.emit (.resumed .main))
      (destroyLoadBalancer delivery kitchens))
    fun message => do
      Trace.emit (.resumed .main)
      Trace.emit (.printed ("Error: " ++ message))
      Trace.exit 84

end Child

end Plazza
