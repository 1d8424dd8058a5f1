import Plazza.Construction.SharedPool

namespace Plazza
open Plazza.Foundation

/-- The threads that lock the queue mutex. -/
inductive PoolThread (nCooks nCallers : Nat) where
  | worker (index : Fin nCooks)
  | caller (id : Fin nCallers)
  deriving DecidableEq

/-- A worker stands before one of these statements of `workerLoop`. The flag of a statement under the
mutex tells whether the worker has waited since it locked the mutex. -/
inductive WorkerPosition where
  | locking
  /-- The condition of the inner loop. -/
  | testing (waited : Bool)
  | waiting
  | woken
  /-- The test that ends the outer loop. -/
  | deciding (waited : Bool)
  /-- The move out of the front of the queue. -/
  | fetching (waited : Bool)
  | popping (waited : Bool) (pizza : Ticket)
  | unlocking (pizza : Ticket)
  /-- The unlock before the break. -/
  | leaving
  | popped (pizza : Ticket)
  | preparing (pizza : Ticket)
  | baking (pizza : Ticket)
  | served (pizza : Ticket)
  | cooked (pizza : Ticket)
  | exited
  deriving DecidableEq

/-- A caller stands before one of these statements of `addPizza` or `stop`. -/
inductive CallerPosition where
  | outside
  | adding (pizza : Ticket)
  | checking (pizza : Ticket)
  | pushing (pizza : Ticket)
  | counting (pizza : Ticket)
  | notifying (pizza : Ticket)
  | unlocking (accepted : Bool)
  | stopping
  | clearing
  | releasing
  | broadcasting
  deriving DecidableEq

/-- The threads of the pool take one statement at a time. The last four fields are histories. -/
structure LockedPool (nCooks nCallers : Nat) where
  cooks : Fin nCooks → Cook
  queue : List Ticket
  running : Bool
  load : Nat
  holder : Option (PoolThread nCooks nCallers)
  workers : Fin nCooks → WorkerPosition
  callers : Fin nCallers → CallerPosition
  accepted : List Ticket
  handed : List (Fin nCooks × Ticket)
  finished : List (Fin nCooks × Ticket)
  stopped : Bool

inductive LockedPoolLabel (nCooks nCallers : Nat) where
  | callAddPizza (id : Fin nCallers) (pizza : Ticket)
  | callStop (id : Fin nCallers)
  | addPizza (id : Fin nCallers) (wake : Fin nCooks → Bool)
  | stop (id : Fin nCallers)
  | worker (index : Fin nCooks)
  | giveUp (index : Fin nCooks)
  | wakeSpuriously (index : Fin nCooks)

namespace LockedPool

variable {nCooks nCallers : Nat}

def getCapacity (_state : LockedPool nCooks nCallers) : Nat := 2 * nCooks % 2 ^ 64

def isFull (state : LockedPool nCooks nCallers) : Bool := state.getCapacity ≤ state.load

def moveTo (state : LockedPool nCooks nCallers) (index : Fin nCooks) (position : WorkerPosition) :
    LockedPool nCooks nCallers :=
  { state with workers := Function.update state.workers index position }

def place (state : LockedPool nCooks nCallers) (id : Fin nCallers) (position : CallerPosition) :
    LockedPool nCooks nCallers :=
  { state with callers := Function.update state.callers id position }

def setCook (state : LockedPool nCooks nCallers) (index : Fin nCooks) (cook : Cook) :
    LockedPool nCooks nCallers :=
  { state with cooks := Function.update state.cooks index cook }

/-- Each woken sleeper leaves the condition variable. -/
def wakeWorkers (workers : Fin nCooks → WorkerPosition) (wake : Fin nCooks → Bool) :
    Fin nCooks → WorkerPosition :=
  fun index => if workers index = .waiting ∧ wake index then .woken else workers index

/-- A single notification wakes at least one sleeper if there is any. -/
def NotifiesOne (workers : Fin nCooks → WorkerPosition) (wake : Fin nCooks → Bool) : Prop :=
  (∃ index, workers index = .waiting) → ∃ index, workers index = .waiting ∧ wake index

instance (workers : Fin nCooks → WorkerPosition) (wake : Fin nCooks → Bool) :
    Decidable (NotifiesOne workers wake) := inferInstanceAs (Decidable (_ → _))

/-- The guard of `addPizza` holds the mutex until the call returns. -/
def addPizza (state : LockedPool nCooks nCallers) (id : Fin nCallers) (wake : Fin nCooks → Bool) :
    Option (LockedPool nCooks nCallers) :=
  match state.callers id with
  | .adding pizza =>
      if state.holder = none then
        some { state.place id (.checking pizza) with holder := some (.caller id) }
      else none
  | .checking pizza =>
      if state.isFull then some (state.place id (.unlocking false))
      else some (state.place id (.pushing pizza))
  | .pushing pizza =>
      some { state.place id (.counting pizza) with queue := state.queue ++ [pizza] }
  | .counting pizza =>
      some { state.place id (.notifying pizza) with load := (state.load + 1) % 2 ^ 64 }
  | .notifying pizza =>
      if NotifiesOne state.workers wake then
        some { state.place id (.unlocking true) with
          workers := wakeWorkers state.workers wake
          accepted := state.accepted ++ [pizza] }
      else none
  | .unlocking _ => some { state.place id .outside with holder := none }
  | .outside | .stopping | .clearing | .releasing | .broadcasting => none

/-- The notification of `stop` follows the block of its guard. -/
def stop (state : LockedPool nCooks nCallers) (id : Fin nCallers) :
    Option (LockedPool nCooks nCallers) :=
  match state.callers id with
  | .stopping =>
      if state.holder = none then
        some { state.place id .clearing with holder := some (.caller id) }
      else none
  | .clearing => some { state.place id .releasing with running := false }
  | .releasing => some { state.place id .broadcasting with holder := none }
  | .broadcasting =>
      some { state.place id .outside with
        workers := wakeWorkers state.workers fun _ => true
        stopped := true }
  | .outside | .adding _ | .checking _ | .pushing _ | .counting _ | .notifying _ | .unlocking _ =>
      none

/-- The wait unlocks the mutex and blocks in one step, and a worker that was woken locks it again. -/
def workerLoop (state : LockedPool nCooks nCallers) (index : Fin nCooks) :
    Option (LockedPool nCooks nCallers) :=
  match state.workers index with
  | .locking =>
      if state.holder = none then
        some { state.moveTo index (.testing false) with holder := some (.worker index) }
      else none
  | .woken =>
      if state.holder = none then
        some { state.moveTo index (.testing true) with holder := some (.worker index) }
      else none
  | .testing waited =>
      if state.queue = [] ∧ state.running = true then
        some { state.moveTo index .waiting with holder := none }
      else some (state.moveTo index (.deciding waited))
  | .deciding waited =>
      if state.running = false ∧ state.queue = [] then some (state.moveTo index .leaving)
      else some (state.moveTo index (.fetching waited))
  | .fetching waited =>
      match state.queue with
      -- the front of an empty queue is undefined
      | [] => none
      | pizza :: _ => some (state.moveTo index (.popping waited pizza))
  | .popping _ pizza =>
      some { state.moveTo index (.unlocking pizza) with
        queue := state.queue.tail
        handed := state.handed ++ [(index, pizza)] }
  | .unlocking pizza => some { state.moveTo index (.popped pizza) with holder := none }
  | .leaving => some { state.moveTo index .exited with holder := none }
  | .popped pizza =>
      some ((state.moveTo index (.preparing pizza)).setCook index
        ((state.cooks index).start pizza.recipe))
  | .preparing pizza => some (state.moveTo index (.baking pizza))
  | .baking pizza => some (state.moveTo index (.served pizza))
  | .served pizza =>
      some ((state.moveTo index (.cooked pizza)).setCook index (state.cooks index).finish)
  | .cooked pizza =>
      some { state.moveTo index .locking with
        load := (state.load + (2 ^ 64 - 1)) % 2 ^ 64
        finished := state.finished ++ [(index, pizza)] }
  | .waiting | .exited => none

/-- A stopped stock makes `cookPizza` return before it consumes anything. -/
def giveUp (state : LockedPool nCooks nCallers) (index : Fin nCooks) :
    Option (LockedPool nCooks nCallers) :=
  match state.workers index with
  | .preparing pizza =>
      some ((state.moveTo index (.cooked pizza)).setCook index (state.cooks index).finish)
  | _ => none

def step (state : LockedPool nCooks nCallers) :
    LockedPoolLabel nCooks nCallers → Option (LockedPool nCooks nCallers)
  | .callAddPizza id pizza =>
      if state.callers id = .outside then some (state.place id (.adding pizza)) else none
  | .callStop id =>
      if state.callers id = .outside then some (state.place id .stopping) else none
  | .addPizza id wake => state.addPizza id wake
  | .stop id => state.stop id
  | .worker index => state.workerLoop index
  | .giveUp index => state.giveUp index
  | .wakeSpuriously index =>
      if state.workers index = .waiting then some (state.moveTo index .woken) else none

/-- The machine starts after `start`, with a thread for each cook at its first lock, and the pool
outlives its runs. -/
def machine (nCooks nCallers : Nat) :
    Machine (LockedPool nCooks nCallers) (LockedPoolLabel nCooks nCallers) where
  initial :=
    { cooks := fun index => Cook.new index.val
      queue := []
      running := true
      load := 0
      holder := none
      workers := fun _ => .locking
      callers := fun _ => .outside
      accepted := []
      handed := []
      finished := []
      stopped := false }
  step := step

end LockedPool

end Plazza
