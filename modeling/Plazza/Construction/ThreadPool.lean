import Plazza.Construction.Cook
import Mathlib.Data.Fintype.Basic
import Mathlib.Logic.Function.Basic

namespace Plazza

/-- The pool queues recipes. The second field is a history variable for the order of the pizza. -/
structure Ticket where
  recipe : PizzaRecipe
  origin : Int
  deriving DecidableEq

/-- A done packet carries this wire form back to the reception. -/
def Ticket.packed (ticket : Ticket) : PackedPizza :=
  pack ⟨ticket.recipe.type, ticket.recipe.size⟩

def Ticket.tag (ticket : Ticket) : PackedPizza × Int := (ticket.packed, ticket.origin)

/-- A worker stands at one of these points of `workerLoop` and of the `cookPizza` call in it. -/
inductive Position where
  /-- The worker is about to lock the queue mutex. -/
  | locking
  /-- The worker sleeps on the condition variable. -/
  | waiting
  /-- The worker was woken and does not hold the mutex yet. -/
  | woken
  /-- The worker has moved a pizza out of the queue and unlocked the mutex. -/
  | popped (ticket : Ticket)
  /-- The cook shows the pizza and waits for its ingredients. -/
  | preparing (ticket : Ticket)
  /-- The ingredients are consumed and the done packet is not sent yet. -/
  | baking (ticket : Ticket)
  /-- The done packet is sent and the cook still shows the pizza. -/
  | served (ticket : Ticket)
  /-- The call of `cookPizza` has returned and the load is not decremented yet. -/
  | cooked (ticket : Ticket)
  /-- The worker has left the loop. -/
  | exited
  deriving DecidableEq

/-- A worker holds the pizza from the pop to the decrement. -/
def Position.held : Position → Option Ticket
  | popped ticket | preparing ticket | baking ticket | served ticket | cooked ticket => some ticket
  | locking | waiting | woken | exited => none

/-- The cook owes a done packet until it has sent it. -/
def Position.owed : Position → Option Ticket
  | popped ticket | preparing ticket | baking ticket => some ticket
  | locking | waiting | woken | served _ | cooked _ | exited => none

/-- A worker that is woken or on its way to the mutex will test the queue. -/
def Position.testing : Position → Bool
  | locking | woken => true
  | _ => false

/-- The two last fields are histories of the handed and the finished pizzas. -/
structure ThreadPool (nCooks : Nat) where
  cooks : Fin nCooks → Cook
  threads : Fin nCooks → Position
  queue : List Ticket
  running : Bool
  load : Nat
  accepted : List Ticket
  handed : List (Fin nCooks × Ticket)
  finished : List (Fin nCooks × Ticket)

namespace ThreadPool

variable {nCooks : Nat}

/-- The pool after `start` has one thread for each cook. -/
def start (nCooks : Nat) : ThreadPool nCooks where
  cooks index := Cook.new index.val
  threads _ := .locking
  queue := []
  running := true
  load := 0
  accepted := []
  handed := []
  finished := []

/-- The capacity is an unsigned 64-bit product. -/
def getCapacity (_pool : ThreadPool nCooks) : Nat := 2 * nCooks % 2 ^ 64

def isFull (pool : ThreadPool nCooks) : Bool := pool.getCapacity ≤ pool.load

def getLoad (pool : ThreadPool nCooks) : Nat := pool.load

/-- Each woken sleeper leaves the condition variable. -/
def wakeThreads (threads : Fin nCooks → Position) (wake : Fin nCooks → Bool) :
    Fin nCooks → Position :=
  fun index => if threads index = .waiting ∧ wake index then .woken else threads index

/-- A single notification wakes at least one sleeper if there is any. -/
def NotifiesOne (threads : Fin nCooks → Position) (wake : Fin nCooks → Bool) : Prop :=
  (∃ index, threads index = .waiting) → ∃ index, threads index = .waiting ∧ wake index

instance (threads : Fin nCooks → Position) (wake : Fin nCooks → Bool) :
    Decidable (NotifiesOne threads wake) := inferInstanceAs (Decidable (_ → _))

/-- The critical section answers whether the pool accepts the pizza. -/
def addPizza (pool : ThreadPool nCooks) (pizza : Ticket) (wake : Fin nCooks → Bool) :
    Bool × ThreadPool nCooks :=
  if pool.isFull then (false, pool)
  else (true, { pool with
    queue := pool.queue ++ [pizza]
    load := (pool.load + 1) % 2 ^ 64
    threads := wakeThreads pool.threads wake
    accepted := pool.accepted ++ [pizza] })

/-- The critical section of `stop` only clears the flag. -/
def stop (pool : ThreadPool nCooks) : ThreadPool nCooks := { pool with running := false }

/-- The notification of `stop` follows its critical section. -/
def notifyAll (pool : ThreadPool nCooks) : ThreadPool nCooks :=
  { pool with threads := wakeThreads pool.threads fun _ => true }

def move (pool : ThreadPool nCooks) (index : Fin nCooks) (position : Position) :
    ThreadPool nCooks :=
  { pool with threads := Function.update pool.threads index position }

def setCook (pool : ThreadPool nCooks) (index : Fin nCooks) (cook : Cook) : ThreadPool nCooks :=
  { pool with cooks := Function.update pool.cooks index cook }

/-- The critical section of the worker ends in a sleep, in an exit or with a pizza. -/
def takePizza (pool : ThreadPool nCooks) (index : Fin nCooks) : ThreadPool nCooks :=
  match pool.queue with
  | [] => if pool.running then pool.move index .waiting else pool.move index .exited
  | pizza :: rest =>
      { pool.move index (.popped pizza) with
        queue := rest
        handed := pool.handed ++ [(index, pizza)] }

/-- The atomic decrement wraps below zero. -/
def finishPizza (pool : ThreadPool nCooks) (index : Fin nCooks) (pizza : Ticket) :
    ThreadPool nCooks :=
  { pool.move index .locking with
    load := (pool.load + (2 ^ 64 - 1)) % 2 ^ 64
    finished := pool.finished ++ [(index, pizza)] }

/-- A sleeping worker and a worker that has left the loop have no step. -/
def workerLoop (pool : ThreadPool nCooks) (index : Fin nCooks) : Option (ThreadPool nCooks) :=
  match pool.threads index with
  | .locking | .woken => some (pool.takePizza index)
  | .waiting | .exited => none
  | .popped pizza =>
      some ((pool.move index (.preparing pizza)).setCook index
        ((pool.cooks index).start pizza.recipe))
  | .preparing pizza => some (pool.move index (.baking pizza))
  | .baking pizza => some (pool.move index (.served pizza))
  | .served pizza =>
      some ((pool.move index (.cooked pizza)).setCook index (pool.cooks index).finish)
  | .cooked pizza => some (pool.finishPizza index pizza)

/-- The steps of a worker. A worker that was woken tests the queue as one that just locked it. -/
inductive WorkerStep (pool : ThreadPool nCooks) (index : Fin nCooks) : ThreadPool nCooks → Prop
  | sleep (tests : pool.threads index = .locking ∨ pool.threads index = .woken)
      (empty : pool.queue = []) (runs : pool.running = true) :
      WorkerStep pool index (pool.move index .waiting)
  | leave (tests : pool.threads index = .locking ∨ pool.threads index = .woken)
      (empty : pool.queue = []) (stopped : pool.running = false) :
      WorkerStep pool index (pool.move index .exited)
  | pop (pizza : Ticket) (rest : List Ticket)
      (tests : pool.threads index = .locking ∨ pool.threads index = .woken)
      (front : pool.queue = pizza :: rest) :
      WorkerStep pool index
        { pool.move index (.popped pizza) with
          queue := rest
          handed := pool.handed ++ [(index, pizza)] }
  | prepare (pizza : Ticket) (stands : pool.threads index = .popped pizza) :
      WorkerStep pool index ((pool.move index (.preparing pizza)).setCook index
        ((pool.cooks index).start pizza.recipe))
  | bake (pizza : Ticket) (stands : pool.threads index = .preparing pizza) :
      WorkerStep pool index (pool.move index (.baking pizza))
  | serve (pizza : Ticket) (stands : pool.threads index = .baking pizza) :
      WorkerStep pool index (pool.move index (.served pizza))
  | release (pizza : Ticket) (stands : pool.threads index = .served pizza) :
      WorkerStep pool index
        ((pool.move index (.cooked pizza)).setCook index (pool.cooks index).finish)
  | finish (pizza : Ticket) (stands : pool.threads index = .cooked pizza) :
      WorkerStep pool index (pool.finishPizza index pizza)

theorem takePizza_step {pool : ThreadPool nCooks} {index : Fin nCooks}
    (tests : pool.threads index = .locking ∨ pool.threads index = .woken) :
    pool.WorkerStep index (pool.takePizza index) := by
  unfold takePizza
  split
  case h_1 empty =>
    split
    case isTrue runs => exact .sleep tests empty runs
    case isFalse stopped => exact .leave tests empty (Bool.eq_false_of_not_eq_true stopped)
  case h_2 pizza rest front => exact .pop pizza rest tests front

/-- Every proof about `workerLoop` is by cases on these steps. -/
theorem step_of_workerLoop {pool next : ThreadPool nCooks} {index : Fin nCooks}
    (worked : pool.workerLoop index = some next) : pool.WorkerStep index next := by
  unfold workerLoop at worked
  split at worked <;> cases worked
  case h_1 stands => exact takePizza_step (.inl stands)
  case h_2 stands => exact takePizza_step (.inr stands)
  case h_5 pizza stands => exact .prepare pizza stands
  case h_6 pizza stands => exact .bake pizza stands
  case h_7 pizza stands => exact .serve pizza stands
  case h_8 pizza stands => exact .release pizza stands
  case h_9 pizza stands => exact .finish pizza stands

/-- A worker that tests the queue looks as a locking one wherever a woken one does. -/
theorem view_of_tests {β : Type} (view : Position → β) (same : view .woken = view .locking)
    {pool : ThreadPool nCooks} {index : Fin nCooks}
    (tests : pool.threads index = .locking ∨ pool.threads index = .woken) :
    view (pool.threads index) = view .locking := by
  obtain locking | woken := tests
  · rw [locking]
  · rw [woken, same]

/-- A step of a worker moves only this worker. -/
theorem threads_workerLoop {pool next : ThreadPool nCooks} {index other : Fin nCooks}
    (worked : pool.workerLoop index = some next) (apart : other ≠ index) :
    next.threads other = pool.threads other := by
  have moved : ∀ position, Function.update pool.threads index position other = pool.threads other :=
    fun position => Function.update_of_ne apart position pool.threads
  cases step_of_workerLoop worked <;> exact moved _

/-- A stopped stock makes `cookPizza` return before it consumes anything. -/
def giveUp (pool : ThreadPool nCooks) (index : Fin nCooks) : Option (ThreadPool nCooks) :=
  match pool.threads index with
  | .preparing pizza =>
      some ((pool.move index (.cooked pizza)).setCook index (pool.cooks index).finish)
  | _ => none

/-- A condition variable may wake a sleeper without a notification. -/
def wakeSpuriously (pool : ThreadPool nCooks) (index : Fin nCooks) : Option (ThreadPool nCooks) :=
  if pool.threads index = .waiting then some (pool.move index .woken) else none

end ThreadPool

end Plazza
