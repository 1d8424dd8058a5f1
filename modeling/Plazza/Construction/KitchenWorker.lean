import Plazza.Construction.KitchenProcess
import Plazza.Construction.ThreadPool

namespace Plazza
open Plazza.Foundation

/-- The clock counts nanoseconds. -/
def kPollInterval : Nat := 50 * 10 ^ 6

def kIdleTimeout : Nat := 5 * 10 ^ 9

/-- The main thread of a kitchen stands at one of these points of `run`. -/
inductive Control where
  /-- The pool is started and the loop not entered yet. -/
  | starting
  /-- The loop is about to poll the order queue. -/
  | receiving
  /-- The loop handles a packet other than a shutdown. -/
  | handling (packet : Packet)
  /-- The pool accepted a pizza and the active time is not updated yet. -/
  | accepting
  /-- The pool refused a pizza and the full packet is not sent yet. -/
  | refusing (packet : Packet)
  /-- The status response has read the load. -/
  | readingStock (load : Nat)
  /-- The status response reads one cook at a time. -/
  | readingCooks (load : Nat) (stock : Stock) (statuses : List CookStatus)
  /-- The status response has these packets left to send. -/
  | responding (packets : List Packet)
  /-- The loop is about to read the clock. -/
  | sampling (running : Bool)
  /-- The loop has read the clock and is about to read the load. -/
  | checking (running : Bool) (now : Nat)
  /-- The loop sleeps. -/
  | sleeping (running : Bool) (wakeTime : Nat)
  /-- The loop has ended and the pool still runs. -/
  | stopping
  /-- The flag of the pool is cleared and its workers not notified yet. -/
  | notifying
  /-- The pool is stopped and its reset not begun yet. -/
  | joining
  /-- The pool is gone and the shutdown packet not sent yet. -/
  | closing
  | exited

structure KitchenWorker (nCooks : Nat) where
  control : Control
  lastActiveTime : Nat
  stock : Stock
  pool : ThreadPool nCooks

/-- A missing key throws. -/
def packStock (currentStock : Stock) : Option PackedStock :=
  if ∀ index : Fin 9, (currentStock (Ingredient.kAllIngredients.get index).2).isSome then
    some ⟨Vector.ofFn fun index =>
      UInt32.ofNat ((currentStock (Ingredient.kAllIngredients.get index).2).getD 0)⟩
  else none

def packCook (status : CookStatus) : PackedCook where
  id := UInt8.ofInt status.id
  state := status.state.value
  pizzaType := status.type.value
  pizzaSize := status.size.value

/-- The response sends one packet for each cook and then the reply. -/
def sendStatusResponse (load capacity : Nat) (currentStock : Stock)
    (cookStatuses : List CookStatus) : Option (List Packet) := do
  let stock ← packStock currentStock
  let reply : Packet := {
    type := .statusReply
    load := UInt8.ofNat load
    capacity := UInt8.ofNat capacity
    nCooks := UInt8.ofNat cookStatuses.length
    stock }
  return cookStatuses.map (fun status => { type := .cookStatus, cook := packCook status }) ++ [reply]

namespace KitchenWorker

variable {nCooks : Nat}

/-- The worker process starts with the initial stock and an empty pool. -/
def new (nCooks : Nat) : KitchenWorker nCooks where
  control := .starting
  lastActiveTime := 0
  stock := Stock.initial 5
  pool := ThreadPool.start nCooks

def isIdle (worker : KitchenWorker nCooks) : Bool := worker.pool.getLoad = 0

def goto (worker : KitchenWorker nCooks) (control : Control) : KitchenWorker nCooks :=
  { worker with control }

/-- A pizza goes to the pool, a status request to the response and any other packet nowhere. -/
def handlePacket (worker : KitchenWorker nCooks) (packet : Packet) (wake : Fin nCooks → Bool) :
    Option (KitchenWorker nCooks) :=
  match packet.type with
  | .pizza => do
      let pizza ← unpack packet.pizza
      let recipe ← PizzaFactory.create pizza.type pizza.size
      if ThreadPool.NotifiesOne worker.pool.threads wake then
        match worker.pool.addPizza ⟨recipe, packet.origin⟩ wake with
        | (true, pool) => return { worker with pool, control := .accepting }
        | (false, _) => return worker.goto (.refusing packet)
      else none
  | .statusRequest => some (worker.goto (.readingStock worker.pool.getLoad))
  | _ => some (worker.goto (.sampling true))

/-- An idle kitchen leaves the loop when the idle timeout has elapsed. -/
def checkIdle (worker : KitchenWorker nCooks) (running : Bool) (sampled now : Nat) :
    KitchenWorker nCooks :=
  if worker.isIdle then
    if worker.lastActiveTime + kIdleTimeout ≤ sampled then
      worker.goto (.sleeping false (now + kPollInterval))
    else worker.goto (.sleeping running (now + kPollInterval))
  else { worker with lastActiveTime := sampled, control := .sleeping running (now + kPollInterval) }

/-- The reset of the pool begins here once every worker has left its loop. `Demolition` has the earlier
resets too, which destroy the mutex under a worker, and it reaches the same kitchens. -/
def resetPool (worker : KitchenWorker nCooks) : Option (KitchenWorker nCooks) :=
  if ∀ index, worker.pool.threads index = .exited then some (worker.goto .closing) else none

/-- The main thread takes its next step. The process exits with the final send. -/
def run (limit : Option Nat) (now : Nat) (wake : Fin nCooks → Bool)
    (site : Site (KitchenWorker nCooks)) : Option (Site (KitchenWorker nCooks)) :=
  let worker := site.process
  match worker.control with
  | .starting =>
      some { site with process := { worker with lastActiveTime := now, control := .receiving } }
  | .receiving =>
      match site.orderQueue.receive with
      | none => some { site with process := worker.goto (.sampling true) }
      | some (packet, orderQueue) =>
          if packet.type = .shutdown then
            some { site with orderQueue, process := worker.goto (.sampling false) }
          else some { site with orderQueue, process := worker.goto (.handling packet) }
  | .handling packet =>
      (worker.handlePacket packet wake).map fun process => { site with process }
  | .accepting =>
      some { site with process := { worker with lastActiveTime := now, control := .sampling true } }
  | .refusing packet =>
      site.sendResult limit { type := .full, pizza := packet.pizza, origin := packet.origin }
        (worker.goto (.sampling true))
  | .readingStock load => some { site with process := worker.goto (.readingCooks load worker.stock []) }
  | .readingCooks load stock statuses =>
      if more : statuses.length < nCooks then
        let status := (worker.pool.cooks ⟨statuses.length, more⟩).status
        some { site with process := worker.goto (.readingCooks load stock (statuses ++ [status])) }
      else
        (sendStatusResponse load worker.pool.getCapacity stock statuses).map fun packets =>
          { site with process := worker.goto (.responding packets) }
  | .responding [] => some { site with process := worker.goto (.sampling true) }
  | .responding (packet :: rest) => site.sendResult limit packet (worker.goto (.responding rest))
  | .sampling running => some { site with process := worker.goto (.checking running now) }
  | .checking running sampled => some { site with process := worker.checkIdle running sampled now }
  | .sleeping running wakeTime =>
      if wakeTime ≤ now then
        some { site with process := worker.goto (if running then .receiving else .stopping) }
      else none
  | .stopping =>
      some { site with process := { worker with pool := worker.pool.stop, control := .notifying } }
  | .notifying =>
      some { site with process := { worker with pool := worker.pool.notifyAll, control := .joining } }
  | .joining => worker.resetPool.map fun process => { site with process }
  | .closing => site.sendResult limit { type := .shutdown } (worker.goto .exited)
  | .exited => none

/-- A cook step is a worker step with the consumption of the stock and the done packet. -/
def cookPizza (limit : Option Nat) (index : Fin nCooks) (site : Site (KitchenWorker nCooks)) :
    Option (Site (KitchenWorker nCooks)) := do
  let worker := site.process
  let pool ← worker.pool.workerLoop index
  match worker.pool.threads index with
  | .preparing ticket => do
      let needed ← toIngredients ticket.recipe.ingredients
      if worker.stock.allAvailable needed then
        return { site with process := { worker with pool, stock := worker.stock.consume needed } }
      else none
  | .baking ticket =>
      site.sendResult limit { type := .done, pizza := ticket.packed, origin := ticket.origin }
        { worker with pool }
  | _ => return { site with process := { worker with pool } }

def hasExited (worker : KitchenWorker nCooks) : Bool :=
  match worker.control with
  | .exited => true
  | _ => false

/-- The labels interleave the threads of one kitchen process. -/
inductive Label (nCooks : Nat) where
  | main (wake : Fin nCooks → Bool)
  | cook (index : Fin nCooks)
  | wakeSpuriously (index : Fin nCooks)
  | regenerate

def step (limit : Option Nat) (now : Nat) (site : Site (KitchenWorker nCooks)) :
    Label nCooks → Option (Site (KitchenWorker nCooks))
  | .main wake => run limit now wake site
  | .cook index => cookPizza limit index site
  | .wakeSpuriously index =>
      (site.process.pool.wakeSpuriously index).map fun pool =>
        { site with process := { site.process with pool } }
  | .regenerate =>
      if site.process.hasExited then none
      else some { site with
        process := { site.process with stock := site.process.stock.regenerate } }

/-- The kitchen process of the program. -/
def process (nCooks : Nat) (limit : Option Nat) : KitchenProcess where
  State := KitchenWorker nCooks
  Label := Label nCooks
  initial := new nCooks
  step := step limit
  exited := hasExited

end KitchenWorker

end Plazza
