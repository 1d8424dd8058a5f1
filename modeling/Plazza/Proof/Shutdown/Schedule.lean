import Plazza.Proof.Shutdown.Deadlock

namespace Plazza
open Plazza.Foundation

/-- The next step of the cook neither consumes ingredients nor sends. -/
def Position.quiet : Position → Bool
  | preparing _ | baking _ => false
  | _ => true

/-- A cook with a pizza goes on to this position until the call of `cookPizza` returns. -/
def Position.forward : Position → Option Position
  | popped ticket => some (preparing ticket)
  | preparing ticket => some (baking ticket)
  | baking ticket => some (served ticket)
  | served ticket => some (cooked ticket)
  | locking | waiting | woken | cooked _ | exited => none

namespace ThreadPool

variable {nCooks : Nat}

/-- The pools differ in the position of one worker and in what its cook shows. -/
structure Moved (pool : ThreadPool nCooks) (index : Fin nCooks) (position : Position)
    (next : ThreadPool nCooks) : Prop where
  threads : next.threads = Function.update pool.threads index position
  queue : next.queue = pool.queue
  running : next.running = pool.running
  load : next.load = pool.load

/-- The moved worker stands at its new position. -/
theorem Moved.here {pool next : ThreadPool nCooks} {index : Fin nCooks} {position : Position}
    (moved : pool.Moved index position next) : next.threads index = position := by
  rw [moved.threads, Function.update_self]

/-- Two moves of one worker make one. -/
theorem Moved.trans {pool middle next : ThreadPool nCooks} {index : Fin nCooks}
    {first second : Position} (moved : pool.Moved index first middle)
    (again : middle.Moved index second next) : pool.Moved index second next where
  threads := by rw [again.threads, moved.threads, Function.update_idem]
  queue := again.queue.trans moved.queue
  running := again.running.trans moved.running
  load := again.load.trans moved.load

/-- A cook with a pizza only moves forward. -/
theorem exists_forward {pool : ThreadPool nCooks} {index : Fin nCooks} {position : Position}
    (forward : (pool.threads index).forward = some position) :
    ∃ next, pool.workerLoop index = some next ∧ pool.Moved index position next := by
  unfold workerLoop
  cases stands : pool.threads index <;> rw [stands] at forward <;> cases forward <;>
    exact ⟨_, rfl, rfl, rfl, rfl, rfl⟩

end ThreadPool

namespace KitchenWorker

variable {nCooks : Nat} {limit : Option Nat} {now : Nat} {site : Site (KitchenWorker nCooks)}

/-- Every advance of the main thread is a step that it can take. -/
theorem step_of_advance {process : KitchenWorker nCooks} (moves : Advance now site.process process)
    (wake : Fin nCooks → Bool) : step limit now site (.main wake) = some { site with process } := by
  cases moves with
  | start control | accepted control | readStock _ control | responded control
  | sample _ control => simp only [step, run, control]
  | readCook load stock statuses control more => simp only [step, run, control, more, dif_pos]
  | build load stock statuses packets control all built =>
      simp only [step, run, control, Nat.not_lt.mpr all, dif_neg, not_false_eq_true, built,
        Option.map_some]
  | timeOut running sampled control idle elapsed =>
      simp only [step, run, control, checkIdle, idle, elapsed, if_true]
  | idle running sampled control idle early =>
      simp only [step, run, control, checkIdle, idle, if_true, if_neg (Nat.not_le.mpr early)]
  | busy running sampled control busy =>
      simp only [step, run, control, checkIdle, busy]
      rfl
  | wake running wakeTime control elapsed =>
      simp only [step, run, control, elapsed, if_true]

/-- The main thread receives a packet to handle. -/
theorem step_receive {packet : Packet} {orderQueue : Fifo Packet}
    (control : site.process.control = .receiving)
    (received : site.orderQueue.receive = some (packet, orderQueue))
    (other : packet.type ≠ .shutdown) (wake : Fin nCooks → Bool) :
    step limit now site (.main wake) =
      some { site with orderQueue, process := site.process.goto (.handling packet) } := by
  simp only [step, run, control, received, if_neg other]

/-- The main thread receives the shutdown packet. -/
theorem step_receiveShutdown {orderQueue : Fifo Packet}
    (control : site.process.control = .receiving)
    (received : site.orderQueue.receive = some ({ type := .shutdown }, orderQueue))
    (wake : Fin nCooks → Bool) : step limit now site (.main wake) =
      some { site with orderQueue, process := site.process.goto (.sampling false) } := by
  simp only [step, run, control, received, if_true]

/-- The recipe of a small margarita. -/
def margarita : PizzaRecipe := ⟨.margarita, .s, ["dough", "tomato", "gruyere"], 1⟩

/-- The reception asks for a small margarita of this order. -/
def margaritaPacket (origin : Int) : Packet :=
  { type := .pizza, pizza := pack ⟨.margarita, .s⟩, origin }

/-- A notification needs to wake nobody while every worker is about to lock the mutex. -/
theorem notifiesOne_of_locking {threads : Fin nCooks → Position}
    (locking : ∀ index, threads index = .locking) :
    ThreadPool.NotifiesOne threads fun _ => false := by
  intro ⟨index, waits⟩
  rw [locking index] at waits
  cases waits

/-- The main thread passes a margarita to a pool with room. -/
theorem step_accept {origin : Int}
    (control : site.process.control = .handling (margaritaPacket origin))
    (locking : ∀ index, site.process.pool.threads index = .locking)
    (open' : site.process.pool.isFull = false) :
    step limit now site (.main fun _ => false) = some { site with process := { site.process with
      control := .accepting
      pool := { site.process.pool with
        queue := site.process.pool.queue ++ [⟨margarita, origin⟩]
        load := (site.process.pool.load + 1) % 2 ^ 64
        accepted := site.process.pool.accepted ++ [⟨margarita, origin⟩] } } } := by
  have recipe : PizzaFactory.create .margarita .s = some margarita := rfl
  have woken : ThreadPool.wakeThreads site.process.pool.threads (fun _ => false) =
      site.process.pool.threads := by
    funext index
    simp [ThreadPool.wakeThreads]
  simp only [step, run, control, margaritaPacket, handlePacket, unpack_pack, recipe,
    Option.bind_eq_bind, Option.bind_some, if_pos (notifiesOne_of_locking locking),
    ThreadPool.addPizza, open', woken]
  rfl

/-- The main thread is refused by a full pool. -/
theorem step_refuse {origin : Int}
    (control : site.process.control = .handling (margaritaPacket origin))
    (locking : ∀ index, site.process.pool.threads index = .locking)
    (full : site.process.pool.isFull = true) :
    step limit now site (.main fun _ => false) =
      some { site with process := site.process.goto (.refusing (margaritaPacket origin)) } := by
  have recipe : PizzaFactory.create .margarita .s = some margarita := rfl
  simp only [step, run, control, margaritaPacket, handlePacket, unpack_pack, recipe,
    Option.bind_eq_bind, Option.bind_some, if_pos (notifiesOne_of_locking locking),
    ThreadPool.addPizza, full, if_true]
  rfl

/-- The main thread sends back a refused pizza. -/
theorem step_sendFull {packet : Packet} (control : site.process.control = .refusing packet)
    (room : hasRoom limit site.resultQueue.pending = true) (wake : Fin nCooks → Bool) :
    step limit now site (.main wake) = some { site with
      resultQueue := site.resultQueue.send
        { type := .full, pizza := packet.pizza, origin := packet.origin }
      process := site.process.goto (.sampling true) } := by
  simp only [step, run, control, Site.sendResult, room, if_true]

/-- The main thread decides how the loop goes on. -/
theorem step_check {running : Bool} {sampled : Nat} {process : KitchenWorker nCooks}
    (control : site.process.control = .checking running sampled)
    (checked : site.process.checkIdle running sampled now = process) (wake : Fin nCooks → Bool) :
    step limit now site (.main wake) = some { site with process } := by
  simp only [step, run, control, checked]

/-- The main thread clears the flag of the pool. -/
theorem step_stop (control : site.process.control = .stopping) (wake : Fin nCooks → Bool) :
    step limit now site (.main wake) = some { site with
      process := { site.process with pool := site.process.pool.stop, control := .notifying } } := by
  simp only [step, run, control]

/-- The main thread notifies the workers. -/
theorem step_notify {pool : ThreadPool nCooks} (control : site.process.control = .notifying)
    (notified : site.process.pool.notifyAll = pool) (wake : Fin nCooks → Bool) :
    step limit now site (.main wake) =
      some { site with process := { site.process with pool, control := .joining } } := by
  simp only [step, run, control, notified]

/-- The main thread joins workers that have left their loop. -/
theorem step_join (control : site.process.control = .joining)
    (exited : ∀ index, site.process.pool.threads index = .exited) (wake : Fin nCooks → Bool) :
    step limit now site (.main wake) =
      some { site with process := site.process.goto .closing } := by
  simp only [step, run, control, resetPool, if_pos exited, Option.map_some]

/-- A cook takes a step that neither consumes ingredients nor sends. -/
theorem step_cook {index : Fin nCooks} {pool : ThreadPool nCooks}
    (worked : site.process.pool.workerLoop index = some pool)
    (quiet : (site.process.pool.threads index).quiet = true) :
    step limit now site (.cook index) =
      some { site with process := { site.process with pool } } := by
  simp only [step, cookPizza, worked, Option.bind_eq_bind, Option.bind_some]
  split
  · rename_i position
    rw [position] at quiet
    cases quiet
  · rename_i position
    rw [position] at quiet
    cases quiet
  · rfl

/-- A cook takes its ingredients. -/
theorem step_consume {index : Fin nCooks} {ticket : Ticket} {pool : ThreadPool nCooks}
    {needed : List Ingredient} (worked : site.process.pool.workerLoop index = some pool)
    (position : site.process.pool.threads index = .preparing ticket)
    (listed : toIngredients ticket.recipe.ingredients = some needed)
    (available : site.process.stock.allAvailable needed = true) :
    step limit now site (.cook index) = some { site with
      process := { site.process with pool, stock := site.process.stock.consume needed } } := by
  simp only [step, cookPizza, worked, position, listed, available, Option.bind_eq_bind,
    Option.bind_some, if_true]
  rfl

/-- A cook sends its done packet. -/
theorem step_serve {index : Fin nCooks} {ticket : Ticket} {pool : ThreadPool nCooks}
    (worked : site.process.pool.workerLoop index = some pool)
    (position : site.process.pool.threads index = .baking ticket)
    (room : hasRoom limit site.resultQueue.pending = true) :
    step limit now site (.cook index) = some { site with
      resultQueue := site.resultQueue.send
        { type := .done, pizza := ticket.packed, origin := ticket.origin }
      process := { site.process with pool } } := by
  simp only [step, cookPizza, worked, position, Option.bind_eq_bind, Option.bind_some,
    Site.sendResult, room, if_true]

/-- The regeneration loop ticks while the process runs. -/
theorem step_regenerate (stays : site.process.hasExited = false) :
    step limit now site .regenerate = some { site with
      process := { site.process with stock := site.process.stock.regenerate } } := by
  simp only [step, stays]
  rfl

theorem toIngredients_margarita :
    toIngredients margarita.ingredients = some [.dough, .tomato, .gruyere] := by
  decide

/-- The stock holds what one margarita needs. -/
def Stocked (stock : Stock) : Prop :=
  stock .dough = some 5 ∧ stock .tomato = some 5 ∧ stock .gruyere = some 5

/-- The ingredients of a margarita are available. -/
theorem Stocked.available {stock : Stock} (stocked : Stocked stock) :
    stock.allAvailable [.dough, .tomato, .gruyere] = true := by
  obtain ⟨dough, tomato, gruyere⟩ := stocked
  simp [Stock.allAvailable, dough, tomato, gruyere]

/-- A tick gives back what a margarita has taken. -/
theorem Stocked.regenerate {stock : Stock} (stocked : Stocked stock) :
    Stocked (stock.consume [.dough, .tomato, .gruyere]).regenerate := by
  obtain ⟨dough, tomato, gruyere⟩ := stocked
  refine ⟨?_, ?_, ?_⟩ <;>
    simp [Stock.regenerate, Stock.consume, Stock.takeUnit, Function.update, dough, tomato, gruyere]

end KitchenWorker

namespace Pizzeria

variable {nCooks : Nat} {limit : Option Nat}

/-- A run leads to this call, these handles, this time and this state of the first kitchen. -/
def Stage (nCooks : Nat) (limit : Option Nat) (call : Call) (kitchens : List KitchenHandle)
    (now : Nat) (site : Site (KitchenWorker nCooks)) : Prop :=
  ∃ pizzeria : Pizzeria (KitchenWorker.process nCooks limit),
    (machine (KitchenWorker.process nCooks limit) nCooks limit).Reachable pizzeria ∧
      0 < pizzeria.nextKitchenId ∧ pizzeria.call = call ∧ pizzeria.kitchens = kitchens ∧
        pizzeria.now = now ∧ pizzeria.sites 0 = site

/-- A step of a reachable state leads to a reachable state. -/
theorem reachable_step {pizzeria next : Pizzeria (KitchenWorker.process nCooks limit)}
    {label : PizzeriaLabel (KitchenWorker.process nCooks limit)}
    (reached : (machine (KitchenWorker.process nCooks limit) nCooks limit).Reachable pizzeria)
    (taken : pizzeria.step nCooks limit label = some next) :
    (machine (KitchenWorker.process nCooks limit) nCooks limit).Reachable next := by
  have moved : (machine (KitchenWorker.process nCooks limit) nCooks limit).step pizzeria label =
      some next := taken
  exact .step reached trivial moved

namespace Stage

variable {call after : Call} {kitchens : List KitchenHandle} {now : Nat}
variable {site next : Site (KitchenWorker nCooks)}

/-- The first kitchen takes a step. -/
theorem kitchen (stage : Stage nCooks limit call kitchens now site)
    (label : KitchenWorker.Label nCooks)
    (taken : KitchenWorker.step limit now site label = some next) :
    Stage nCooks limit call kitchens now next := by
  obtain ⟨pizzeria, reached, spawned, rfl, rfl, rfl, rfl⟩ := stage
  have moved : pizzeria.step nCooks limit (.kitchen 0 label) =
      some { pizzeria with sites := Function.update pizzeria.sites 0 next } := by
    simp only [step, if_pos spawned]
    exact Option.map_eq_some_iff.mpr ⟨next, taken, rfl⟩
  refine ⟨_, reachable_step reached moved, spawned, rfl, rfl, rfl, ?_⟩
  exact Function.update_self 0 next pizzeria.sites

/-- Time passes. -/
theorem elapse (stage : Stage nCooks limit call kitchens now site) (duration : Nat) :
    Stage nCooks limit call kitchens (now + duration) site := by
  obtain ⟨pizzeria, reached, spawned, rfl, rfl, rfl, rfl⟩ := stage
  have moved : pizzeria.step nCooks limit (.elapse duration) =
      some { pizzeria with now := pizzeria.now + duration } := rfl
  exact ⟨_, reachable_step reached moved, spawned, rfl, rfl, rfl, rfl⟩

/-- The reception takes an operation on its only kitchen. -/
theorem apply {kitchen handle : KitchenHandle} {operation : Operation}
    (stage : Stage nCooks limit call [kitchen] now site) (first : kitchen.id = 0)
    (chosen : ∀ pizzeria : Pizzeria (KitchenWorker.process nCooks limit), pizzeria.call = call →
      pizzeria.kitchens = [kitchen] → pizzeria.next = some (.apply 0 operation, after))
    (ran : operation.run (P := KitchenWorker.process nCooks limit) limit kitchen site =
      some ⟨handle, next, none⟩) (same : handle.id = 0) :
    Stage nCooks limit after [handle] now next := by
  obtain ⟨pizzeria, reached, spawned, running, listed, rfl, rfl⟩ := stage
  have decides := chosen pizzeria running listed
  have moved : pizzeria.step nCooks limit .reception =
      some { pizzeria.touch 0 handle next with call := after } := by
    rw [← first] at ran
    simp only [step, decides, perform, listed, List.getElem?_cons_zero, Option.bind_eq_bind,
      Option.bind_some, ran]
    rfl
  refine ⟨_, reachable_step reached moved, spawned, rfl, ?_, rfl, ?_⟩
  · simp only [touch, listed, List.set_cons_zero]
  · simp only [touch, same]
    exact Function.update_self 0 _ _

/-- The reception takes a statement without an operation. -/
theorem skip (stage : Stage nCooks limit call kitchens now site)
    (chosen : ∀ pizzeria : Pizzeria (KitchenWorker.process nCooks limit), pizzeria.call = call →
      pizzeria.kitchens = kitchens → pizzeria.next = some (.skip, after)) :
    Stage nCooks limit after kitchens now site := by
  obtain ⟨pizzeria, reached, spawned, running, listed, rfl, rfl⟩ := stage
  have decides := chosen pizzeria running listed
  have moved : pizzeria.step nCooks limit .reception = some { pizzeria with call := after } := by
    simp only [step, decides, perform, Option.bind_eq_bind, Option.bind_some]
    rfl
  exact ⟨_, reachable_step reached moved, spawned, rfl, listed, rfl, rfl⟩

/-- An idle reception begins its shutdown. -/
theorem close (stage : Stage nCooks limit .idle kitchens now site) :
    Stage nCooks limit (.shuttingDown 0) kitchens now site := by
  obtain ⟨pizzeria, reached, spawned, running, listed, rfl, rfl⟩ := stage
  have moved : pizzeria.step nCooks limit .close =
      some { pizzeria with call := .shuttingDown 0 } := by
    simp only [step, running, if_true]
  exact ⟨_, reachable_step reached moved, spawned, rfl, listed, rfl, rfl⟩

end Stage

end Pizzeria

end Plazza
