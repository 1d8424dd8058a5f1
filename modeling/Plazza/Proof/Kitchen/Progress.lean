import Plazza.Proof.Kitchen.Provisions
import Plazza.Proof.Stock.Regrowth

namespace Plazza
open Plazza.Foundation

/-- A pizza packet carries the wire form of a pizza. -/
def Packet.Readable (packet : Packet) : Prop :=
  packet.type = .pizza → ∃ pizza, unpack packet.pizza = some pizza

namespace KitchenLabel

variable {nCooks : Nat}

/-- The main thread runs the loop of the kitchen. -/
def Main : KitchenLabel nCooks → Prop
  | .process (.main _) => True
  | _ => False

/-- The thread of one cook. -/
def Cook (index : Fin nCooks) : KitchenLabel nCooks → Prop
  | .process (.cook other) => other = index
  | _ => False

/-- The regeneration thread of the stock. -/
def Regenerator : KitchenLabel nCooks → Prop
  | .process .regenerate => True
  | _ => False

end KitchenLabel

namespace Kitchen

variable {nCooks : Nat} {limit : Option Nat}

/-- What the threads and the environment of a kitchen do for its progress: each thread gets its
turns, the clock passes the end of each sleep, the reader of the results makes room again and again
until the process exits, and the pizza packets are readable. -/
structure Scheduled (execution : (machine nCooks limit).Execution) : Prop where
  main : execution.Fair KitchenLabel.Main
  cook : ∀ index, execution.Fair (KitchenLabel.Cook index)
  regenerator : execution.Fair KitchenLabel.Regenerator
  clock : ∀ moment running wakeTime,
    (execution.state moment).site.process.control = .sleeping running wakeTime →
      ∃ later, moment ≤ later ∧ wakeTime ≤ (execution.state later).now
  room : Again fun moment => (execution.state moment).site.process.hasExited = true ∨
    hasRoom limit (execution.state moment).site.resultQueue.pending = true
  readable : ∀ moment, ∀ packet ∈ (execution.state moment).site.orderQueue.sent, packet.Readable

/-- Only the main thread moves the control. -/
theorem control_step {kitchen next : Kitchen nCooks} {label : KitchenLabel nCooks}
    (taken : kitchen.step limit label = some next) (other : ¬label.Main) :
    next.site.process.control = kitchen.site.process.control := by
  rcases step_cases taken with ⟨moved, site, rfl, rfl, stepped⟩ | ⟨_, same, _⟩
  · cases stepped with
    | cook | consume | serve | wakeSpuriously | regenerate => rfl
    | advance | pollEmpty | pollShutdown | poll | accept | refuse | request | ignore | sendFull
    | respond | stop | notify | join | close => exact absurd trivial other
  · rw [same]

/-- The order queue is read by the main thread and filled by the environment. -/
theorem orderQueue_step {kitchen next : Kitchen nCooks} {label : KitchenLabel nCooks}
    (taken : kitchen.step limit label = some next) :
    kitchen.site.orderQueue.sent <+: next.site.orderQueue.sent ∧
      kitchen.site.orderQueue.received <+: next.site.orderQueue.received := by
  cases label with
  | deliver packet =>
      cases taken
      exact ⟨by rw [Fifo.sent_send]; exact List.prefix_append _ _, List.prefix_rfl⟩
  | collect =>
      obtain ⟨_, _, rfl⟩ := Option.map_eq_some_iff.mp taken
      exact ⟨List.prefix_rfl, List.prefix_rfl⟩
  | process label =>
      obtain ⟨site, stepped, rfl⟩ := Option.map_eq_some_iff.mp taken
      cases KitchenWorker.transition_of_step stepped with
      | pollShutdown _ _ _ _ received | poll _ _ _ _ received =>
          obtain ⟨_, history⟩ := Fifo.receive_eq_some_iff.mp received
          exact ⟨by rw [Fifo.sent_receive received], by rw [history]; exact List.prefix_append _ _⟩
      | advance | pollEmpty | accept | refuse | request | ignore | sendFull | respond | stop | notify
      | join | close | cook | consume | serve | wakeSpuriously | regenerate =>
          exact ⟨List.prefix_rfl, List.prefix_rfl⟩
  | elapse duration =>
      cases taken
      exact ⟨List.prefix_rfl, List.prefix_rfl⟩

/-- The main thread handles a packet that it has received. -/
theorem inHand_of_reachable {kitchen : Kitchen nCooks}
    (reached : (machine nCooks limit).Reachable kitchen) :
    ∀ packet, kitchen.site.process.control = .handling packet →
      packet ∈ kitchen.site.orderQueue.received := by
  refine reached.invariant (motive := fun kitchen => ∀ packet,
    kitchen.site.process.control = .handling packet →
      packet ∈ kitchen.site.orderQueue.received) nofun ?_
  intro kitchen next label _ before _ taken packet control
  by_cases main : label.Main
  · rcases step_cases taken with ⟨moved, site, rfl, rfl, stepped⟩ | ⟨other, _⟩
    · cases stepped with
      | poll wake received orderQueue _ history =>
          obtain ⟨_, rest⟩ := Fifo.receive_eq_some_iff.mp history
          cases control
          rw [rest]
          exact List.mem_append_right _ (List.mem_singleton_self _)
      | advance wake process moves =>
          cases moves with
          | wake running => cases running <;> cases control
          | start | accepted | readStock | readCook | build | responded | sample | timeOut | idle
          | busy => cases control
      | pollEmpty | pollShutdown | accept | refuse | request | ignore | sendFull | respond | stop
      | notify | join | close => cases control
      | cook | consume | serve | wakeSpuriously | regenerate => cases main
    · cases label with
      | process moved => exact absurd rfl (other moved)
      | deliver | collect | elapse => cases main
  · rw [control_step taken main] at control
    exact (orderQueue_step taken).2.subset (before packet control)

/-- What the next step of the main thread waits for. -/
def Ready (limit : Option Nat) (kitchen : Kitchen nCooks) : Prop :=
  match kitchen.site.process.control with
  | .handling packet => packet.Readable
  | .refusing _ | .responding (_ :: _) | .closing =>
      hasRoom limit kitchen.site.resultQueue.pending = true
  | .sleeping _ wakeTime => wakeTime ≤ kitchen.now
  | .joining => ∀ index, kitchen.site.process.pool.threads index = .exited
  | .exited => False
  | _ => True

/-- A stock with all keys can be packed. -/
theorem exists_response {stock : Stock} (keys : ∀ ingredient, (stock ingredient).isSome)
    (load capacity : Nat) (statuses : List CookStatus) :
    ∃ packets, sendStatusResponse load capacity stock statuses = some packets := by
  simp [sendStatusResponse, packStock, keys]

/-- A readable packet can be handled. -/
theorem exists_handled (worker : KitchenWorker nCooks) {packet : Packet}
    (readable : packet.Readable) : ∃ next, worker.handlePacket packet (fun _ => true) = some next := by
  unfold KitchenWorker.handlePacket
  split
  · rename_i type
    obtain ⟨pizza, unpacked⟩ := readable type
    obtain ⟨recipe, created, _⟩ := PizzaFactory.create_spec pizza.type pizza.size
    have notifies := ThreadPool.notifiesOne_all worker.pool.threads
    simp only [unpacked, created, Option.bind_eq_bind, Option.bind_some, if_pos notifies]
    split <;> exact ⟨_, rfl⟩
  · exact ⟨_, rfl⟩
  · exact ⟨_, rfl⟩

/-- The main thread of a ready kitchen has a step. -/
theorem enables_main {kitchen : Kitchen nCooks} (stocked : Stocked kitchen.site.process)
    (ready : kitchen.Ready limit) : (machine nCooks limit).Enables KitchenLabel.Main kitchen := by
  suffices moves : ∃ site, KitchenWorker.run limit kitchen.now (fun _ => true) kitchen.site =
      some site by
    obtain ⟨site, ran⟩ := moves
    exact ⟨.process (.main fun _ => true), { kitchen with site }, trivial,
      Option.map_eq_some_iff.mpr ⟨site, ran, rfl⟩⟩
  cases control : kitchen.site.process.control with
  | receiving =>
      simp only [KitchenWorker.run, control]
      split
      · exact ⟨_, rfl⟩
      · split <;> exact ⟨_, rfl⟩
  | handling packet =>
      simp only [Ready, control] at ready
      obtain ⟨next, handled⟩ := exists_handled kitchen.site.process ready
      simp only [KitchenWorker.run, control, handled, Option.map_some]
      exact ⟨_, rfl⟩
  | refusing packet | closing =>
      simp only [Ready, control] at ready
      simp only [KitchenWorker.run, control, Site.sendResult, if_pos ready]
      exact ⟨_, rfl⟩
  | readingCooks load stock statuses =>
      simp only [KitchenWorker.run, control]
      split
      · exact ⟨_, rfl⟩
      · obtain ⟨packets, built⟩ := exists_response (stocked.copied load stock statuses control) load
          kitchen.site.process.pool.getCapacity statuses
        simp only [built, Option.map_some]
        exact ⟨_, rfl⟩
  | responding packets =>
      cases packets with
      | nil =>
          simp only [KitchenWorker.run, control]
          exact ⟨_, rfl⟩
      | cons packet rest =>
          simp only [Ready, control] at ready
          simp only [KitchenWorker.run, control, Site.sendResult, if_pos ready]
          exact ⟨_, rfl⟩
  | sleeping running wakeTime =>
      simp only [Ready, control] at ready
      simp only [KitchenWorker.run, control, if_pos ready]
      exact ⟨_, rfl⟩
  | joining =>
      simp only [Ready, control] at ready
      simp only [KitchenWorker.run, control, KitchenWorker.resetPool, if_pos ready, Option.map_some]
      exact ⟨_, rfl⟩
  | exited =>
      simp only [Ready, control] at ready
  | starting | accepting | readingStock | sampling | checking | stopping | notifying =>
      simp only [KitchenWorker.run, control]
      exact ⟨_, rfl⟩

end Kitchen

end Plazza
