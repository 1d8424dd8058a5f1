import Plazza.Proof.Kitchen.Alone
import Plazza.Proof.Pool.Progress

namespace Plazza
open Plazza.Foundation

/-- The ticket that a kitchen makes of a pizza packet. -/
def Packet.ticket (packet : Packet) : Option Ticket := do
  let pizza ← unpack packet.pizza
  let recipe ← PizzaFactory.create pizza.type pizza.size
  return ⟨recipe, packet.origin⟩

/-- A ticket has a recipe of the factory. -/
theorem Packet.created_of_ticket {packet : Packet} {ticket : Ticket}
    (made : packet.ticket = some ticket) :
    ∃ type size, PizzaFactory.create type size = some ticket.recipe := by
  simp only [Packet.ticket, Option.bind_eq_bind, Option.bind_eq_some_iff] at made
  obtain ⟨pizza, _, recipe, created, same⟩ := made
  obtain rfl := Option.some.inj same
  exact ⟨_, _, created⟩

/-- The owner of the pool has called `stop` from here on, and then notified its workers. -/
def Control.phase : Control → Phase
  | notifying => .stopping
  | joining | closing | exited => .stopped
  | _ => .serving

/-- The call that the main thread makes on the pool from here. -/
def Control.event {nCooks : Nat} (control : Control) (wake : Fin nCooks → Bool) :
    Option (PoolLabel nCooks) :=
  match control with
  | handling packet =>
      if packet.type = .pizza then packet.ticket.map fun ticket => .addPizza ticket wake else none
  | stopping => some .stop
  | notifying => some .notifyAll
  | _ => none

namespace KitchenWorker

variable {nCooks : Nat}

/-- An advance makes no call on the pool. -/
theorem Advance.event {worker next : KitchenWorker nCooks} {now : Nat}
    (moves : Advance now worker next) (wake : Fin nCooks → Bool) :
    worker.control.event wake = none ∧ worker.control.phase = .serving ∧
      next.control.phase = .serving := by
  cases moves with
  | wake running wakeTime control =>
      rw [control]
      cases running with
      | false => exact ⟨rfl, rfl, rfl⟩
      | true => exact ⟨rfl, rfl, rfl⟩
  | start control | accepted control | readStock _ control | readCook _ _ _ control
  | build _ _ _ _ control | responded control | sample _ control | timeOut _ _ control
  | idle _ _ control | busy _ _ control =>
      rw [control]
      exact ⟨rfl, rfl, rfl⟩

/-- A pizza packet is offered to the pool and any other packet does not reach it. -/
theorem handlePacket_cases {worker next : KitchenWorker nCooks} {packet : Packet}
    {wake : Fin nCooks → Bool} (handled : worker.handlePacket packet wake = some next) :
    next.control.phase = .serving ∧
      ((∃ ticket, packet.type = .pizza ∧ packet.ticket = some ticket ∧
          ThreadPool.NotifiesOne worker.pool.threads wake ∧
          next.pool = (worker.pool.addPizza ticket wake).2) ∨
        packet.type ≠ .pizza ∧ next.pool = worker.pool) := by
  unfold handlePacket at handled
  split at handled
  · rename_i type
    simp only [Option.bind_eq_bind, Option.bind_eq_some_iff] at handled
    obtain ⟨pizza, unpacked, recipe, created, handled⟩ := handled
    have made : packet.ticket = some ⟨recipe, packet.origin⟩ := by
      simp [Packet.ticket, unpacked, created]
    split at handled
    · rename_i notifies
      split at handled <;> rename_i pool added <;> cases handled
      · exact ⟨rfl, .inl ⟨_, type, made, notifies, by rw [added]⟩⟩
      · refine ⟨rfl, .inl ⟨_, type, made, notifies, ?_⟩⟩
        exact (worker.pool.addPizza_refused _ wake (by rw [added])).symm
    · cases handled
  · rename_i type
    cases handled
    exact ⟨rfl, .inr ⟨by simp [type], rfl⟩⟩
  · rename_i notPizza _
    cases handled
    exact ⟨rfl, .inr ⟨notPizza, rfl⟩⟩

end KitchenWorker

namespace Kitchen

variable {nCooks : Nat} {limit : Option Nat}

/-- The pool of a kitchen and how far its owner is. -/
def client (kitchen : Kitchen nCooks) : PoolClient nCooks :=
  ⟨kitchen.site.process.pool, kitchen.site.process.control.phase⟩

/-- The step of the pool that a step of the kitchen makes. -/
def observe (kitchen : Kitchen nCooks) : KitchenLabel nCooks → Option (PoolLabel nCooks)
  | .process (.main wake) => kitchen.site.process.control.event wake
  | .process (.cook index) => some (.worker index)
  | .process (.wakeSpuriously index) => some (.wakeSpuriously index)
  | .process .regenerate | .deliver _ | .collect | .elapse _ => none

/-- The pool machine follows each step of the process. -/
theorem follows_transition {now : Nat} {site next : Site (KitchenWorker nCooks)}
    {label : KitchenWorker.Label nCooks} (taken : KitchenWorker.step limit now site label = some next) :
    (PoolClient.machine nCooks).Follows (client ⟨site, now⟩) (observe ⟨site, now⟩ (.process label))
      (client ⟨next, now⟩) := by
  by_cases handles : ∃ wake packet, label = .main wake ∧ site.process.control = .handling packet
  · obtain ⟨wake, packet, rfl, control⟩ := handles
    simp only [KitchenWorker.step, KitchenWorker.run, control] at taken
    obtain ⟨process, handled, rfl⟩ := Option.map_eq_some_iff.mp taken
    obtain ⟨serving, ⟨ticket, pizza, made, notifies, added⟩ | ⟨other, same⟩⟩ :=
      KitchenWorker.handlePacket_cases handled
    · simp only [Machine.Follows, observe, client, control, Control.event, pizza, made, serving,
        if_true, Option.map_some, added]
      exact if_pos ⟨rfl, notifies⟩
    · simp only [Machine.Follows, observe, client, control, Control.event, other, serving, if_false,
        same]
      rfl
  · have apart : ∀ packet, site.process.control = .handling packet →
        ∀ wake, label ≠ .main wake := fun packet control wake same => handles ⟨wake, packet, same, control⟩
    cases KitchenWorker.transition_of_step taken with
    | advance wake process moves =>
        obtain ⟨silent, before, after⟩ := moves.event wake
        have pool := moves.points.1
        simp only [Machine.Follows, observe, client, silent, before, after, pool]
    | pollEmpty _ control | pollShutdown _ _ _ control | poll _ _ _ control
    | sendFull _ _ control | respond _ _ _ control | join _ control | close _ control =>
        simp only [Machine.Follows, observe, client, control, Control.event]
        rfl
    | accept wake packet _ _ control | refuse wake packet control | request wake packet control
    | ignore wake packet control => exact absurd rfl (apart packet control wake)
    | stop wake control | notify wake control =>
        simp only [Machine.Follows, observe, client, control, Control.event]
        rfl
    | cook index pool worked | consume index _ pool _ _ worked | serve index _ pool _ worked =>
        exact Option.map_eq_some_iff.mpr ⟨pool, worked, rfl⟩
    | wakeSpuriously index pool woken => exact Option.map_eq_some_iff.mpr ⟨pool, woken, rfl⟩
    | regenerate => rfl

/-- The pool machine follows each step of the kitchen. -/
theorem follows_step {kitchen next : Kitchen nCooks} {label : KitchenLabel nCooks}
    (taken : kitchen.step limit label = some next) :
    (PoolClient.machine nCooks).Follows kitchen.client (kitchen.observe label) next.client := by
  cases label with
  | deliver packet =>
      cases taken
      rfl
  | collect =>
      obtain ⟨_, _, rfl⟩ := Option.map_eq_some_iff.mp taken
      rfl
  | process label =>
      obtain ⟨site, stepped, rfl⟩ := Option.map_eq_some_iff.mp taken
      exact follows_transition stepped
  | elapse duration =>
      cases taken
      rfl

/-- The pool inside a kitchen is a pool with its owner. -/
theorem refines_poolClient (nCooks : Nat) (limit : Option Nat) :
    Machine.Refinement (machine nCooks limit) (PoolClient.machine nCooks) client observe :=
  .of_follows rfl fun _ taken => follows_step taken

end Kitchen

end Plazza
