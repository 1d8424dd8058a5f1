import Plazza.Construction.LoadBalancer
import Plazza.Proof.Kitchen.Alone

namespace Plazza
open Plazza.Foundation

/-- The reception can handle the packet. -/
def Packet.Legible (packet : Packet) : Prop :=
  ∀ kitchen : KitchenHandle, (handlePacket kitchen packet).isSome

/-- Only a done packet and a cook status are decoded. -/
theorem legible_of_plain {packet : Packet} (notDone : packet.type ≠ .done)
    (notStatus : packet.type ≠ .cookStatus) : packet.Legible := by
  intro kitchen
  unfold handlePacket
  split
  · exact absurd ‹_› notDone
  · exact absurd ‹_› notStatus
  all_goals rfl

/-- A done packet carries the wire form of a pizza. -/
theorem legible_done (ticket : Ticket) :
    Packet.Legible { type := .done, pizza := ticket.packed, origin := ticket.origin } := by
  intro kitchen
  obtain ⟨recipe, created, _⟩ := PizzaFactory.create_spec ticket.recipe.type ticket.recipe.size
  simp [handlePacket, handleDonePacket, Ticket.packed, created]

/-- A cook status carries the bytes of enumerators. -/
theorem legible_status (status : CookStatus) :
    Packet.Legible { type := .cookStatus, cook := packCook status } := by
  intro kitchen
  obtain ⟨recipe, created, _⟩ := PizzaFactory.create_spec status.type status.size
  simp [handlePacket, handleCookStatusPacket, packCook, created]

/-- A response has cook statuses and the reply. -/
theorem legible_response {load capacity : Nat} {stock : Stock} {statuses : List CookStatus}
    {packets : List Packet} (built : sendStatusResponse load capacity stock statuses = some packets) :
    ∀ packet ∈ packets, packet.Legible := by
  obtain ⟨packed, _, same⟩ := Option.bind_eq_some_iff.mp built
  obtain rfl := Option.some.inj same
  intro packet member
  rcases List.mem_append.mp member with status | reply
  · obtain ⟨shown, _, rfl⟩ := List.mem_map.mp status
    exact legible_status shown
  · obtain rfl := List.mem_singleton.mp reply
    exact legible_of_plain (by simp) (by simp)

/-- The packets of a response that are not sent yet. -/
def Control.outbox : Control → List Packet
  | responding packets => packets
  | _ => []

namespace KitchenWorker

variable {nCooks : Nat} {limit : Option Nat} {now : Nat}

/-- Everything that the kitchen has sent or is about to send is legible. -/
structure Writes (site : Site (KitchenWorker nCooks)) : Prop where
  sent : ∀ packet ∈ site.resultQueue.sent, packet.Legible
  outbox : ∀ packet ∈ site.process.control.outbox, packet.Legible

/-- A step without a send and without a response keeps the packets legible. -/
theorem Writes.keep {site next : Site (KitchenWorker nCooks)} (writes : Writes site)
    (results : next.resultQueue = site.resultQueue)
    (outbox : ∀ packet ∈ next.process.control.outbox, packet ∈ site.process.control.outbox) :
    Writes next where
  sent := results ▸ writes.sent
  outbox packet member := writes.outbox packet (outbox packet member)

/-- A legible send keeps the packets legible. -/
theorem Writes.send {site next : Site (KitchenWorker nCooks)} (writes : Writes site)
    {packet : Packet} (legible : packet.Legible)
    (results : next.resultQueue = site.resultQueue.send packet)
    (outbox : ∀ packet ∈ next.process.control.outbox, packet ∈ site.process.control.outbox) :
    Writes next where
  sent := by
    rw [results]
    exact Fifo.forall_sent_send writes.sent legible
  outbox other member := writes.outbox other (outbox other member)

/-- Every advance of the main thread keeps the packets legible. -/
theorem Writes.advance {site : Site (KitchenWorker nCooks)} {process : KitchenWorker nCooks}
    (writes : Writes site) (moves : Advance now site.process process) :
    Writes { site with process } := by
  cases moves with
  | build load stock statuses packets control all built =>
      exact ⟨writes.sent, legible_response built⟩
  | wake running => cases running <;> exact writes.keep rfl fun _ member => by cases member
  | start | accepted | readStock | readCook | responded | sample | timeOut | idle | busy =>
      exact writes.keep rfl fun _ member => by cases member

/-- Every step of the kitchen keeps the packets legible. -/
theorem Writes.step {site next : Site (KitchenWorker nCooks)} {label : Label nCooks}
    (writes : Writes site) (moved : Transition limit now site label next) : Writes next := by
  cases moved with
  | advance wake process moves => exact writes.advance moves
  | sendFull => exact writes.send (legible_of_plain (by simp) (by simp)) rfl fun _ member => by cases member
  | respond wake packet rest control =>
      have listed : ∀ other ∈ packet :: rest, other ∈ site.process.control.outbox := by
        intro other member
        rw [control]
        exact member
      refine writes.send (writes.outbox packet (listed packet List.mem_cons_self)) rfl ?_
      exact fun other member => listed other (List.mem_cons_of_mem _ member)
  | close => exact writes.send (legible_of_plain (by simp) (by simp)) rfl fun _ member => by cases member
  | serve index ticket => exact writes.send (legible_done ticket) rfl fun _ member => member
  | cook | consume | wakeSpuriously | regenerate => exact writes.keep rfl fun _ member => member
  | pollEmpty | pollShutdown | poll | accept | refuse | request | ignore | stop | notify | join =>
      exact writes.keep rfl fun _ member => by cases member

end KitchenWorker

namespace Kitchen

variable {nCooks : Nat} {limit : Option Nat}

/-- The reception can handle everything that a kitchen sends. -/
theorem writes_of_reachable {kitchen : Kitchen nCooks}
    (reached : (machine nCooks limit).Reachable kitchen) : KitchenWorker.Writes kitchen.site := by
  refine reached.invariant (motive := fun kitchen => KitchenWorker.Writes kitchen.site) ?_ ?_
  · constructor <;> intro packet member <;> cases member
  · intro kitchen next label _ writes _ taken
    cases label with
    | deliver packet =>
        cases taken
        exact ⟨writes.sent, writes.outbox⟩
    | collect =>
        obtain ⟨⟨packet, resultQueue⟩, received, rfl⟩ := Option.map_eq_some_iff.mp taken
        exact ⟨Fifo.sent_receive received ▸ writes.sent, writes.outbox⟩
    | process moved =>
        obtain ⟨site, stepped, rfl⟩ := Option.map_eq_some_iff.mp taken
        exact writes.step (KitchenWorker.transition_of_step stepped)
    | elapse duration =>
        cases taken
        exact writes

end Kitchen

end Plazza
