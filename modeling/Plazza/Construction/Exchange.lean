import Plazza.Construction.KitchenWorker
import Plazza.Construction.Pizzeria

namespace Plazza
open Plazza.Foundation

def Packet.isRequest (packet : Packet) : Bool := packet.type = .statusRequest

def Packet.isReply (packet : Packet) : Bool := packet.type = .statusReply

/-- The packets of a status response. -/
def Packet.isStatus (packet : Packet) : Bool :=
  packet.type = .cookStatus || packet.type = .statusReply

/-- One execution of `sendStatusResponse`: the call of `getStatus` that it serves and what it reads. -/
structure Response where
  call : Nat
  load : Nat
  capacity : Nat
  stock : Stock
  statuses : List CookStatus

/-- The packets that the execution sends. -/
def Response.packets (response : Response) : List Packet :=
  (sendStatusResponse response.load response.capacity response.stock response.statuses).getD []

/-- The history of one kitchen: the call of `getStatus` behind each request, and the responses. -/
structure Exchange where
  requests : List Nat
  responses : List Response

namespace Exchange

def empty : Exchange := ⟨[], []⟩

/-- The request of a call of `getStatus` goes to the kitchen. -/
def ask (exchange : Exchange) (call : Nat) : Exchange :=
  { exchange with requests := exchange.requests ++ [call] }

/-- The main thread serves the status request that it has received last. -/
def served {State : Type} (exchange : Exchange) (site : Site State) : Nat :=
  exchange.requests.getD (site.orderQueue.received.countP Packet.isRequest - 1) 0

/-- An execution is recorded when all its reads are done. -/
def answer {nCooks : Nat} (exchange : Exchange) (site : Site (KitchenWorker nCooks)) :
    KitchenWorker.Label nCooks → Exchange
  | .main _ =>
      match site.process.control with
      | .readingCooks load stock statuses =>
          if statuses.length < nCooks then exchange
          else { exchange with responses := exchange.responses ++
            [⟨exchange.served site, load, site.process.pool.getCapacity, stock, statuses⟩] }
      | _ => exchange
  | _ => exchange

end Exchange

namespace Pizzeria

variable {nCooks : Nat} {limit : Option Nat}

/-- The calls of `getStatus` are numbered by the reports before them. -/
def exchange (pizzeria : Pizzeria (KitchenWorker.process nCooks limit)) :
    PizzeriaLabel (KitchenWorker.process nCooks limit) →
      Pizzeria (KitchenWorker.process nCooks limit) → (Nat → Exchange) → Nat → Exchange
  | .reception, _, exchanges =>
      match pizzeria.next with
      | some (.apply index .request, _) =>
          match pizzeria.kitchens[index]? with
          | some kitchen => Function.update exchanges kitchen.id
              ((exchanges kitchen.id).ask pizzeria.reports.length)
          | none => exchanges
      | _ => exchanges
  | .kitchen id label, _, exchanges =>
      Function.update exchanges id ((exchanges id).answer (pizzeria.sites id) label)
  | _, _, exchanges => exchanges

/-- The machine of the program with the history of every status exchange. -/
def exchanging (nCooks : Nat) (limit : Option Nat) :
    Machine (Pizzeria (KitchenWorker.process nCooks limit) × (Nat → Exchange))
      (PizzeriaLabel (KitchenWorker.process nCooks limit)) :=
  (machine (KitchenWorker.process nCooks limit) nCooks limit).withHistory exchange
    fun _ => Exchange.empty

end Pizzeria

end Plazza
