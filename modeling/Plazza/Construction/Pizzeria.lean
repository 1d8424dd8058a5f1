import Plazza.Construction.KitchenProcess
import Plazza.Construction.LoadBalancer
import Plazza.Construction.Ledger
import Plazza.Foundation.Machine

namespace Plazza
open Plazza.Foundation

/-- The reception stands at one of these points of its running call. -/
inductive Call where
  | idle
  /-- The loop of `updateKitchens` enters the kitchen at the index. A poll has no pizza to send. -/
  | updating (index : Nat) (todo : List Pizza) (origin : Int)
  /-- The loop of `updateKitchens` drains the kitchen at the index. -/
  | draining (index : Nat) (todo : List Pizza) (origin : Int)
  /-- The loop of `dispatch` has these pizzas left, perhaps with a new kitchen for the first. -/
  | dispatching (todo : List Pizza) (origin : Int) (spawned : Bool)
  /-- The loop of `requestStatusForAll` enters the kitchen at the index. -/
  | requesting (index : Nat) (pendingIDs : List Nat)
  /-- The pass over the pending ids keeps the first list and has the second one left. -/
  | polling (kept rest : List Nat)
  /-- The pass drains the kitchen of the id at the index. -/
  | answering (kept : List Nat) (id index : Nat) (rest : List Nat) (gotReply : Bool)
  /-- The loop of `shutdown` enters the kitchen at the index. -/
  | shuttingDown (index : Nat)
  /-- The loop of `shutdown` waits for the process of the kitchen at the index. -/
  | awaiting (index : Nat)
  | destroyed
  deriving DecidableEq

/-- An operation of the reception on one kitchen. -/
inductive Operation where
  | handle
  | send (pizza : Pizza) (origin : Int)
  | request
  | close
  | reap
  deriving DecidableEq

/-- One statement of the reception. -/
inductive Action where
  | skip
  | apply (index : Nat) (operation : Operation)
  | erase
  | spawn
  | report
  | destroy
  deriving DecidableEq

/-- The system is the reception with the callbacks of `main` and one site for each kitchen id. The
field `accepted` is a history of the orders: the id of each order and the pizzas it asks for. -/
structure Pizzeria (P : KitchenProcess) where
  kitchens : List KitchenHandle
  nextKitchenId : Nat
  log : List DoneReport
  ledger : Ledger
  accepted : List (Int × List Pizza)
  reports : List (List KitchenStatus)
  call : Call
  sites : Nat → Site P.State
  now : Nat

inductive PizzeriaLabel (P : KitchenProcess) where
  | order (orders : List PizzaOrder)
  | status
  | poll
  | close
  | reception
  | kitchen (id : Nat) (label : P.Label)
  | elapse (duration : Nat)

/-- The result of an operation is the new handle, the new site and the report of a done packet. -/
structure Outcome (State : Type) where
  kitchen : KitchenHandle
  site : Site State
  report : Option DoneReport

/-- A send on the order queue waits until the queue has room. A shutdown packet is handled once
the wait for its process has returned. -/
def Operation.run {P : KitchenProcess} (limit : Option Nat) (operation : Operation)
    (kitchen : KitchenHandle) (site : Site P.State) : Option (Outcome P.State) :=
  match operation with
  | .handle => do
      let (packet, resultQueue) ← site.resultQueue.receive
      if packet.type = .shutdown ∧ P.exited site.process = false then none
      else
        let (kitchen, report) ← handlePacket kitchen packet
        return ⟨kitchen, { site with resultQueue }, report⟩
  | .send pizza origin => do
      let site ← site.sendOrder limit { type := .pizza, pizza := pack pizza, origin }
      return ⟨{ kitchen with load := kitchen.load + 1 }, site, none⟩
  | .request => do
      let site ← site.sendOrder limit { type := .statusRequest }
      return ⟨{ kitchen with pendingCooks := [] }, site, none⟩
  | .close => do
      let site ← site.sendOrder limit { type := .shutdown }
      return ⟨kitchen, site, none⟩
  | .reap =>
      if P.exited site.process then some ⟨{ kitchen with alive := false }, site, none⟩ else none

namespace Pizzeria

variable {P : KitchenProcess}

def initial (P : KitchenProcess) : Pizzeria P where
  kitchens := []
  nextKitchenId := 0
  log := []
  ledger := Ledger.initial
  accepted := []
  reports := []
  call := .idle
  sites _ := Site.fresh P.initial
  now := 0

/-- The oldest unread packet of a kitchen decides whether a receive succeeds. -/
def inbox (pizzeria : Pizzeria P) (kitchen : KitchenHandle) : Option Packet :=
  (pizzeria.sites kitchen.id).resultQueue.pending.head?

/-- The control of the reception chooses the next action and the call state after it. -/
def next (pizzeria : Pizzeria P) : Option (Action × Call) :=
  match pizzeria.call with
  | .idle => none
  | .updating index todo origin =>
      match pizzeria.kitchens[index]? with
      | none => some (.erase, .dispatching todo origin false)
      | some kitchen =>
          if kitchen.alive then some (.skip, .draining index todo origin)
          else some (.skip, .updating (index + 1) todo origin)
  | .draining index todo origin =>
      match pizzeria.kitchens[index]? with
      | none => none
      | some kitchen =>
          match pizzeria.inbox kitchen with
          | none => some (.skip, .updating (index + 1) todo origin)
          | some _ => some (.apply index .handle, .draining index todo origin)
  | .dispatching [] _ _ => some (.skip, .idle)
  | .dispatching (pizza :: rest) origin true =>
      some (.apply (pizzeria.kitchens.length - 1) (.send pizza origin),
        .dispatching rest origin false)
  | .dispatching (pizza :: rest) origin false =>
      match bestKitchen pizzeria.kitchens with
      | none => some (.spawn, .dispatching (pizza :: rest) origin true)
      | some index => some (.apply index (.send pizza origin), .dispatching rest origin false)
  | .requesting index pendingIDs =>
      match pizzeria.kitchens[index]? with
      | none => some (.skip, .polling [] pendingIDs)
      | some kitchen =>
          if kitchen.alive then
            some (.apply index .request, .requesting (index + 1) (pendingIDs ++ [kitchen.id]))
          else some (.skip, .requesting (index + 1) pendingIDs)
  | .polling [] [] => some (.report, .idle)
  | .polling (id :: kept) [] => some (.skip, .polling [] (id :: kept))
  | .polling kept (id :: rest) =>
      match pizzeria.kitchens.findIdx? fun kitchen => kitchen.id = id with
      | none => some (.skip, .polling kept rest)
      | some index =>
          if (pizzeria.kitchens[index]?.map KitchenHandle.alive).getD false then
            some (.skip, .answering kept id index rest false)
          else some (.skip, .polling kept rest)
  | .answering kept id index rest gotReply =>
      match pizzeria.kitchens[index]? with
      | none => none
      | some kitchen =>
          match pizzeria.inbox kitchen with
          | some packet =>
              some (.apply index .handle,
                .answering kept id index rest (gotReply || packet.type = .statusReply))
          | none =>
              if gotReply || !kitchen.alive then some (.skip, .polling kept rest)
              else some (.skip, .polling (kept ++ [id]) rest)
  | .shuttingDown index =>
      match pizzeria.kitchens[index]? with
      | none => some (.destroy, .destroyed)
      | some kitchen =>
          if kitchen.alive then some (.apply index .close, .awaiting index)
          else some (.skip, .shuttingDown (index + 1))
  | .awaiting index => some (.apply index .reap, .shuttingDown (index + 1))
  | .destroyed => none

/-- The completion callback follows the log line. -/
def record (pizzeria : Pizzeria P) (report : Option DoneReport) : Pizzeria P :=
  match report with
  | none => pizzeria
  | some report => { pizzeria with
      log := pizzeria.log ++ [report]
      ledger := pizzeria.ledger.doneCallback }

/-- The update changes one handle and the site of its id. -/
def touch (pizzeria : Pizzeria P) (index : Nat) (kitchen : KitchenHandle) (site : Site P.State) :
    Pizzeria P :=
  { pizzeria with
    kitchens := pizzeria.kitchens.set index kitchen
    sites := Function.update pizzeria.sites kitchen.id site }

/-- The action changes the handles, the queues and the records of the reception. -/
def perform (nCooks : Nat) (limit : Option Nat) (pizzeria : Pizzeria P) :
    Action → Option (Pizzeria P)
  | .skip => some pizzeria
  | .apply index operation => do
      let kitchen ← pizzeria.kitchens[index]?
      let outcome ← operation.run limit kitchen (pizzeria.sites kitchen.id)
      return (pizzeria.touch index outcome.kitchen outcome.site).record outcome.report
  | .erase => some { pizzeria with kitchens := pizzeria.kitchens.filter KitchenHandle.alive }
  | .spawn => some { pizzeria with
      kitchens := pizzeria.kitchens ++ [KitchenHandle.new pizzeria.nextKitchenId nCooks]
      nextKitchenId := pizzeria.nextKitchenId + 1
      sites := Function.update pizzeria.sites pizzeria.nextKitchenId (Site.fresh P.initial) }
  | .report => some { pizzeria with
      reports := pizzeria.reports ++
        [(pizzeria.kitchens.filter KitchenHandle.alive).map KitchenHandle.status] }
  | .destroy => some { pizzeria with kitchens := [] }

/-- An idle reception may begin any call and a running call takes its next statement. -/
def step (nCooks : Nat) (limit : Option Nat) (pizzeria : Pizzeria P) :
    PizzeriaLabel P → Option (Pizzeria P)
  | .order orders =>
      if pizzeria.call = .idle then
        (pizzeria.ledger.orderCallback orders).map fun result => { pizzeria with
          ledger := result.1
          accepted := pizzeria.accepted ++ [(result.2, expand orders)]
          call := .updating 0 (expand orders) result.2 }
      else none
  | .status =>
      if pizzeria.call = .idle then some { pizzeria with call := .requesting 0 [] } else none
  | .poll => if pizzeria.call = .idle then some { pizzeria with call := .updating 0 [] 0 } else none
  | .close =>
      if pizzeria.call = .idle then some { pizzeria with call := .shuttingDown 0 } else none
  | .reception => do
      let (action, call) ← pizzeria.next
      let pizzeria ← pizzeria.perform nCooks limit action
      return { pizzeria with call }
  | .kitchen id label =>
      if id < pizzeria.nextKitchenId then
        (P.step pizzeria.now (pizzeria.sites id) label).map fun site =>
          { pizzeria with sites := Function.update pizzeria.sites id site }
      else none
  | .elapse duration => some { pizzeria with now := pizzeria.now + duration }

/-- The machine interleaves one reception with every kitchen that it has spawned. -/
def machine (P : KitchenProcess) (nCooks : Nat) (limit : Option Nat) :
    Machine (Pizzeria P) (PizzeriaLabel P) where
  initial := initial P
  step := step nCooks limit

end Pizzeria

end Plazza
