import Plazza.Construction.Pizzeria

namespace Plazza
open Plazza.Foundation

/-- A done report carries the wire form of its pizza. -/
def DoneReport.packed (report : DoneReport) : PackedPizza := pack ⟨report.type, report.size⟩

/-- Every packet moves the handle and the log in this way. -/
structure Handled (kitchen : KitchenHandle) (packet : Packet) (next : KitchenHandle)
    (report : Option DoneReport) : Prop where
  id : next.id = kitchen.id
  capacity : next.capacity = kitchen.capacity
  load : next.load = if packet.isAnswer then kitchen.dropLoad.load else kitchen.load
  alive : next.alive = (kitchen.alive && packet.type ≠ .shutdown)
  done : packet.type = .done → ∃ line, report = some line ∧ line.kitchenId = kitchen.id ∧
    line.packed = packet.pizza
  silent : packet.type ≠ .done → report = none
  eq : handlePacket kitchen packet = some (next, report)

/-- A handled packet has the effect of its type. -/
theorem handled_of_handlePacket {kitchen next : KitchenHandle} {packet : Packet}
    {report : Option DoneReport} (handled : handlePacket kitchen packet = some (next, report)) :
    Handled kitchen packet next report := by
  have eq := handled
  unfold handlePacket at handled
  split at handled
  · rename_i type
    obtain ⟨result, done, same⟩ := Option.map_eq_some_iff.mp handled
    simp only [handleDonePacket, Option.bind_eq_bind, Option.bind_eq_some_iff] at done
    obtain ⟨pizza, unpacked, recipe, _, kept⟩ := done
    obtain rfl := Option.some.inj kept
    cases same
    refine ⟨rfl, rfl, by simp [Packet.isAnswer, type], by simp [KitchenHandle.dropLoad, type],
      fun _ => ⟨_, rfl, rfl, pack_of_unpack unpacked⟩, fun other => absurd type other, eq⟩
  · rename_i type
    obtain ⟨result, status, same⟩ := Option.map_eq_some_iff.mp handled
    simp only [handleCookStatusPacket, Option.bind_eq_bind, Option.bind_eq_some_iff] at status
    obtain ⟨_, _, _, _, _, _, _, _, kept⟩ := status
    obtain rfl := Option.some.inj kept
    cases same
    exact ⟨rfl, rfl, by simp [Packet.isAnswer, type], by simp [type], by simp [type], fun _ => rfl, eq⟩
  · rename_i type
    cases handled
    exact ⟨rfl, rfl, by simp [Packet.isAnswer, type, handleStatusReplyPacket],
      by simp [type, handleStatusReplyPacket], by simp [type], fun _ => rfl, eq⟩
  · rename_i type
    cases handled
    exact ⟨rfl, rfl, by simp [Packet.isAnswer, type, handleShutdownPacket],
      by simp [type, handleShutdownPacket], by simp [type], fun _ => rfl, eq⟩
  · rename_i type
    cases handled
    exact ⟨rfl, rfl, by simp [Packet.isAnswer, type, handleFullPacket],
      by simp [type, handleFullPacket, KitchenHandle.dropLoad], by simp [type], fun _ => rfl, eq⟩
  · rename_i notDone _ _ notShutdown notFull
    cases handled
    have silent : packet.isAnswer = false := by
      simpa [Packet.isAnswer] using And.intro notDone notFull
    exact ⟨rfl, rfl, by simp [silent], by simpa using fun _ => notShutdown,
      fun done => absurd done notDone, fun _ => rfl, eq⟩

/-- An operation has one of these effects on its handle and its site. -/
inductive Operation.Effect {P : KitchenProcess} (kitchen : KitchenHandle) (site : Site P.State) :
    Operation → Outcome P.State → Prop
  | handle (packet : Packet) (resultQueue : Fifo Packet) (next : KitchenHandle)
      (report : Option DoneReport) (received : site.resultQueue.receive = some (packet, resultQueue))
      (exits : packet.type = .shutdown → P.exited site.process = true)
      (handled : Handled kitchen packet next report) :
      Effect kitchen site .handle ⟨next, { site with resultQueue }, report⟩
  | send (pizza : Pizza) (origin : Int) :
      Effect kitchen site (.send pizza origin) ⟨{ kitchen with load := kitchen.load + 1 },
        { site with orderQueue :=
            site.orderQueue.send { type := .pizza, pizza := pack pizza, origin } }, none⟩
  | request :
      Effect kitchen site .request ⟨{ kitchen with pendingCooks := [] },
        { site with orderQueue := site.orderQueue.send { type := .statusRequest } }, none⟩
  | close :
      Effect kitchen site .close ⟨kitchen,
        { site with orderQueue := site.orderQueue.send { type := .shutdown } }, none⟩
  | reap (exits : P.exited site.process = true) :
      Effect kitchen site .reap ⟨{ kitchen with alive := false }, site, none⟩

/-- A send succeeds only when the order queue has room. -/
theorem sendOrder_eq {State : Type} {site next : Site State} {limit : Option Nat} {packet : Packet}
    (sent : site.sendOrder limit packet = some next) :
    next = { site with orderQueue := site.orderQueue.send packet } := by
  unfold Site.sendOrder at sent
  split at sent <;> cases sent
  rfl

/-- Every outcome of an operation is one of its effects. -/
theorem Operation.effect_of_run {P : KitchenProcess} {limit : Option Nat} {operation : Operation}
    {kitchen : KitchenHandle} {site : Site P.State} {outcome : Outcome P.State}
    (ran : operation.run limit kitchen site = some outcome) :
    operation.Effect kitchen site outcome := by
  cases operation with
  | handle =>
      obtain ⟨⟨packet, resultQueue⟩, received, ran⟩ := Option.bind_eq_some_iff.mp ran
      simp only at ran
      split at ran
      · cases ran
      · rename_i waits
        obtain ⟨⟨next, report⟩, handled, same⟩ := Option.bind_eq_some_iff.mp ran
        obtain rfl := Option.some.inj same
        refine .handle packet resultQueue next report received (fun shutdown => ?_)
          (handled_of_handlePacket handled)
        simpa [shutdown] using waits
  | send pizza origin =>
      obtain ⟨next, sent, same⟩ := Option.bind_eq_some_iff.mp ran
      obtain rfl := Option.some.inj same
      obtain rfl := sendOrder_eq sent
      exact .send pizza origin
  | request =>
      obtain ⟨next, sent, same⟩ := Option.bind_eq_some_iff.mp ran
      obtain rfl := Option.some.inj same
      obtain rfl := sendOrder_eq sent
      exact .request
  | close =>
      obtain ⟨next, sent, same⟩ := Option.bind_eq_some_iff.mp ran
      obtain rfl := Option.some.inj same
      obtain rfl := sendOrder_eq sent
      exact .close
  | reap =>
      simp only [Operation.run] at ran
      split at ran <;> cases ran
      rename_i exits
      exact .reap exits

namespace Pizzeria

variable {P : KitchenProcess}

/-- A step begins a call, takes a statement of the reception, moves a kitchen or passes time. -/
inductive Transition (nCooks : Nat) (limit : Option Nat) (pizzeria : Pizzeria P) :
    PizzeriaLabel P → Pizzeria P → Prop
  | order (orders : List PizzaOrder) (ledger : Ledger) (origin : Int) (idle : pizzeria.call = .idle)
      (registered : pizzeria.ledger.orderCallback orders = some (ledger, origin)) :
      Transition nCooks limit pizzeria (.order orders) { pizzeria with
        ledger
        accepted := pizzeria.accepted ++ [(origin, expand orders)]
        call := .updating 0 (expand orders) origin }
  | status (idle : pizzeria.call = .idle) :
      Transition nCooks limit pizzeria .status { pizzeria with call := .requesting 0 [] }
  | poll (idle : pizzeria.call = .idle) :
      Transition nCooks limit pizzeria .poll { pizzeria with call := .updating 0 [] 0 }
  | close (idle : pizzeria.call = .idle) :
      Transition nCooks limit pizzeria .close { pizzeria with call := .shuttingDown 0 }
  | skip (call : Call) (chosen : pizzeria.next = some (.skip, call)) :
      Transition nCooks limit pizzeria .reception { pizzeria with call }
  | apply (index : Nat) (operation : Operation) (call : Call) (kitchen : KitchenHandle)
      (outcome : Outcome P.State) (chosen : pizzeria.next = some (.apply index operation, call))
      (found : pizzeria.kitchens[index]? = some kitchen)
      (effect : operation.Effect kitchen (pizzeria.sites kitchen.id) outcome) :
      Transition nCooks limit pizzeria .reception
        { (pizzeria.touch index outcome.kitchen outcome.site).record outcome.report with call }
  | erase (call : Call) (chosen : pizzeria.next = some (.erase, call)) :
      Transition nCooks limit pizzeria .reception
        { pizzeria with kitchens := pizzeria.kitchens.filter KitchenHandle.alive, call }
  | spawn (call : Call) (chosen : pizzeria.next = some (.spawn, call)) :
      Transition nCooks limit pizzeria .reception { pizzeria with
        kitchens := pizzeria.kitchens ++ [KitchenHandle.new pizzeria.nextKitchenId nCooks]
        nextKitchenId := pizzeria.nextKitchenId + 1
        sites := Function.update pizzeria.sites pizzeria.nextKitchenId (Site.fresh P.initial)
        call }
  | report (call : Call) (reports : List (List KitchenStatus))
      (chosen : pizzeria.next = some (.report, call)) :
      Transition nCooks limit pizzeria .reception { pizzeria with reports, call }
  | destroy (call : Call) (chosen : pizzeria.next = some (.destroy, call)) :
      Transition nCooks limit pizzeria .reception { pizzeria with kitchens := [], call }
  | kitchen (id : Nat) (label : P.Label) (site : Site P.State) (spawned : id < pizzeria.nextKitchenId)
      (taken : P.step pizzeria.now (pizzeria.sites id) label = some site) :
      Transition nCooks limit pizzeria (.kitchen id label)
        { pizzeria with sites := Function.update pizzeria.sites id site }
  | elapse (duration : Nat) :
      Transition nCooks limit pizzeria (.elapse duration)
        { pizzeria with now := pizzeria.now + duration }

/-- Every step of the machine is one of the transitions. -/
theorem transition_of_step {nCooks : Nat} {limit : Option Nat} {pizzeria next : Pizzeria P}
    {label : PizzeriaLabel P} (taken : pizzeria.step nCooks limit label = some next) :
    Transition nCooks limit pizzeria label next := by
  cases label with
  | order orders =>
      simp only [step] at taken
      split at taken
      · obtain ⟨⟨ledger, origin⟩, registered, rfl⟩ := Option.map_eq_some_iff.mp taken
        exact .order orders ledger origin ‹_› registered
      · cases taken
  | status =>
      simp only [step] at taken
      split at taken <;> cases taken
      exact .status ‹_›
  | poll =>
      simp only [step] at taken
      split at taken <;> cases taken
      exact .poll ‹_›
  | close =>
      simp only [step] at taken
      split at taken <;> cases taken
      exact .close ‹_›
  | reception =>
      obtain ⟨⟨action, call⟩, chosen, taken⟩ := Option.bind_eq_some_iff.mp taken
      obtain ⟨middle, performed, same⟩ := Option.bind_eq_some_iff.mp taken
      obtain rfl := Option.some.inj same
      cases action with
      | skip => cases performed; exact .skip call chosen
      | apply index operation =>
          obtain ⟨kitchen, found, performed⟩ := Option.bind_eq_some_iff.mp performed
          obtain ⟨outcome, ran, same⟩ := Option.bind_eq_some_iff.mp performed
          obtain rfl := Option.some.inj same
          exact .apply index operation call kitchen outcome chosen found (Operation.effect_of_run ran)
      | erase => cases performed; exact .erase call chosen
      | spawn => cases performed; exact .spawn call chosen
      | report => cases performed; exact .report call _ chosen
      | destroy => cases performed; exact .destroy call chosen
  | kitchen id label =>
      simp only [step] at taken
      split at taken
      · obtain ⟨site, moved, rfl⟩ := Option.map_eq_some_iff.mp taken
        exact .kitchen id label site ‹_› moved
      · cases taken
  | elapse duration => cases taken; exact .elapse duration

@[simp] theorem kitchens_record (pizzeria : Pizzeria P) (report : Option DoneReport) :
    (pizzeria.record report).kitchens = pizzeria.kitchens := by cases report <;> rfl

@[simp] theorem sites_record (pizzeria : Pizzeria P) (report : Option DoneReport) :
    (pizzeria.record report).sites = pizzeria.sites := by cases report <;> rfl

@[simp] theorem nextKitchenId_record (pizzeria : Pizzeria P) (report : Option DoneReport) :
    (pizzeria.record report).nextKitchenId = pizzeria.nextKitchenId := by cases report <;> rfl

@[simp] theorem log_record (pizzeria : Pizzeria P) (report : Option DoneReport) :
    (pizzeria.record report).log = pizzeria.log ++ report.toList := by
  cases report
  · exact (List.append_nil _).symm
  · rfl

end Pizzeria

end Plazza
