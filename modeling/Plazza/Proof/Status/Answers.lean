import Plazza.Proof.Reception.Closing
import Plazza.Proof.Status.Consultation

namespace Plazza
open Plazza.Foundation

namespace Pizzeria

variable {nCooks : Nat} {limit : Option Nat}
  {pizzeria next : Pizzeria (KitchenWorker.process nCooks limit)}
  {label : PizzeriaLabel (KitchenWorker.process nCooks limit)} {exchanges : Nat → Exchange}
  {contract : (KitchenWorker.process nCooks limit).Contract}

@[simp] theorem reports_record {P : KitchenProcess} (pizzeria : Pizzeria P)
    (report : Option DoneReport) : (pizzeria.record report).reports = pizzeria.reports := by
  cases report <;> rfl

/-- A request is recorded with the number of the running call. -/
theorem exchange_request {index : Nat} {call : Call} {kitchen : KitchenHandle}
    (chosen : pizzeria.next = some (.apply index .request, call))
    (found : pizzeria.kitchens[index]? = some kitchen) (exchanges : Nat → Exchange) :
    pizzeria.exchange .reception next exchanges = Function.update exchanges kitchen.id
      ((exchanges kitchen.id).ask pizzeria.reports.length) := by
  simp only [exchange, chosen, found]

/-- Any other statement of the reception records nothing. -/
theorem exchange_other {action : Action} {call : Call}
    (chosen : pizzeria.next = some (action, call))
    (other : ∀ index, action ≠ .apply index .request) (exchanges : Nat → Exchange) :
    pizzeria.exchange .reception next exchanges = exchanges := by
  simp only [exchange, chosen]
  split
  · rename_i same
    obtain ⟨rfl, rfl⟩ := Prod.mk.inj (Option.some.inj same)
    exact absurd rfl (other _)
  · rfl

/-- An operation on one kitchen records nothing for another one. -/
theorem exchange_apart {index : Nat} {operation : Operation} {call : Call}
    {kitchen : KitchenHandle} {id : Nat}
    (chosen : pizzeria.next = some (.apply index operation, call))
    (found : pizzeria.kitchens[index]? = some kitchen) (apart : id ≠ kitchen.id)
    (exchanges : Nat → Exchange) :
    pizzeria.exchange .reception next exchanges id = exchanges id := by
  by_cases request : operation = .request
  · subst request
    rw [exchange_request chosen found, Function.update_of_ne apart]
  · rw [exchange_other chosen (by intro other same; cases same; exact request rfl)]

/-- An execution adds no request. -/
theorem requests_answer (exchange : Exchange) (site : Site (KitchenWorker nCooks))
    (label : KitchenWorker.Label nCooks) :
    (exchange.answer site label).requests = exchange.requests := by
  unfold Exchange.answer
  split
  · split
    · split <;> rfl
    · rfl
  · rfl

/-- A kitchen step records no request. -/
theorem requests_exchange (id : Nat) (label : (KitchenWorker.process nCooks limit).Label)
    (exchanges : Nat → Exchange) (other : Nat) :
    (pizzeria.exchange (.kitchen id label) next exchanges other).requests =
      (exchanges other).requests := by
  simp only [exchange]
  by_cases same : other = id
  · subst same
    rw [Function.update_self]
    exact requests_answer _ _ _
  · rw [Function.update_of_ne same]

/-- The requests and responses of every kitchen agree with its queues and its handle. -/
structure Consulted (pizzeria : Pizzeria (KitchenWorker.process nCooks limit))
    (exchanges : Nat → Exchange) : Prop where
  truthful : ∀ id, (exchanges id).Truthful (pizzeria.sites id)
  fresh : ∀ id ≥ pizzeria.nextKitchenId, exchanges id = Exchange.empty
  heard : ∀ kitchen ∈ pizzeria.kitchens,
    Heard nCooks kitchen (pizzeria.sites kitchen.id).resultQueue.received
  owed : ∀ kitchen ∈ pizzeria.kitchens, kitchen.alive = true →
    (exchanges kitchen.id).requests.length =
      (pizzeria.sites kitchen.id).resultQueue.received.countP Packet.isReply +
        pizzeria.call.awaitedIDs.count kitchen.id
  current : ∀ position kitchen, pizzeria.kitchens[position]? = some kitchen →
    kitchen.alive = true → pizzeria.call.Asked position →
      (exchanges kitchen.id).requests.getLast? = some pizzeria.reports.length

/-- A live kitchen that owes no reply has answered every request, and its handle shows the last
response. -/
structure Replied (nCooks : Nat) (kitchen : KitchenHandle) (exchange : Exchange)
    (site : Site (KitchenWorker nCooks)) : Prop where
  all : exchange.responses.length = exchange.requests.length
  none_left : ∀ packet ∈ site.resultQueue.pending, packet.isStatus = false
  clear : kitchen.pendingCooks = []
  id : kitchen.status.id = kitchen.id
  shown : ∀ response ∈ exchange.responses.getLast?, response.ShownBy kitchen.status

theorem Consulted.replied (consulted : pizzeria.Consulted exchanges)
    {kitchen : KitchenHandle} (member : kitchen ∈ pizzeria.kitchens) (alive : kitchen.alive = true)
    (replied : pizzeria.call.awaitedIDs.count kitchen.id = 0) :
    Replied nCooks kitchen (exchanges kitchen.id) (pizzeria.sites kitchen.id) := by
  have truthful := consulted.truthful kitchen.id
  have owed := consulted.owed kitchen member alive
  rw [replied, Nat.add_zero] at owed
  obtain ⟨received, all, none_left⟩ := truthful.received_eq owed
  obtain ⟨decoded, decodes, clear, status⟩ := consulted.heard kitchen member
  obtain ⟨shown, shows, empty, id, last⟩ := receiveAll_responses truthful.complete
    (rfl : (KitchenHandle.new kitchen.id nCooks).pendingCooks = [])
  rw [received] at decodes
  obtain rfl := Option.some.inj (decodes.symm.trans shows)
  exact ⟨all, none_left, clear.symm.trans empty, status ▸ id, status ▸ last⟩

/-- Every step keeps the histories truthful. -/
theorem Consulted.truthful_step (consulted : pizzeria.Consulted exchanges)
    (moved : Transition nCooks limit pizzeria label next) :
    ∀ id, (pizzeria.exchange label next exchanges id).Truthful (next.sites id) := by
  intro id
  have truthful := consulted.truthful id
  cases moved with
  | apply index operation call handle outcome chosen found effect =>
      simp only [touch, sites_record, effect.id]
      by_cases same : id = handle.id
      · subst same
        rw [Function.update_self]
        by_cases request : operation = .request
        · subst request
          rw [exchange_request chosen found, Function.update_self]
          cases effect
          exact truthful.ask _
        · rw [exchange_other chosen (by intro other same; cases same; exact request rfl)]
          exact truthful.apply effect request
      · rw [Function.update_of_ne same, exchange_apart chosen found same]
        exact truthful
  | skip call chosen | erase call chosen | report call reports chosen | destroy call chosen =>
      rw [exchange_other chosen (by simp)]
      exact truthful
  | spawn call chosen =>
      rw [exchange_other chosen (by simp)]
      by_cases same : id = pizzeria.nextKitchenId
      · subst same
        rw [consulted.fresh _ le_rfl]
        simp only [Function.update_self]
        exact Exchange.truthful_fresh nCooks
      · simp only [Function.update_of_ne same]
        exact truthful
  | kitchen other label site spawned taken =>
      simp only [exchange]
      by_cases same : id = other
      · subst same
        rw [Function.update_self, Function.update_self]
        exact truthful.step (KitchenWorker.transition_of_step taken)
      · rw [Function.update_of_ne same, Function.update_of_ne same]
        exact truthful
  | order | status | poll | close | elapse => exact truthful

/-- Every step records nothing for the ids that are not given out yet. -/
theorem Consulted.fresh_step (consulted : pizzeria.Consulted exchanges)
    (registered : pizzeria.Registered contract)
    (moved : Transition nCooks limit pizzeria label next) :
    ∀ id ≥ next.nextKitchenId, pizzeria.exchange label next exchanges id = Exchange.empty := by
  intro id beyond
  cases moved with
  | apply index operation call handle outcome chosen found effect =>
      simp only [touch, nextKitchenId_record] at beyond
      have listed := registered.spawned handle (List.mem_of_getElem? found)
      rw [exchange_apart chosen found (by omega)]
      exact consulted.fresh id beyond
  | skip call chosen | erase call chosen | report call reports chosen | destroy call chosen =>
      rw [exchange_other chosen (by simp)]
      exact consulted.fresh id beyond
  | spawn call chosen =>
      rw [exchange_other chosen (by simp)]
      exact consulted.fresh id (Nat.le_of_succ_le beyond)
  | kitchen other label site spawned taken =>
      simp only at beyond
      simp only [exchange]
      rw [Function.update_of_ne (by omega)]
      exact consulted.fresh id beyond
  | order | status | poll | close | elapse => exact consulted.fresh id beyond

/-- Every step keeps the handles in step with their received packets. -/
theorem Consulted.heard_step (consulted : pizzeria.Consulted exchanges)
    (consulting : pizzeria.Consulting) (registered : pizzeria.Registered contract)
    (moved : Transition nCooks limit pizzeria label next) :
    ∀ kitchen ∈ next.kitchens,
      Heard nCooks kitchen (next.sites kitchen.id).resultQueue.received := by
  refine forall_kitchens (fun kitchen site => Heard nCooks kitchen site.resultQueue.received)
    registered moved ⟨_, rfl, rfl, rfl⟩ ?_ ?_ consulted.heard
  · intro index operation kitchen outcome _ chosen found effect heard
    cases effect with
    | handle packet resultQueue next report received exits handled =>
        obtain ⟨_, history⟩ := Fifo.receive_eq_some_iff.mp received
        simp only [history]
        exact heard.handle handled
    | request =>
        -- a live kitchen is asked only once it has settled its earlier responses
        obtain ⟨_, alive, replied, _⟩ | ⟨other, _⟩ | ⟨other, _⟩ :=
          awaited_apply consulting registered.ids chosen found
        · have clear := (consulted.replied (List.mem_of_getElem? found) alive replied).clear
          obtain ⟨decoded, received, cooks, shown⟩ := heard
          exact ⟨decoded, received, cooks.trans clear, shown⟩
        · exact absurd rfl other
        · cases other
    | send | close | reap => exact heard
  · intro kitchen label site _ _ taken heard
    rw [(Site.frame_step (registered.honest _) taken).2]
    exact heard

/-- A packet from a kitchen that owes nothing is no reply. -/
theorem Replied.isReply_of_receive {kitchen : KitchenHandle} {exchange : Exchange}
    {site : Site (KitchenWorker nCooks)} (replied : Replied nCooks kitchen exchange site)
    {packet : Packet} {resultQueue : Fifo Packet}
    (received : site.resultQueue.receive = some (packet, resultQueue)) :
    packet.isReply = false := by
  obtain ⟨head, _⟩ := Fifo.receive_eq_some_iff.mp received
  have silent := replied.none_left packet (by rw [head]; exact List.mem_cons_self)
  simp only [Packet.isStatus, Bool.or_eq_false_iff] at silent
  exact silent.2

/-- An operation on a live kitchen keeps its own debt. -/
theorem Consulted.owed_apply (consulted : pizzeria.Consulted exchanges)
    (consulting : pizzeria.Consulting) (ids : (pizzeria.kitchens.map KitchenHandle.id).Nodup)
    {index : Nat} {operation : Operation} {call : Call} {kitchen : KitchenHandle}
    {outcome : Outcome (KitchenWorker.process nCooks limit).State}
    (chosen : pizzeria.next = some (.apply index operation, call))
    (found : pizzeria.kitchens[index]? = some kitchen) (alive : kitchen.alive = true)
    (effect : operation.Effect kitchen (pizzeria.sites kitchen.id) outcome) :
    (pizzeria.exchange .reception next exchanges kitchen.id).requests.length =
      outcome.site.resultQueue.received.countP Packet.isReply +
        call.awaitedIDs.count kitchen.id := by
  have listed := List.mem_of_getElem? found
  have owed := consulted.owed kitchen listed alive
  obtain ⟨rfl, _, replied, awaited⟩ | ⟨other, replied, awaited⟩ |
    ⟨rfl, packet, oldest, replied, awaited⟩ := awaited_apply consulting ids chosen found
  · rw [exchange_request chosen found, Function.update_self, awaited]
    rw [replied] at owed
    cases effect
    simpa [Exchange.ask] using owed
  · rw [exchange_other chosen (by intro index' same; cases same; exact other rfl), awaited]
    have settled := consulted.replied listed alive replied
    rw [replied] at owed
    cases effect with
    | handle packet resultQueue next report received exits handled =>
        rw [(Fifo.receive_eq_some_iff.mp received).2, List.countP_append, List.countP_singleton,
          settled.isReply_of_receive received]
        exact owed
    | request => exact absurd rfl other
    | send | close | reap => exact owed
  · rw [exchange_other chosen (by simp), awaited]
    rw [replied] at owed
    cases effect with
    | handle other resultQueue next report received exits handled =>
        obtain ⟨head, history⟩ := Fifo.receive_eq_some_iff.mp received
        obtain rfl : other = packet := by
          rw [inbox, head] at oldest
          exact Option.some.inj oldest
        rw [history, List.countP_append, List.countP_singleton, owed, Nat.add_assoc]
        cases other.isReply <;> rfl

/-- Every step keeps each live kitchen in debt for exactly the awaited replies. -/
theorem Consulted.owed_step (consulted : pizzeria.Consulted exchanges)
    (consulting : pizzeria.Consulting) (registered : pizzeria.Registered contract)
    (moved : Transition nCooks limit pizzeria label next) :
    ∀ kitchen ∈ next.kitchens, kitchen.alive = true →
      (pizzeria.exchange label next exchanges kitchen.id).requests.length =
        (next.sites kitchen.id).resultQueue.received.countP Packet.isReply +
          next.call.awaitedIDs.count kitchen.id := by
  intro kitchen member alive
  cases moved with
  | apply index operation call handle outcome chosen found effect =>
      simp only [touch, kitchens_record, sites_record] at member ⊢
      rcases mem_set registered.ids found member with rfl | ⟨inside, apart⟩
      · rw [Function.update_self, effect.id]
        exact consulted.owed_apply consulting registered.ids chosen found (effect.living alive) effect
      · rw [Function.update_of_ne (effect.id ▸ apart), exchange_apart chosen found apart,
          awaited_other consulting registered.ids chosen found apart]
        exact consulted.owed kitchen inside alive
  | skip call chosen =>
      rw [exchange_other chosen (by simp)]
      simp only
      rw [awaited_skip consulting registered.ids chosen member alive]
      exact consulted.owed kitchen member alive
  | erase call chosen =>
      have owed := consulted.owed kitchen (List.mem_of_mem_filter member) alive
      obtain ⟨before, after⟩ := elsewhere_of_next registered.ids chosen (by simp) (by simp)
      rw [exchange_other chosen (by simp)]
      simp only [awaitedIDs_of_elsewhere after]
      rwa [before] at owed
  | report call reports chosen =>
      have owed := consulted.owed kitchen member alive
      obtain ⟨before, after⟩ := elsewhere_of_next registered.ids chosen (by simp) (by simp)
      rw [exchange_other chosen (by simp)]
      simp only [awaitedIDs_of_elsewhere after]
      rwa [before] at owed
  | destroy call chosen => cases member
  | spawn call chosen =>
      obtain ⟨before, after⟩ := elsewhere_of_next registered.ids chosen (by simp) (by simp)
      rw [exchange_other chosen (by simp)]
      simp only [awaitedIDs_of_elsewhere after]
      rcases List.mem_append.mp member with inside | last
      · have owed := consulted.owed kitchen inside alive
        rw [Function.update_of_ne (registered.spawned kitchen inside).ne]
        rwa [before] at owed
      · obtain rfl := List.mem_singleton.mp last
        change (exchanges pizzeria.nextKitchenId).requests.length = _
        rw [consulted.fresh _ le_rfl]
        simp only [KitchenHandle.new, Function.update_self]
        rfl
  | kitchen id label site spawned taken =>
      have owed := consulted.owed kitchen member alive
      rw [requests_exchange]
      simp only
      by_cases same : kitchen.id = id
      · subst same
        rw [Function.update_self, (Site.frame_step (registered.honest _) taken).2]
        exact owed
      · rw [Function.update_of_ne same]
        exact owed
  | order _ _ _ idle | status idle | poll idle | close idle =>
      have owed := consulted.owed kitchen member alive
      rw [idle] at owed
      exact owed
  | elapse => exact consulted.owed kitchen member alive

/-- Every step keeps the last request of each asked live kitchen the one of the running call. -/
theorem Consulted.current_step (consulted : pizzeria.Consulted exchanges)
    (registered : pizzeria.Registered contract)
    (moved : Transition nCooks limit pizzeria label next) :
    ∀ position kitchen, next.kitchens[position]? = some kitchen → kitchen.alive = true →
      next.call.Asked position →
        (pizzeria.exchange label next exchanges kitchen.id).requests.getLast? =
          some next.reports.length := by
  intro position kitchen here alive asked
  cases moved with
  | apply index operation call handle outcome chosen found effect =>
      obtain ⟨inside, _⟩ := List.getElem?_eq_some_iff.mp found
      simp only [touch, kitchens_record, reports_record] at here asked ⊢
      by_cases same : position = index
      · subst same
        rw [List.getElem?_set_self inside] at here
        obtain rfl := Option.some.inj here
        have living := effect.living alive
        rw [effect.id]
        by_cases request : operation = .request
        · subst request
          rw [exchange_request chosen found, Function.update_self]
          simp [Exchange.ask]
        · rw [exchange_other chosen (by intro other same; cases same; exact request rfl)]
          obtain ⟨same, _⟩ | before := asked_apply registered.ids chosen asked
          · exact absurd same request
          · exact consulted.current position handle found living before
      · rw [List.getElem?_set_ne (Ne.symm same)] at here
        have apart := ids_apart registered.ids here found same
        rw [exchange_apart chosen found apart]
        obtain ⟨_, last⟩ | before := asked_apply registered.ids chosen asked
        · exact absurd last same
        · exact consulted.current position kitchen here alive before
  | skip call chosen =>
      rw [exchange_other chosen (by simp)]
      exact consulted.current position kitchen here alive
        (asked_skip registered.ids chosen here alive asked)
  | erase call chosen | report call reports chosen | spawn call chosen | destroy call chosen =>
      have after := (elsewhere_of_next registered.ids chosen (by simp) (by simp)).2
      exact absurd asked (not_asked_of_elsewhere after)
  | kitchen id label site spawned taken =>
      rw [requests_exchange]
      exact consulted.current position kitchen here alive asked
  | status => exact absurd asked (Nat.not_lt_zero _)
  | order | poll | close => exact asked.elim
  | elapse => exact consulted.current position kitchen here alive asked

/-- Every run keeps the histories, the queues and the handles in agreement. -/
theorem consulted_of_reachable
    {state : Pizzeria (KitchenWorker.process nCooks limit) × (Nat → Exchange)}
    (reached : (exchanging nCooks limit).Reachable state) : state.1.Consulted state.2 := by
  refine reached.invariant (motive := fun state => state.1.Consulted state.2)
    ⟨fun _ => Exchange.truthful_fresh nCooks, fun _ _ => rfl, nofun, nofun, nofun⟩ ?_
  intro state next label before consulted _ taken
  obtain ⟨stepped, recorded⟩ := Machine.withHistory_step.mp taken
  have moved := transition_of_step stepped
  have registered := registered_of_reachable (KitchenWorker.contract nCooks limit) before.forget
  have consulting := consulting_of_reachable (KitchenWorker.contract nCooks limit) before.forget
  rw [recorded]
  exact ⟨consulted.truthful_step moved, consulted.fresh_step registered moved,
    consulted.heard_step consulting registered moved,
    consulted.owed_step consulting registered moved, consulted.current_step registered moved⟩

end Pizzeria

end Plazza
