import Plazza.Proof.Kitchen.Liveness
import Plazza.Proof.Shutdown.Room
import Plazza.Proof.Status.Pass

namespace Plazza
open Plazza.Foundation

/-- The reception sends the wire form of a pizza, a status request or a shutdown packet. -/
inductive Packet.Ordered : Packet → Prop
  | pizza (pizza : Pizza) (origin : Int) :
      Ordered { type := .pizza, pizza := pack pizza, origin }
  | request : Ordered { type := .statusRequest }
  | shutdown : Ordered { type := .shutdown }

theorem Packet.Ordered.readable {packet : Packet} (ordered : packet.Ordered) : packet.Readable := by
  intro type
  cases ordered with
  | pizza pizza origin => exact ⟨pizza, unpack_pack pizza⟩
  | request | shutdown => cases type

/-- A complete response has one packet more than the kitchen has cooks. -/
theorem Response.Complete.length {nCooks : Nat} {response : Response}
    (complete : response.Complete nCooks) : response.packets.length = nCooks + 1 := by
  obtain ⟨cooks, count, statuses⟩ := complete.cooks
  rw [length_sendStatusResponse complete.built, statuses, List.length_map, count]

/-- The reply is the last packet of its response. -/
theorem Response.Complete.replies_le {nCooks : Nat} {response : Response}
    (complete : response.Complete nCooks) {front : List Packet}
    (start : front <+: response.packets) :
    (nCooks + 1) * front.countP Packet.isReply ≤ front.length := by
  obtain ⟨cooks, reply, packets, _, others⟩ := complete.packets_eq
  rw [packets] at start
  rcases List.prefix_concat_iff.mp start with rfl | early
  · rw [← packets, complete.countP_isReply, complete.length, Nat.mul_one]
  · have none' : front.countP Packet.isReply = 0 := List.countP_eq_zero.mpr fun packet member => by
      simp [Packet.isReply, others packet (early.subset member)]
    rw [none', Nat.mul_zero]
    exact Nat.zero_le _

/-- The packets of a response come before its reply, also when the responses are cut off. -/
theorem replies_le_length {nCooks : Nat} {responses : List Response}
    (complete : ∀ response ∈ responses, response.Complete nCooks) {front : List Packet}
    (start : front <+: responses.flatMap Response.packets) :
    (nCooks + 1) * front.countP Packet.isReply ≤ front.length := by
  induction responses generalizing front with
  | nil =>
      obtain rfl := List.prefix_nil.mp start
      exact Nat.zero_le _
  | cons response rest ih =>
      have here := complete response List.mem_cons_self
      rw [List.flatMap_cons] at start
      rcases List.prefix_or_prefix_of_prefix start (List.prefix_append _ _) with within | ⟨later, rfl⟩
      · exact here.replies_le within
      · have before := here.replies_le List.prefix_rfl
        have after := ih (fun other member => complete other (List.mem_cons_of_mem _ member))
          ((List.prefix_append_right_inj _).mp start)
        rw [List.countP_append, List.length_append, Nat.mul_add]
        exact Nat.add_le_add before after

theorem length_responses {nCooks : Nat} {responses : List Response}
    (complete : ∀ response ∈ responses, response.Complete nCooks) :
    (responses.flatMap Response.packets).length = (nCooks + 1) * responses.length := by
  have each : (responses.map fun response => response.packets.length) =
      responses.map fun _ => nCooks + 1 :=
    List.map_congr_left fun response member => (complete response member).length
  rw [List.length_flatMap, each, List.map_const', List.sum_replicate, smul_eq_mul, Nat.mul_comm]

namespace Exchange

variable {nCooks : Nat}

/-- A kitchen sends at most one response for each request. -/
theorem Truthful.status_le {exchange : Exchange} {site : Site (KitchenWorker nCooks)}
    (truthful : exchange.Truthful site) :
    site.resultQueue.sent.countP Packet.isStatus ≤
      (nCooks + 1) * site.orderQueue.sent.countP Packet.isRequest := by
  have sent := congrArg List.length truthful.sent
  rw [List.length_append, length_responses truthful.complete] at sent
  have fewer := Nat.mul_le_mul_left (nCooks + 1)
    ((Nat.le_add_right _ _).trans truthful.length_le)
  rw [← truthful.asked, List.countP_eq_length_filter]
  omega

/-- The unread packets of responses belong to the requests without a received reply. -/
theorem Truthful.unread_le {exchange : Exchange} {site : Site (KitchenWorker nCooks)}
    (truthful : exchange.Truthful site) :
    site.resultQueue.pending.countP Packet.isStatus +
        (nCooks + 1) * site.resultQueue.received.countP Packet.isReply ≤
      (nCooks + 1) * exchange.requests.length := by
  have sent := truthful.sent
  rw [Fifo.sent, List.filter_append, List.append_assoc] at sent
  have replies : (site.resultQueue.received.filter Packet.isStatus).countP Packet.isReply =
      site.resultQueue.received.countP Packet.isReply := by
    rw [List.countP_filter]
    congr 1
    funext packet
    cases type : packet.type <;> simp [Packet.isReply, Packet.isStatus, type]
  have heard := replies_le_length truthful.complete ⟨_, sent⟩
  have length := congrArg List.length sent
  rw [List.length_append, List.length_append, length_responses truthful.complete] at length
  have fewer := Nat.mul_le_mul_left (nCooks + 1)
    ((Nat.le_add_right _ _).trans truthful.length_le)
  rw [replies] at heard
  rw [List.countP_eq_length_filter]
  omega

end Exchange

def Packet.isShutdown (packet : Packet) : Bool := packet.type = .shutdown

/-- The packets of a kitchen are counted by their three kinds. -/
theorem length_le_of_outgoing {packets : List Packet}
    (outgoing : ∀ packet ∈ packets, packet.Outgoing) :
    packets.length ≤ packets.countP Packet.isAnswer + packets.countP Packet.isStatus +
      packets.countP Packet.isShutdown := by
  induction packets with
  | nil => exact Nat.zero_le _
  | cons packet rest ih =>
      have later := ih fun other member => outgoing other (List.mem_cons_of_mem _ member)
      have kinds : packet.isAnswer = true ∨ packet.isStatus = true ∨ packet.isShutdown = true :=
        (outgoing packet List.mem_cons_self).imp_right (Or.imp_right decide_eq_true)
      simp only [List.length_cons, List.countP_cons]
      rcases kinds with kind | kind | kind <;> simp only [kind, if_true] <;> omega

/-- A kitchen sends at most one shutdown packet. -/
theorem Site.Honest.shutdown_le {P : KitchenProcess} {contract : P.Contract} {site : Site P.State}
    (honest : site.Honest contract) : site.resultQueue.sent.countP Packet.isShutdown ≤ 1 := by
  have none' : ∀ {packets : List Packet}, (∀ packet ∈ packets, packet.type ≠ .shutdown) →
      packets.countP Packet.isShutdown = 0 := fun others =>
    List.countP_eq_zero.mpr fun packet member => by simp [Packet.isShutdown, others packet member]
  cases exits : P.exited site.process with
  | false =>
      rw [none' (honest.open' exits)]
      exact Nat.zero_le _
  | true =>
      obtain ⟨_, earlier, last, others⟩ := honest.closed exits
      rw [last, List.countP_append, none' others, Nat.zero_add]
      exact List.countP_le_length

/-- A kitchen answers at most as many pizzas as it was sent. -/
theorem Site.Honest.answers_le {P : KitchenProcess} {contract : P.Contract} {site : Site P.State}
    (honest : site.Honest contract) :
    site.resultQueue.sent.countP Packet.isAnswer ≤ site.orderQueue.sent.countP Packet.isPizza := by
  have account := congrArg Multiset.card honest.account
  simp only [Multiset.card_add, card_tags] at account
  rw [account, Fifo.sent, List.countP_append]
  omega

/-- The number of results that a kitchen can send for the packets that it was sent. -/
def Site.budget {State : Type} (nCooks : Nat) (site : Site State) : Nat :=
  site.orderQueue.sent.countP Packet.isPizza +
    (nCooks + 1) * site.orderQueue.sent.countP Packet.isRequest + 1

namespace Pizzeria

section Process

variable {P : KitchenProcess} {nCooks : Nat} {limit : Option Nat}

/-- Every order queue holds only packets of these kinds. -/
theorem ordered_of_reachable (contract : P.Contract) {guard : Pizzeria P → PizzeriaLabel P → Prop}
    {pizzeria : Pizzeria P} (reached : (machine P nCooks limit).ReachableUnder guard pizzeria) :
    ∀ id, ∀ packet ∈ (pizzeria.sites id).orderQueue.sent, packet.Ordered := by
  refine reached.invariant (motive := fun pizzeria => ∀ id,
    ∀ packet ∈ (pizzeria.sites id).orderQueue.sent, packet.Ordered) (fun _ => nofun) ?_
  intro pizzeria next label before ordered _ taken
  refine forall_sites (fun _ site => ∀ packet ∈ site.orderQueue.sent, packet.Ordered)
    (transition_of_step taken) nofun ?_ ?_ ordered
  · intro index operation kitchen outcome _ _ _ effect here
    cases effect with
    | handle | reap => exact here
    | send pizza origin => exact Fifo.forall_sent_send here (.pizza pizza origin)
    | request => exact Fifo.forall_sent_send here .request
    | close => exact Fifo.forall_sent_send here .shutdown
  · intro id label site _ _ stepped here
    rw [(Site.frame_step ((registered_of_reachable contract before).honest id) stepped).1]
    exact here

/-- The shutdown of the reception waits for the process of the kitchen. -/
def Awaits (pizzeria : Pizzeria P) (id : Nat) : Prop :=
  ∃ index kitchen, pizzeria.call = .awaiting index ∧
    pizzeria.kitchens[index]? = some kitchen ∧ kitchen.id = id

/-- A live handle whose kitchen was sent a shutdown packet is the one that the shutdown waits for. -/
def Closes (pizzeria : Pizzeria P) : Prop :=
  ∀ kitchen ∈ pizzeria.kitchens, kitchen.alive = true →
    ∀ packet ∈ (pizzeria.sites kitchen.id).orderQueue.sent, packet.type = .shutdown →
      pizzeria.Awaits kitchen.id

/-- Only the loop of `shutdown` closes a kitchen, and then it waits for it. -/
theorem next_close {pizzeria : Pizzeria P} {index : Nat} {call : Call}
    (chosen : pizzeria.next = some (.apply index .close, call)) : call = .awaiting index := by
  unfold next at chosen
  repeat' split at chosen
  all_goals cases chosen
  rfl

/-- A step from a call that waits for no process keeps the shutdown packets accounted for. -/
theorem Closes.step {pizzeria next : Pizzeria P} {label : PizzeriaLabel P} {contract : P.Contract}
    (closes : pizzeria.Closes) (registered : pizzeria.Registered contract)
    (moved : Transition nCooks limit pizzeria label next)
    (busy : ∀ index, pizzeria.call ≠ .awaiting index) : next.Closes := by
  have quiet : ∀ kitchen ∈ pizzeria.kitchens, kitchen.alive = true →
      ∀ packet ∈ (pizzeria.sites kitchen.id).orderQueue.sent, packet.type ≠ .shutdown := by
    intro kitchen member alive packet sent shutdown
    obtain ⟨index, _, awaits, _⟩ := closes kitchen member alive packet sent shutdown
    exact busy index awaits
  refine forall_kitchens (fun kitchen site => kitchen.alive = true →
      ∀ packet ∈ site.orderQueue.sent, packet.type = .shutdown → next.Awaits kitchen.id)
    registered moved (fun _ => nofun) ?_ ?_
    fun kitchen member alive packet sent shutdown =>
      absurd shutdown (quiet kitchen member alive packet sent)
  · rintro index operation kitchen outcome rfl chosen found effect here alive
    have before := quiet kitchen (List.mem_of_getElem? found) (effect.living alive)
    cases effect with
    | handle _ _ _ _ _ _ handled =>
        intro packet sent shutdown
        exact absurd shutdown (before packet sent)
    | send pizza origin | request =>
        intro packet sent shutdown
        exact absurd shutdown (Fifo.forall_sent_send before (by simp) packet sent)
    | close =>
        intro _ _ _
        have awaits := next_close chosen
        cases moved with
        | apply position operation call handle outcome same there effect =>
            rw [chosen] at same
            cases same
            obtain rfl := Option.some.inj (found.symm.trans there)
            obtain ⟨inside, _⟩ := List.getElem?_eq_some_iff.mp found
            refine ⟨index, outcome.kitchen, awaits, ?_, effect.id⟩
            simp [touch, List.getElem?_set_self inside]
        | skip _ same | erase _ same | spawn _ same | report _ _ same | destroy _ same =>
            rw [chosen] at same
            cases same
    | reap => cases alive
  · rintro kitchen label site rfl member stepped here alive packet sent shutdown
    rw [(Site.frame_step (registered.honest kitchen.id) stepped).1] at sent
    exact here alive packet sent shutdown

/-- Every run keeps the shutdown packets accounted for. -/
theorem closes_of_reachable (contract : P.Contract) {guard : Pizzeria P → PizzeriaLabel P → Prop}
    {pizzeria : Pizzeria P} (reached : (machine P nCooks limit).ReachableUnder guard pizzeria) :
    pizzeria.Closes := by
  refine reached.invariant nofun ?_
  intro pizzeria next label before closes _ taken
  have registered := registered_of_reachable contract before
  have moved := transition_of_step taken
  by_cases busy : ∀ index, pizzeria.call ≠ .awaiting index
  · exact closes.step registered moved busy
  obtain ⟨index, awaits⟩ := not_forall_not.mp busy
  have chosen : pizzeria.next = some (.apply index .reap, .shuttingDown (index + 1)) := by
    rw [Pizzeria.next, awaits]
  cases moved with
  | order _ _ _ idle | status idle | poll idle | close idle =>
      rw [awaits] at idle
      cases idle
  | skip _ same | erase _ same | spawn _ same | report _ _ same | destroy _ same =>
      rw [chosen] at same
      cases same
  | apply position operation call handle outcome same found effect =>
      rw [chosen] at same
      cases same
      cases effect
      intro kitchen member alive packet sent shutdown
      simp only [touch, kitchens_record, sites_record] at member sent
      rcases mem_set registered.ids found member with rfl | ⟨inside, apart⟩
      · cases alive
      · rw [Function.update_of_ne apart] at sent
        obtain ⟨position, other, waits, there, same⟩ := closes kitchen inside alive packet sent shutdown
        rw [awaits] at waits
        cases waits
        obtain rfl := Option.some.inj (found.symm.trans there)
        exact absurd same.symm apart
  | kitchen id label site spawned stepped =>
      intro kitchen member alive packet sent shutdown
      refine closes kitchen member alive packet ?_ shutdown
      by_cases same : kitchen.id = id
      · subst same
        rw [← (Site.frame_step (registered.honest kitchen.id) stepped).1]
        simpa only [Function.update_self] using sent
      · simpa only [Function.update_of_ne same] using sent
  | elapse => exact closes

end Process

variable {nCooks : Nat} {limit : Option Nat}
  {pizzeria : Pizzeria (KitchenWorker.process nCooks limit)}

/-- No reply is awaited twice. -/
theorem nodup_awaitedIDs {P : KitchenProcess} {pizzeria : Pizzeria P}
    (consulting : pizzeria.Consulting) : pizzeria.call.awaitedIDs.Nodup := by
  have listed := consulting.listed
  cases running : pizzeria.call with
  | answering kept id index rest gotReply =>
      rw [running] at listed
      cases gotReply with
      | true => exact nodup_drop listed
      | false => exact listed
  | requesting | polling =>
      rw [running] at listed
      exact listed
  | idle | updating | draining | dispatching | shuttingDown | awaiting | destroyed =>
      exact List.nodup_nil

/-- Every kitchen has a truthful history of its status requests. -/
theorem exists_consulted {guard : Pizzeria (KitchenWorker.process nCooks limit) →
      PizzeriaLabel (KitchenWorker.process nCooks limit) → Prop}
    (reached : (machine (KitchenWorker.process nCooks limit) nCooks limit).ReachableUnder guard
      pizzeria) : ∃ exchanges, pizzeria.Consulted exchanges := by
  obtain ⟨exchanges, recorded⟩ := reached.reachable.exists_history exchange fun _ => Exchange.empty
  exact ⟨exchanges, consulted_of_reachable recorded⟩

/-- A kitchen sends no more results than its budget. -/
theorem length_sent_le
    (reached : (machine (KitchenWorker.process nCooks limit) nCooks limit).Reachable pizzeria)
    (id : Nat) : (pizzeria.sites id).resultQueue.sent.length ≤ (pizzeria.sites id).budget nCooks := by
  have honest := (registered_of_reachable (KitchenWorker.contract nCooks limit) reached).honest id
  obtain ⟨exchanges, consulted⟩ := exists_consulted reached
  have kinds := length_le_of_outgoing
    (outgoing_of_reachable (KitchenWorker.contract nCooks limit) reached id)
  have answers := honest.answers_le
  have status := (consulted.truthful id).status_le
  have shutdown := honest.shutdown_le
  unfold Site.budget
  omega

/-- The load of a live kitchen without an awaited reply counts everything that it was sent and has
not received. -/
theorem length_orders_le
    (reached : (machine (KitchenWorker.process nCooks limit) nCooks limit).Reachable pizzeria)
    {kitchen : KitchenHandle} (member : kitchen ∈ pizzeria.kitchens) (alive : kitchen.alive = true)
    (stays : ¬pizzeria.Awaits kitchen.id)
    (silent : pizzeria.call.awaitedIDs.count kitchen.id = 0) :
    (pizzeria.sites kitchen.id).orderQueue.pending.length ≤ kitchen.load := by
  obtain ⟨exchanges, consulted⟩ := exists_consulted reached
  have truthful := consulted.truthful kitchen.id
  have answered := (consulted.replied member alive silent).all
  have requests : (pizzeria.sites kitchen.id).orderQueue.pending.countP Packet.isRequest = 0 := by
    have asked := truthful.asked
    have taken := truthful.taken
    rw [Fifo.sent, List.countP_append] at asked
    omega
  have pizzas : ∀ packet ∈ (pizzeria.sites kitchen.id).orderQueue.pending,
      packet.isPizza = true := by
    intro packet pending
    have sent := List.mem_append_right (pizzeria.sites kitchen.id).orderQueue.received pending
    cases ordered_of_reachable (KitchenWorker.contract nCooks limit) reached kitchen.id packet sent with
    | pizza => rfl
    | request => exact absurd rfl (List.countP_eq_zero.mp requests _ pending)
    | shutdown => exact absurd (closes_of_reachable (KitchenWorker.contract nCooks limit) reached
        kitchen member alive _ sent rfl) stays
  have accounts := (balanced_of_reachable (KitchenWorker.contract nCooks limit) reached).accounts
    kitchen member
  have load := accounts.load_eq
    ((registered_of_reachable (KitchenWorker.contract nCooks limit) reached).honest kitchen.id)
  rw [← List.countP_eq_length.mpr pizzas]
  omega

/-- A kitchen that runs has a live handle. -/
theorem exists_live
    (reached : (machine (KitchenWorker.process nCooks limit) nCooks limit).Reachable pizzeria)
    {id : Nat} (spawned : id < pizzeria.nextKitchenId)
    (runs : (pizzeria.sites id).process.hasExited = false) :
    ∃ kitchen ∈ pizzeria.kitchens, kitchen.id = id ∧ kitchen.alive = true := by
  have closing := closing_of_reachable (KitchenWorker.contract nCooks limit) reached
  have balanced := balanced_of_reachable (KitchenWorker.contract nCooks limit) reached
  by_contra missing
  have unlisted : ∀ kitchen ∈ pizzeria.kitchens, kitchen.id ≠ id := by
    rintro kitchen member rfl
    refine missing ⟨kitchen, member, rfl, ?_⟩
    by_contra dead
    have left : (pizzeria.sites kitchen.id).process.hasExited = true :=
      (balanced.accounts kitchen member).dead (Bool.eq_false_of_not_eq_true dead)
    rw [runs] at left
    cases left
  have left : (pizzeria.sites id).process.hasExited = true := closing.gone id spawned unlisted
  rw [runs] at left
  cases left

/-- At most one response of a kitchen that runs is unread, beside the answers that its load counts. -/
theorem length_results_le
    (reached : (machine (KitchenWorker.process nCooks limit) nCooks limit).Reachable pizzeria)
    {id : Nat} (spawned : id < pizzeria.nextKitchenId)
    (runs : (pizzeria.sites id).process.hasExited = false) :
    (pizzeria.sites id).resultQueue.pending.length ≤
      max 1 (2 * nCooks % 2 ^ 64) + (nCooks + 1) := by
  obtain ⟨kitchen, member, rfl, alive⟩ := exists_live reached spawned runs
  have honest := (registered_of_reachable (KitchenWorker.contract nCooks limit) reached).honest
    kitchen.id
  have consulting := consulting_of_reachable (KitchenWorker.contract nCooks limit) reached
  obtain ⟨exchanges, consulted⟩ := exists_consulted reached
  have kinds := length_le_of_outgoing fun packet pending =>
    outgoing_of_reachable (KitchenWorker.contract nCooks limit) reached kitchen.id packet
      (List.mem_append_right _ pending)
  have shutdown : (pizzeria.sites kitchen.id).resultQueue.pending.countP Packet.isShutdown = 0 :=
    List.countP_eq_zero.mpr fun packet pending => by
      simp [Packet.isShutdown, honest.open' runs packet (List.mem_append_right _ pending)]
  have answers : (pizzeria.sites kitchen.id).resultQueue.pending.countP Packet.isAnswer ≤
      max 1 (2 * nCooks % 2 ^ 64) := by
    have accounts := (balanced_of_reachable (KitchenWorker.contract nCooks limit) reached).accounts
      kitchen member
    have load := accounts.load_eq honest
    have bounded := accounts.bounded
    rw [accounts.capacity] at bounded
    omega
  have status : (pizzeria.sites kitchen.id).resultQueue.pending.countP Packet.isStatus ≤
      nCooks + 1 := by
    have unread := (consulted.truthful kitchen.id).unread_le
    have once : pizzeria.call.awaitedIDs.count kitchen.id ≤ 1 :=
      List.nodup_iff_count_le_one.mp (nodup_awaitedIDs consulting) kitchen.id
    have most := Nat.mul_le_mul_left (nCooks + 1) once
    rw [consulted.owed kitchen member alive, Nat.mul_add] at unread
    omega
  omega

end Pizzeria

end Plazza
