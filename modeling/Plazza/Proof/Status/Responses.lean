import Plazza.Construction.Exchange
import Plazza.Proof.Kitchen.Steps
import Plazza.Proof.Reception.Steps

namespace Plazza
open Plazza.Foundation

/-- The main thread serves a status request from its receive to the end of its reads. -/
def Control.serves : Control → Nat
  | handling packet => if packet.isRequest then 1 else 0
  | readingStock _ | readingCooks _ _ _ => 1
  | _ => 0

/-- The main thread has these packets of a response left to send. -/
def Control.unsent : Control → List Packet
  | responding packets => packets
  | _ => []

/-- A complete response has one status of each cook and has been built into packets. -/
structure Response.Complete (nCooks : Nat) (response : Response) : Prop where
  built : sendStatusResponse response.load response.capacity response.stock response.statuses =
    some response.packets
  cooks : ∃ cooks : List Cook, cooks.length = nCooks ∧ response.statuses = cooks.map Cook.status

/-- A complete response sends one packet for each cook and then one reply. -/
theorem Response.Complete.packets_eq {nCooks : Nat} {response : Response}
    (complete : response.Complete nCooks) :
    ∃ cooks reply, response.packets = cooks ++ [reply] ∧ reply.type = .statusReply ∧
      ∀ packet ∈ cooks, packet.type = .cookStatus := by
  obtain ⟨packed, _, built⟩ := Option.bind_eq_some_iff.mp complete.built
  rw [← Option.some.inj built]
  refine ⟨_, _, rfl, rfl, fun packet member => ?_⟩
  obtain ⟨_, _, rfl⟩ := List.mem_map.mp member
  rfl

theorem Response.Complete.isStatus {nCooks : Nat} {response : Response}
    (complete : response.Complete nCooks) {packet : Packet} (member : packet ∈ response.packets) :
    packet.isStatus = true := by
  obtain ⟨cooks, reply, packets, type, others⟩ := complete.packets_eq
  rw [packets] at member
  rcases List.mem_append.mp member with cook | last
  · simp [Packet.isStatus, others packet cook]
  · simp [Packet.isStatus, List.mem_singleton.mp last, type]

/-- A complete response has exactly one reply. -/
theorem Response.Complete.countP_isReply {nCooks : Nat} {response : Response}
    (complete : response.Complete nCooks) : response.packets.countP Packet.isReply = 1 := by
  obtain ⟨cooks, reply, packets, type, others⟩ := complete.packets_eq
  have none_else : cooks.countP Packet.isReply = 0 :=
    List.countP_eq_zero.mpr fun packet member => by simp [Packet.isReply, others packet member]
  rw [packets, List.countP_append, none_else, List.countP_singleton, Packet.isReply, type]
  rfl

/-- Complete responses have one reply each. -/
theorem countP_isReply {nCooks : Nat} {responses : List Response}
    (complete : ∀ response ∈ responses, response.Complete nCooks) :
    (responses.flatMap Response.packets).countP Packet.isReply = responses.length := by
  induction responses with
  | nil => rfl
  | cons response rest ih =>
      have here := (complete response List.mem_cons_self).countP_isReply
      have later := ih fun other member => complete other (List.mem_cons_of_mem _ member)
      rw [List.flatMap_cons, List.countP_append, here, later, List.length_cons, Nat.add_comm]

/-- Complete responses end with a reply. -/
theorem isReply_of_last {nCooks : Nat} {responses : List Response}
    (complete : ∀ response ∈ responses, response.Complete nCooks) {front : List Packet}
    {packet : Packet} (last : responses.flatMap Response.packets = front ++ [packet]) :
    packet.isReply = true := by
  rcases List.eq_nil_or_concat responses with rfl | ⟨earlier, response, rfl⟩
  · simp at last
  · rw [List.concat_eq_append] at complete last
    obtain ⟨cooks, reply, packets, type, _⟩ := (complete response (by simp)).packets_eq
    rw [List.flatMap_append, List.flatMap_singleton, packets, ← List.append_assoc] at last
    obtain rfl : reply = packet := by simpa using List.append_inj_right' last rfl
    simp [Packet.isReply, type]

namespace Exchange

variable {nCooks : Nat}

/-- The history of a kitchen agrees with its queues and its main thread. -/
structure Truthful (exchange : Exchange) (site : Site (KitchenWorker nCooks)) : Prop where
  asked : exchange.requests.length = site.orderQueue.sent.countP Packet.isRequest
  taken : site.orderQueue.received.countP Packet.isRequest =
    exchange.responses.length + site.process.control.serves
  calls : exchange.responses.map Response.call =
    exchange.requests.take exchange.responses.length
  sent : site.resultQueue.sent.filter Packet.isStatus ++ site.process.control.unsent =
    exchange.responses.flatMap Response.packets
  complete : ∀ response ∈ exchange.responses, response.Complete nCooks
  reading : ∀ load stock statuses, site.process.control = .readingCooks load stock statuses →
    ∃ cooks : List Cook, cooks.length ≤ nCooks ∧ statuses = cooks.map Cook.status

/-- A new kitchen has no requests and no responses. -/
theorem truthful_fresh (nCooks : Nat) :
    empty.Truthful (Site.fresh (KitchenWorker.new nCooks)) where
  asked := rfl
  taken := rfl
  calls := rfl
  sent := rfl
  complete := nofun
  reading := nofun

/-- A step without an execution keeps the history when it moves requests and packets as it should. -/
theorem Truthful.keep {exchange : Exchange} {site next : Site (KitchenWorker nCooks)}
    (truthful : exchange.Truthful site) (orders : next.orderQueue.sent = site.orderQueue.sent)
    (taken : next.orderQueue.received.countP Packet.isRequest + site.process.control.serves =
      site.orderQueue.received.countP Packet.isRequest + next.process.control.serves)
    (sent : next.resultQueue.sent.filter Packet.isStatus ++ next.process.control.unsent =
      site.resultQueue.sent.filter Packet.isStatus ++ site.process.control.unsent)
    (reading : ∀ load stock statuses, next.process.control = .readingCooks load stock statuses →
      ∃ cooks : List Cook, cooks.length ≤ nCooks ∧ statuses = cooks.map Cook.status) :
    exchange.Truthful next where
  asked := orders ▸ truthful.asked
  taken := by
    have before := truthful.taken
    omega
  calls := truthful.calls
  sent := sent.trans truthful.sent
  complete := truthful.complete
  reading := reading

/-- Fewer requests are answered than the reception has sent. -/
theorem Truthful.length_le {exchange : Exchange} {site : Site (KitchenWorker nCooks)}
    (truthful : exchange.Truthful site) :
    exchange.responses.length + site.process.control.serves ≤ exchange.requests.length := by
  rw [← truthful.taken, truthful.asked, Fifo.sent, List.countP_append]
  exact Nat.le_add_right _ _

/-- Only the end of the reads adds a response. -/
theorem answer_eq {exchange : Exchange} {site : Site (KitchenWorker nCooks)}
    (other : ∀ load stock statuses, site.process.control = .readingCooks load stock statuses →
      statuses.length < nCooks) (label : KitchenWorker.Label nCooks) :
    exchange.answer site label = exchange := by
  unfold answer
  split
  · split
    · rename_i load stock statuses control
      exact if_pos (other load stock statuses control)
    · rfl
  · rfl

/-- A step of the main thread between points without a status request keeps the history. -/
theorem Truthful.idle {exchange : Exchange} {site : Site (KitchenWorker nCooks)}
    (truthful : exchange.Truthful site) {process : KitchenWorker nCooks}
    (before : site.process.control.serves = 0 ∧ site.process.control.unsent = [])
    (after : process.control.serves = 0 ∧ process.control.unsent = []) :
    exchange.Truthful { site with process } := by
  refine truthful.keep rfl ?_ ?_ ?_
  · rw [before.1, after.1]
  · rw [before.2, after.2]
  · intro load stock statuses control
    rw [control] at after
    cases after.1

/-- The end of the reads records one complete response to the oldest open request. -/
theorem Truthful.build {exchange : Exchange} {site : Site (KitchenWorker nCooks)}
    (truthful : exchange.Truthful site) {load : Nat} {stock : Stock} {statuses : List CookStatus}
    {packets : List Packet} (control : site.process.control = .readingCooks load stock statuses)
    (all : nCooks ≤ statuses.length)
    (built : sendStatusResponse load site.process.pool.getCapacity stock statuses = some packets)
    (wake : Fin nCooks → Bool) :
    (exchange.answer site (.main wake)).Truthful
      { site with process := site.process.goto (.responding packets) } := by
  have taken := truthful.taken
  have inside := truthful.length_le
  rw [control] at taken inside
  replace inside : exchange.responses.length < exchange.requests.length := inside
  have last : site.orderQueue.received.countP Packet.isRequest - 1 =
      exchange.responses.length := Nat.sub_eq_of_eq_add taken
  let response : Response :=
    ⟨exchange.served site, load, site.process.pool.getCapacity, stock, statuses⟩
  have sends : response.packets = packets := by
    rw [Response.packets, built]
    rfl
  have recorded : exchange.answer site (.main wake) =
      { exchange with responses := exchange.responses ++ [response] } := by
    simp only [answer, control, if_neg (Nat.not_lt.mpr all)]
    rfl
  have call : response.call = exchange.requests[exchange.responses.length] := by
    change exchange.requests.getD _ 0 = _
    rw [last, List.getD_eq_getElem?_getD, List.getElem?_eq_getElem inside]
    rfl
  rw [recorded]
  refine ⟨truthful.asked, ?_, ?_, ?_, ?_, nofun⟩
  · rw [List.length_append]
    exact taken
  · rw [List.map_append, truthful.calls, List.length_append, List.length_singleton,
      List.take_succ_eq_append_getElem inside, List.map_singleton, call]
  · rw [List.flatMap_append, ← truthful.sent, control]
    simp [sends, Control.unsent, KitchenWorker.goto]
  · intro other member
    rcases List.mem_append.mp member with old | new
    · exact truthful.complete other old
    · obtain rfl := List.mem_singleton.mp new
      obtain ⟨cooks, few, read⟩ := truthful.reading load stock statuses control
      refine ⟨by rw [sends]; exact built, cooks, ?_, read⟩
      rw [read, List.length_map] at all
      exact Nat.le_antisymm few all

/-- An advance of the main thread keeps the history truthful. -/
theorem Truthful.advance {exchange : Exchange} {site : Site (KitchenWorker nCooks)}
    (truthful : exchange.Truthful site) {now : Nat} {process : KitchenWorker nCooks}
    (moves : KitchenWorker.Advance now site.process process) (wake : Fin nCooks → Bool) :
    (exchange.answer site (.main wake)).Truthful { site with process } := by
  cases moves with
  | build load stock statuses packets control all built =>
      exact truthful.build control all built wake
  | readCook load stock statuses control more =>
      rw [answer_eq (fun _ _ _ same => by rw [control] at same; cases same; exact more)]
      refine truthful.keep rfl ?_ ?_ ?_
      · rw [control]
        rfl
      · rw [control]
        rfl
      · intro _ _ _ same
        cases same
        obtain ⟨cooks, _, rfl⟩ := truthful.reading load stock statuses control
        rw [List.length_map] at more
        refine ⟨cooks ++ [site.process.pool.cooks ⟨cooks.length, more⟩], ?_, ?_⟩
        · rw [List.length_append]
          exact more
        · simp
  | readStock load control =>
      rw [answer_eq (by rw [control]; nofun)]
      refine truthful.keep rfl ?_ ?_ ?_
      · rw [control]
        rfl
      · rw [control]
        rfl
      · intro _ _ _ same
        cases same
        exact ⟨[], Nat.zero_le _, rfl⟩
  | wake running _ control =>
      rw [answer_eq (by rw [control]; nofun)]
      refine truthful.idle (by rw [control]; exact ⟨rfl, rfl⟩) ?_
      cases running <;> exact ⟨rfl, rfl⟩
  | start control | accepted control | responded control | sample _ control
  | timeOut _ _ control | idle _ _ control | busy _ _ control =>
      rw [answer_eq (by rw [control]; nofun)]
      exact truthful.idle (by rw [control]; exact ⟨rfl, rfl⟩) ⟨rfl, rfl⟩

/-- A packet that is no part of a status response leaves the sent responses as they are. -/
theorem filter_send {queue : Fifo Packet} {packet : Packet} (other : packet.isStatus = false) :
    (queue.send packet).sent.filter Packet.isStatus = queue.sent.filter Packet.isStatus := by
  simp [other]

/-- A packet that asks for no status leads to no response. -/
theorem handling_of_other {packet : Packet} (other : packet.isRequest = false) :
    (Control.handling packet).serves = 0 ∧ (Control.handling packet).unsent = [] := by
  simp [Control.serves, Control.unsent, other]

/-- Every step of a kitchen process keeps the history truthful. -/
theorem Truthful.step {exchange : Exchange} {limit : Option Nat} {now : Nat}
    {site next : Site (KitchenWorker nCooks)} {label : KitchenWorker.Label nCooks}
    (truthful : exchange.Truthful site)
    (moved : KitchenWorker.Transition limit now site label next) :
    (exchange.answer site label).Truthful next := by
  cases moved with
  | advance wake process moves => exact truthful.advance moves wake
  | poll wake packet orderQueue control received other =>
      obtain ⟨head, history⟩ := Fifo.receive_eq_some_iff.mp received
      rw [answer_eq (by rw [control]; nofun)]
      refine truthful.keep (Fifo.sent_receive received) ?_ ?_ nofun
      · rw [control, history, List.countP_append, List.countP_singleton]
        rfl
      · rw [control]
        rfl
  | pollShutdown wake packet orderQueue control received shutdown =>
      obtain ⟨head, history⟩ := Fifo.receive_eq_some_iff.mp received
      have other : packet.isRequest = false := by simp [Packet.isRequest, shutdown]
      rw [answer_eq (by rw [control]; nofun)]
      refine truthful.keep (Fifo.sent_receive received) ?_ ?_ nofun
      · rw [control, history, List.countP_append, List.countP_singleton, other]
        rfl
      · rw [control]
        rfl
  | request wake packet control type =>
      rw [answer_eq (by rw [control]; nofun)]
      refine truthful.keep rfl ?_ ?_ nofun
      · have asks : packet.isRequest = true := by simp [Packet.isRequest, type]
        rw [control, Control.serves, if_pos asks]
        rfl
      · rw [control]
        rfl
  | accept wake packet ticket pool control type =>
      have other : packet.isRequest = false := by simp [Packet.isRequest, type]
      rw [answer_eq (by rw [control]; nofun)]
      exact truthful.idle (by rw [control]; exact handling_of_other other) ⟨rfl, rfl⟩
  | refuse wake packet control type =>
      have other : packet.isRequest = false := by simp [Packet.isRequest, type]
      rw [answer_eq (by rw [control]; nofun)]
      exact truthful.idle (by rw [control]; exact handling_of_other other) ⟨rfl, rfl⟩
  | ignore wake packet control _ noRequest =>
      have other : packet.isRequest = false := by simp [Packet.isRequest, noRequest]
      rw [answer_eq (by rw [control]; nofun)]
      exact truthful.idle (by rw [control]; exact handling_of_other other) ⟨rfl, rfl⟩
  | pollEmpty wake control | stop wake control | notify wake control | join wake control =>
      rw [answer_eq (by rw [control]; nofun)]
      exact truthful.idle (by rw [control]; exact ⟨rfl, rfl⟩) ⟨rfl, rfl⟩
  | sendFull wake packet control room =>
      rw [answer_eq (by rw [control]; nofun)]
      refine truthful.keep rfl ?_ ?_ nofun
      · rw [control]
        rfl
      · rw [control, filter_send rfl]
        rfl
  | close wake control room =>
      rw [answer_eq (by rw [control]; nofun)]
      refine truthful.keep rfl ?_ ?_ nofun
      · rw [control]
        rfl
      · rw [control, filter_send rfl]
        rfl
  | respond wake packet rest control room =>
      have member : packet ∈ exchange.responses.flatMap Response.packets := by
        rw [← truthful.sent, control]
        exact List.mem_append_right _ List.mem_cons_self
      obtain ⟨response, recorded, inside⟩ := List.mem_flatMap.mp member
      have status := (truthful.complete response recorded).isStatus inside
      rw [answer_eq (by rw [control]; nofun)]
      refine truthful.keep rfl ?_ ?_ nofun
      · rw [control]
        rfl
      · rw [control, Fifo.sent_send, List.filter_append, List.filter_singleton, status,
          List.append_assoc]
        rfl
  | serve index ticket pool position worked room =>
      exact truthful.keep rfl rfl (by rw [filter_send rfl]) truthful.reading
  | cook | consume | wakeSpuriously | regenerate =>
      exact truthful.keep rfl rfl rfl truthful.reading

/-- Once every request has its reply, no packet of a response is on its way. -/
theorem Truthful.received_eq {exchange : Exchange} {site : Site (KitchenWorker nCooks)}
    (truthful : exchange.Truthful site)
    (all : exchange.requests.length = site.resultQueue.received.countP Packet.isReply) :
    site.resultQueue.received.filter Packet.isStatus =
        exchange.responses.flatMap Response.packets ∧
      exchange.responses.length = exchange.requests.length ∧
      ∀ packet ∈ site.resultQueue.pending, packet.isStatus = false := by
  have sent := truthful.sent
  rw [Fifo.sent, List.filter_append, List.append_assoc] at sent
  have replies : (site.resultQueue.received.filter Packet.isStatus).countP Packet.isReply =
      site.resultQueue.received.countP Packet.isReply := by
    rw [List.countP_filter]
    congr 1
    funext packet
    cases type : packet.type <;> simp [Packet.isReply, Packet.isStatus, type]
  have count := congrArg (List.countP Packet.isReply) sent
  rw [List.countP_append, replies, countP_isReply truthful.complete] at count
  have bounded := truthful.length_le
  have rest :
      site.resultQueue.pending.filter Packet.isStatus ++ site.process.control.unsent = [] := by
    rcases List.eq_nil_or_concat
      (site.resultQueue.pending.filter Packet.isStatus ++ site.process.control.unsent) with
      none_left | ⟨front, packet, some_left⟩
    · exact none_left
    · -- the last packet on its way would be another reply
      rw [some_left, List.concat_eq_append] at sent count
      have reply := isReply_of_last truthful.complete
        (sent.symm.trans (List.append_assoc _ _ _).symm)
      rw [List.countP_append, List.countP_singleton, reply] at count
      simp only [if_true] at count
      omega
  rw [rest, List.append_nil] at sent
  refine ⟨sent, ?_, fun packet member => ?_⟩
  · rw [rest, List.countP_nil] at count
    omega
  · have empty := (List.append_eq_nil_iff.mp rest).1
    exact Bool.eq_false_of_not_eq_true (List.filter_eq_nil_iff.mp empty packet member)

/-- Only a request of the reception is an event of the exchange. -/
theorem Truthful.apply {exchange : Exchange} {limit : Option Nat} {operation : Operation}
    {kitchen : KitchenHandle} {site : Site (KitchenWorker.process nCooks limit).State}
    {outcome : Outcome (KitchenWorker.process nCooks limit).State}
    (truthful : exchange.Truthful site) (effect : operation.Effect kitchen site outcome)
    (other : operation ≠ .request) : exchange.Truthful outcome.site := by
  cases effect with
  | handle packet resultQueue next report received exits handled =>
      have sent := Fifo.sent_receive received
      exact truthful.keep rfl rfl (by rw [sent]) truthful.reading
  | send pizza origin =>
      refine ⟨?_, truthful.taken, truthful.calls, truthful.sent, truthful.complete, truthful.reading⟩
      rw [truthful.asked, Fifo.sent_send, List.countP_append, List.countP_singleton]
      rfl
  | request => exact absurd rfl other
  | close =>
      refine ⟨?_, truthful.taken, truthful.calls, truthful.sent, truthful.complete, truthful.reading⟩
      rw [truthful.asked, Fifo.sent_send, List.countP_append, List.countP_singleton]
      rfl
  | reap => exact truthful

/-- A request adds its call to the exchange. -/
theorem Truthful.ask {exchange : Exchange} {site : Site (KitchenWorker nCooks)}
    (truthful : exchange.Truthful site) (call : Nat) :
    (exchange.ask call).Truthful
      { site with orderQueue := site.orderQueue.send { type := .statusRequest } } := by
  refine ⟨?_, truthful.taken, ?_, truthful.sent, truthful.complete, truthful.reading⟩
  · rw [Fifo.sent_send, List.countP_append, List.countP_singleton, ← truthful.asked, Exchange.ask,
      List.length_append]
    rfl
  · have enough : exchange.responses.length ≤ exchange.requests.length :=
      (Nat.le_add_right _ _).trans truthful.length_le
    rw [Exchange.ask, truthful.calls, List.take_append_of_le_length enough]

end Exchange

end Plazza
