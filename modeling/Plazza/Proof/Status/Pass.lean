import Plazza.Proof.Kitchen.Legible
import Plazza.Proof.Reception.Kitchens
import Plazza.Proof.Status.Consultation
import Plazza.Proof.Reception.Conservation

namespace Plazza
open Plazza.Foundation

namespace Site

variable {P : KitchenProcess}

/-- The kitchen still runs, or its reply or its shutdown packet is unread. -/
def Answerable (site : Site P.State) : Prop :=
  P.exited site.process = false ∨
    ∃ packet ∈ site.resultQueue.pending, packet.type = .statusReply ∨ packet.type = .shutdown

/-- The kitchen has exited, or its reply is unread. -/
def Settled (site : Site P.State) : Prop :=
  P.exited site.process = true ∨ ∃ packet ∈ site.resultQueue.pending, packet.type = .statusReply

/-- A live handle has not received the shutdown packet of its kitchen. -/
def Heeded (kitchen : KitchenHandle) (site : Site P.State) : Prop :=
  kitchen.alive = true → ∀ packet ∈ site.resultQueue.received, packet.type ≠ .shutdown

/-- The shutdown packet of a kitchen that has exited is unread until its handle is dead. -/
theorem Honest.unread {contract : P.Contract} {site : Site P.State} {kitchen : KitchenHandle}
    (honest : site.Honest contract) (heeded : Heeded kitchen site) (alive : kitchen.alive = true)
    (exited : P.exited site.process = true) :
    ∃ packet ∈ site.resultQueue.pending, packet.type = .shutdown := by
  obtain ⟨_, earlier, last, _⟩ := honest.closed exited
  have sent : ({ type := .shutdown } : Packet) ∈ site.resultQueue.sent := by
    rw [last]
    exact List.mem_append_right _ (List.mem_singleton.mpr rfl)
  rcases List.mem_append.mp sent with received | pending
  · exact absurd rfl (heeded alive _ received)
  · exact ⟨_, pending, rfl⟩

/-- A live handle belongs to a kitchen that can still answer. -/
theorem Honest.answerable {contract : P.Contract} {site : Site P.State} {kitchen : KitchenHandle}
    (honest : site.Honest contract) (heeded : Heeded kitchen site) (alive : kitchen.alive = true) :
    site.Answerable := by
  cases exited : P.exited site.process with
  | false => exact .inl exited
  | true =>
      obtain ⟨packet, pending, shutdown⟩ := honest.unread heeded alive exited
      exact .inr ⟨packet, pending, .inr shutdown⟩

/-- A step of the process leaves the unread packets unread. -/
theorem pending_step {contract : P.Contract} {site next : Site P.State} {now : Nat}
    {label : P.Label} (honest : site.Honest contract) (taken : P.step now site label = some next) :
    ∀ packet ∈ site.resultQueue.pending, packet ∈ next.resultQueue.pending := by
  intro packet pending
  obtain ⟨_, _, move⟩ := contract.step honest.valid taken
  cases move with
  | internal orders results | take _ orders results => exact results ▸ pending
  | answer _ _ orders results | inform _ _ orders results | leave orders results =>
      rw [results]
      exact List.mem_append_left _ pending

/-- A step of the process keeps its kitchen settled. -/
theorem Settled.step {contract : P.Contract} {site next : Site P.State} {now : Nat}
    {label : P.Label} (settled : site.Settled) (honest : site.Honest contract)
    (taken : P.step now site label = some next) : next.Settled := by
  rcases settled with exited | ⟨packet, pending, reply⟩
  · rw [exited_step honest taken] at exited
    cases exited
  · exact .inr ⟨packet, pending_step honest taken packet pending, reply⟩

end Site

/-- The pass goes through these ids and has kept none of them for another pass. -/
def Call.InPass (ids : List Nat) : Call → Prop
  | polling kept rest => kept = [] ∧ rest <:+ ids
  | answering kept id _ rest _ => kept = [] ∧ id :: rest <:+ ids
  | _ => False

/-- The pass stands before its next id, at its end or in the drain of one id. -/
theorem Call.InPass.cases {ids : List Nat} {call : Call} (inside : call.InPass ids) :
    call = .polling [] [] ∨
      (∃ id rest, call = .polling [] (id :: rest) ∧ id :: rest <:+ ids) ∨
      ∃ id index rest gotReply, call = .answering [] id index rest gotReply ∧ id :: rest <:+ ids := by
  cases call with
  | polling kept rest =>
      obtain ⟨rfl, suffix⟩ := inside
      cases rest with
      | nil => exact .inl rfl
      | cons id rest => exact .inr (.inl ⟨id, rest, rfl, suffix⟩)
  | answering kept id index rest gotReply =>
      obtain ⟨rfl, suffix⟩ := inside
      exact .inr (.inr ⟨id, index, rest, gotReply, rfl, suffix⟩)
  | _ => exact inside.elim

namespace Pizzeria

variable {P : KitchenProcess} {nCooks : Nat} {limit : Option Nat} {contract : P.Contract}

/-- Every run keeps a live handle before the shutdown packet of its kitchen. -/
theorem heeded_of_reachable (contract : P.Contract) {pizzeria : Pizzeria P}
    (reached : (machine P nCooks limit).Reachable pizzeria) :
    ∀ kitchen ∈ pizzeria.kitchens, Site.Heeded kitchen (pizzeria.sites kitchen.id) := by
  refine reached.invariant (motive := fun pizzeria => ∀ kitchen ∈ pizzeria.kitchens,
    Site.Heeded kitchen (pizzeria.sites kitchen.id)) (fun _ none => by cases none) ?_
  intro pizzeria next label before heeded _ taken
  refine forall_kitchens Site.Heeded (registered_of_reachable contract before)
    (transition_of_step taken) (fun _ _ none => by cases none) ?_ ?_ heeded
  · intro index operation kitchen outcome _ _ _ effect here alive
    cases effect with
    | handle packet resultQueue next report received exits handled =>
        obtain ⟨stays, type⟩ : kitchen.alive = true ∧ packet.type ≠ .shutdown := by
          have alive : next.alive = true := alive
          rw [handled.alive] at alive
          simpa using alive
        obtain ⟨_, history⟩ := Fifo.receive_eq_some_iff.mp received
        rw [history]
        exact List.forall_mem_append.mpr ⟨here stays, List.forall_mem_singleton.mpr type⟩
    | send | request | close => exact here alive
    | reap => cases alive
  · intro kitchen label site _ _ stepped here alive
    have registered := registered_of_reachable contract before
    rw [(Site.frame_step (registered.honest kitchen.id) stepped).2]
    exact here alive

/-- A pass over settled kitchens: no id is kept, and each awaited live kitchen is settled. -/
structure LastPass (ids : List Nat) (pizzeria : Pizzeria P) : Prop where
  inside : pizzeria.call.InPass ids
  settled : ∀ kitchen ∈ pizzeria.kitchens, kitchen.alive = true →
    kitchen.id ∈ pizzeria.call.awaitedIDs → (pizzeria.sites kitchen.id).Settled

/-- The pass drains an entered kitchen and leaves it when its queue is empty. -/
theorem next_answering {pizzeria : Pizzeria P} {action : Action} {call : Call} {kept : List Nat}
    {id index : Nat} {rest : List Nat} {gotReply : Bool}
    (running : pizzeria.call = .answering kept id index rest gotReply)
    (chosen : pizzeria.next = some (action, call)) :
    ∃ kitchen, pizzeria.kitchens[index]? = some kitchen ∧
      ((∃ packet, pizzeria.inbox kitchen = some packet ∧ action = .apply index .handle ∧
          call = .answering kept id index rest (gotReply || packet.isReply)) ∨
        pizzeria.inbox kitchen = none ∧ action = .skip ∧
          ((gotReply || !kitchen.alive) = true ∧ call = .polling kept rest ∨
            (gotReply || !kitchen.alive) = false ∧ call = .polling (kept ++ [id]) rest)) := by
  rw [next, running] at chosen
  dsimp only at chosen
  split at chosen
  · cases chosen
  · rename_i kitchen found
    refine ⟨kitchen, found, ?_⟩
    split at chosen
    · rename_i packet oldest
      cases chosen
      exact .inl ⟨packet, oldest, rfl, rfl⟩
    · rename_i empty
      split at chosen <;> cases chosen
      · exact .inr ⟨empty, rfl, .inl ⟨‹_›, rfl⟩⟩
      · exact .inr ⟨empty, rfl, .inr ⟨Bool.eq_false_iff.mpr ‹_›, rfl⟩⟩

/-- A statement of the pass returns, handles a packet, stays in the pass or finds an empty queue
without a reply. -/
theorem next_of_inPass {pizzeria : Pizzeria P} {ids : List Nat} {action : Action} {call : Call}
    (unique : (pizzeria.kitchens.map KitchenHandle.id).Nodup) (inside : pizzeria.call.InPass ids)
    (chosen : pizzeria.next = some (action, call)) :
    action = .report ∧ call = .idle ∨
      (∃ index, action = .apply index .handle ∧ call.InPass ids) ∨
      action = .skip ∧ (call.InPass ids ∨ ∃ id index rest kitchen,
        pizzeria.call = .answering [] id index rest false ∧
          pizzeria.kitchens[index]? = some kitchen ∧ pizzeria.inbox kitchen = none ∧
          kitchen.alive = true) := by
  obtain running | ⟨id, rest, running, suffix⟩ | ⟨id, index, rest, gotReply, running, suffix⟩ :=
    inside.cases
  · rw [next, running] at chosen
    cases chosen
    exact .inl ⟨rfl, rfl⟩
  · have shorter := (List.suffix_cons id rest).trans suffix
    cases consultation_of_polling unique running chosen with
    | drop => exact .inr (.inr ⟨rfl, .inl ⟨rfl, shorter⟩⟩)
    | enter => exact .inr (.inr ⟨rfl, .inl ⟨rfl, suffix⟩⟩)
  · have shorter := (List.suffix_cons id rest).trans suffix
    obtain ⟨kitchen, found, ⟨_, _, rfl, rfl⟩ | ⟨empty, rfl, ⟨_, rfl⟩ | ⟨waits, _⟩⟩⟩ :=
      next_answering running chosen
    · exact .inr (.inl ⟨index, rfl, rfl, suffix⟩)
    · exact .inr (.inr ⟨rfl, .inl ⟨rfl, shorter⟩⟩)
    · obtain ⟨rfl, alive⟩ : gotReply = false ∧ kitchen.alive = true := by simpa using waits
      exact .inr (.inr ⟨rfl, .inr ⟨id, index, rest, kitchen, running, found, empty, alive⟩⟩)

/-- An empty queue of a live kitchen is not settled. -/
theorem not_settled_of_empty {pizzeria : Pizzeria P} (registered : pizzeria.Registered contract)
    {kitchen : KitchenHandle} (heeded : Site.Heeded kitchen (pizzeria.sites kitchen.id))
    (alive : kitchen.alive = true) (empty : pizzeria.inbox kitchen = none) :
    ¬(pizzeria.sites kitchen.id).Settled := by
  have nothing : (pizzeria.sites kitchen.id).resultQueue.pending = [] :=
    List.head?_eq_none_iff.mp empty
  rintro (exited | ⟨packet, pending, _⟩)
  · obtain ⟨packet, pending, _⟩ :=
      (registered.honest kitchen.id).unread heeded alive exited
    rw [nothing] at pending
    cases pending
  · rw [nothing] at pending
    cases pending

/-- A statement without an operation keeps the pass or ends the call. -/
theorem LastPass.skip {pizzeria : Pizzeria P} {ids : List Nat} {call : Call}
    (pass : pizzeria.LastPass ids) (registered : pizzeria.Registered contract)
    (consulting : pizzeria.Consulting)
    (heeded : ∀ kitchen ∈ pizzeria.kitchens, Site.Heeded kitchen (pizzeria.sites kitchen.id))
    (chosen : pizzeria.next = some (.skip, call)) : LastPass ids { pizzeria with call } := by
  obtain ⟨inside, settled⟩ := pass
  have awaited : ∀ kitchen ∈ pizzeria.kitchens, kitchen.alive = true →
      kitchen.id ∈ call.awaitedIDs → (pizzeria.sites kitchen.id).Settled := by
    intro kitchen member alive waits
    refine settled kitchen member alive (List.count_pos_iff.mp ?_)
    rw [← awaited_skip consulting registered.ids chosen member alive]
    exact List.count_pos_iff.mpr waits
  refine ⟨?_, awaited⟩
  change call.InPass ids
  obtain ⟨reports, _⟩ | ⟨_, applies, _⟩ |
      ⟨_, stays | ⟨id, index, rest, kitchen, running, found, empty, alive⟩⟩ :=
    next_of_inPass registered.ids inside chosen
  · cases reports
  · cases applies
  · exact stays
  · -- the kitchen would be live, awaited and settled with an empty queue
    obtain ⟨there, here, rfl⟩ := consulting.answering [] id index rest false running
    obtain rfl := Option.some.inj (found.symm.trans here)
    have member := List.mem_of_getElem? found
    refine absurd (settled kitchen member alive ?_)
      (not_settled_of_empty registered (heeded kitchen member) alive empty)
    rw [running]
    exact List.mem_cons_self

/-- The reception handles packets of the entered kitchen only. -/
theorem LastPass.apply {pizzeria : Pizzeria P} {ids : List Nat} {index : Nat}
    {operation : Operation} {call : Call} {kitchen : KitchenHandle} {outcome : Outcome P.State}
    (pass : pizzeria.LastPass ids) (registered : pizzeria.Registered contract)
    (consulting : pizzeria.Consulting)
    (chosen : pizzeria.next = some (.apply index operation, call))
    (found : pizzeria.kitchens[index]? = some kitchen)
    (effect : operation.Effect kitchen (pizzeria.sites kitchen.id) outcome) :
    LastPass ids
      { (pizzeria.touch index outcome.kitchen outcome.site).record outcome.report with call } := by
  obtain ⟨inside, settled⟩ := pass
  obtain ⟨reports, _⟩ | ⟨_, handles, stays⟩ | ⟨skips, _⟩ :=
    next_of_inPass registered.ids inside chosen
  · cases reports
  swap
  · cases skips
  obtain ⟨_, rfl⟩ := Action.apply.inj handles
  constructor
  · exact stays
  · intro other member alive waits
    simp only [touch, kitchens_record, sites_record] at member ⊢
    change other.id ∈ call.awaitedIDs at waits
    rcases mem_set registered.ids found member with rfl | ⟨present, apart⟩
    · rw [Function.update_self]
      obtain ⟨requests, _⟩ | ⟨_, _, nobody⟩ | ⟨_, packet, oldest, once, awaits⟩ :=
        awaited_apply consulting registered.ids chosen found
      · cases requests
      · rw [effect.id] at waits
        exact absurd waits (List.count_eq_zero.mp nobody)
      · cases effect with
        | handle received resultQueue next report taken exits handled =>
            obtain ⟨head, _⟩ := Fifo.receive_eq_some_iff.mp taken
            have same : received = packet := by
              rw [inbox, head] at oldest
              exact Option.some.inj oldest
            subst same
            have stays : kitchen.alive = true := by
              have alive : next.alive = true := alive
              rw [handled.alive] at alive
              exact (Bool.and_eq_true_iff.mp alive).1
            have awaited : kitchen.id ∈ call.awaitedIDs := handled.id ▸ waits
            have silent : received.isReply = false := by
              by_contra replies
              rw [Bool.not_eq_false] at replies
              rw [replies, if_pos rfl] at awaits
              exact absurd awaited (List.count_eq_zero.mp awaits)
            have before := settled kitchen (List.mem_of_getElem? found) stays
              (List.count_pos_iff.mp (once ▸ Nat.one_pos))
            rcases before with exited | ⟨reply, pending, type⟩
            · exact .inl exited
            · rw [head] at pending
              rcases List.mem_cons.mp pending with rfl | later
              · simp [Packet.isReply, type] at silent
              · exact .inr ⟨reply, later, type⟩
    · rw [Function.update_of_ne (effect.id ▸ apart)]
      refine settled other present alive (List.count_pos_iff.mp ?_)
      rw [← awaited_other consulting registered.ids chosen found apart]
      exact List.count_pos_iff.mpr waits

/-- Every step within the pass stays in it or returns. -/
theorem LastPass.step {pizzeria next : Pizzeria P} {ids : List Nat} {label : PizzeriaLabel P}
    (pass : pizzeria.LastPass ids) (registered : pizzeria.Registered contract)
    (consulting : pizzeria.Consulting)
    (heeded : ∀ kitchen ∈ pizzeria.kitchens, Site.Heeded kitchen (pizzeria.sites kitchen.id))
    (moved : Transition nCooks limit pizzeria label next) :
    next.call = .idle ∨ next.LastPass ids := by
  have outside : ∀ {action : Action} {call : Call}, pizzeria.next = some (action, call) →
      action ≠ .skip → (∀ index operation, action ≠ .apply index operation) → call = .idle := by
    intro action call chosen notSkip notApply
    obtain ⟨_, returns⟩ | ⟨index, applies, _⟩ | ⟨skips, _⟩ :=
      next_of_inPass registered.ids pass.inside chosen
    · exact returns
    · exact absurd applies (notApply index _)
    · exact absurd skips notSkip
  have busy : pizzeria.call ≠ .idle := by
    intro idle
    have inside := pass.inside
    rw [idle] at inside
    exact inside
  cases moved with
  | order _ _ _ idle | status idle | poll idle | close idle => exact absurd idle busy
  | skip call chosen => exact .inr (pass.skip registered consulting heeded chosen)
  | apply index operation call kitchen outcome chosen found effect =>
      exact .inr (pass.apply registered consulting chosen found effect)
  | erase call chosen | spawn call chosen | report call reports chosen | destroy call chosen =>
      exact .inl (outside chosen (by simp) (by simp))
  | kitchen id label site spawned taken =>
      refine .inr ⟨pass.inside, fun kitchen member alive waits => ?_⟩
      have settled := pass.settled kitchen member alive waits
      simp only
      by_cases same : kitchen.id = id
      · subst same
        rw [Function.update_self]
        exact settled.step (registered.honest kitchen.id) taken
      · rw [Function.update_of_ne same]
        exact settled
  | elapse duration => exact .inr ⟨pass.inside, pass.settled⟩

end Pizzeria

namespace Pizzeria

open KitchenWorker

variable {nCooks : Nat} {limit : Option Nat}

/-- Inside of the pass nothing keeps the reception from its next statement. -/
theorem LastPass.enabled {pizzeria : Pizzeria (process nCooks limit)} {ids : List Nat}
    (pass : pizzeria.LastPass ids)
    (reached : (machine (process nCooks limit) nCooks limit).Reachable pizzeria) :
    (pizzeria.step nCooks limit .reception).isSome := by
  have registered := registered_of_reachable (contract nCooks limit) reached
  have consulting := consulting_of_reachable (contract nCooks limit) reached
  obtain running | ⟨id, rest, running, _⟩ | ⟨id, index, rest, gotReply, running, _⟩ :=
    pass.inside.cases
  · simp [Pizzeria.step, Pizzeria.next, running, perform]
  · simp only [Pizzeria.step, Pizzeria.next, running]
    cases pizzeria.kitchens.findIdx? fun kitchen => kitchen.id = id with
    | none => rfl
    | some index =>
        dsimp only
        split <;> rfl
  · obtain ⟨kitchen, found, rfl⟩ := consulting.answering [] id index rest gotReply running
    simp only [Pizzeria.step, Pizzeria.next, running, found]
    cases oldest : pizzeria.inbox kitchen with
    | none =>
        dsimp only
        split <;> rfl
    | some packet =>
        obtain ⟨others, pending⟩ := List.head?_eq_some_iff.mp oldest
        have received := Fifo.receive_of_pending pending
        have writes := Kitchen.writes_of_reachable (kitchen_of_reachable reached kitchen.id)
        have sent : packet ∈ (pizzeria.sites kitchen.id).resultQueue.sent := by
          rw [Fifo.sent, pending]
          simp
        have left : packet.type = .shutdown →
            (process nCooks limit).exited (pizzeria.sites kitchen.id).process = true :=
          fun shutdown => ((registered.honest kitchen.id).pending_of_shutdown received shutdown).1
        obtain ⟨result, handled⟩ := Option.isSome_iff_exists.mp (writes.sent packet sent kitchen)
        have waits : ¬(packet.type = .shutdown ∧
            (process nCooks limit).exited (pizzeria.sites kitchen.id).process = false) := by
          rintro ⟨shutdown, stays⟩
          rw [left shutdown] at stays
          cases stays
        simp [perform, found, Operation.run, received, waits, handled]

/-- A kitchen that `getStatus` waits for still runs, or its reply or its shutdown packet is unread.
Once each pending kitchen has exited or has an unread reply, the next pass keeps no id, and no
statement of it is blocked. -/
theorem answers_come (nCooks : Nat) (limit : Option Nat)
    (pizzeria : Pizzeria (process nCooks limit))
    (reached : (machine (process nCooks limit) nCooks limit).Reachable pizzeria) :
    (∀ kitchen ∈ pizzeria.kitchens, kitchen.alive = true →
      kitchen.id ∈ pizzeria.call.awaitedIDs → (pizzeria.sites kitchen.id).Answerable) ∧
    ∀ ids, pizzeria.call = .polling [] ids →
      (∀ kitchen ∈ pizzeria.kitchens, kitchen.alive = true → kitchen.id ∈ ids →
        (pizzeria.sites kitchen.id).Settled) →
      ∀ later, ((machine (process nCooks limit) nCooks limit).startingAt pizzeria).ReachableUnder
        (fun state _ => ¬state.call.Elsewhere) later →
        later.call = .idle ∨
          later.call.InPass ids ∧ (later.step nCooks limit .reception).isSome := by
  constructor
  · intro kitchen member alive _
    have registered := registered_of_reachable (contract nCooks limit) reached
    have heeded := heeded_of_reachable (contract nCooks limit) reached kitchen member
    exact (registered.honest kitchen.id).answerable heeded alive
  · intro ids running settled later continued
    have pass : (machine (process nCooks limit) nCooks limit).Reachable later ∧
        (later.call = .idle ∨ later.LastPass ids) := by
      refine continued.invariant (motive := fun later =>
        (machine (process nCooks limit) nCooks limit).Reachable later ∧
          (later.call = .idle ∨ later.LastPass ids)) ⟨reached, .inr ⟨?_, ?_⟩⟩ ?_
      · change pizzeria.call.InPass ids
        rw [running]
        exact ⟨rfl, List.suffix_rfl⟩
      · change ∀ kitchen ∈ pizzeria.kitchens, _
        intro kitchen member alive waits
        refine settled kitchen member alive ?_
        change kitchen.id ∈ pizzeria.call.awaitedIDs at waits
        rwa [running] at waits
      · rintro state next label _ ⟨before, idle | pass⟩ within taken
        · rw [idle] at within
          exact absurd trivial within
        · refine ⟨.step before trivial taken, ?_⟩
          exact pass.step (registered_of_reachable (contract nCooks limit) before)
            (consulting_of_reachable (contract nCooks limit) before)
            (heeded_of_reachable (contract nCooks limit) before) (transition_of_step taken)
    exact pass.2.imp_right fun last => ⟨last.inside, last.enabled pass.1⟩

/-- A kitchen answers the request of the first call of `getStatus` before the first pass. -/
def requestedRun : List (PizzeriaLabel (process 1 none)) :=
  .order [⟨.margarita, .s, 1⟩] :: receptionSteps 1 4 ++ mainSteps 1 0 6 ++
    .status :: receptionSteps 1 2 ++ .elapse kPollInterval :: mainSteps 1 0 8

/-- The first pass finishes the call for the only kitchen. -/
theorem answers_come_of_requestedRun :
    ∃ pizzeria : Pizzeria (process 1 none), (machine (process 1 none) 1 none).Reachable pizzeria ∧
      pizzeria.call = .polling [] [0] ∧
      ∀ later, ((machine (process 1 none) 1 none).startingAt pizzeria).ReachableUnder
        (fun state _ => ¬state.call.Elsewhere) later →
        later.call = .idle ∨ later.call.InPass [0] ∧ (later.step 1 none .reception).isSome := by
  obtain ⟨pizzeria, reached, checked⟩ := (machine (process 1 none) 1 none).exists_reachable
    requestedRun (fun pizzeria => pizzeria.call = .polling [] [0] ∧
      (pizzeria.sites 0).resultQueue.pending.any (·.type = .statusReply) = true) (by decide)
  obtain ⟨running, replied⟩ := of_decide_eq_true checked
  obtain ⟨packet, pending, type⟩ := List.any_eq_true.mp replied
  refine ⟨pizzeria, reached, running, ?_⟩
  refine (answers_come 1 none pizzeria reached).2 [0] running fun kitchen _ _ only => ?_
  rw [List.mem_singleton.mp only]
  exact .inr ⟨packet, pending, of_decide_eq_true type⟩

end Pizzeria

end Plazza
