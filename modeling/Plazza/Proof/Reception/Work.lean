import Plazza.Proof.Reception.Capacity

namespace Plazza
open Plazza.Foundation

/-- The results that the reception can still receive for the packets that it has sent. -/
def Site.unread {State : Type} (nCooks : Nat) (site : Site State) : Nat :=
  site.budget nCooks - site.resultQueue.received.length

/-- A bound on the statements that the call has left while it receives nothing. -/
def Call.left (nCooks kitchens : Nat) : Call → Nat
  | idle | destroyed => 0
  | updating index todo _ => 4 + 4 * todo.length + 2 * (kitchens - index)
  | draining index todo _ => 3 + 4 * todo.length + 2 * (kitchens - index)
  | dispatching todo _ spawned => 3 + 4 * todo.length - (if spawned then 2 else 0)
  | requesting index pendingIDs => 2 + 2 * pendingIDs.length + (nCooks + 4) * (kitchens - index)
  | polling kept rest => 1 + 3 * kept.length + 2 * rest.length
  | answering kept _ _ rest _ => 2 + 3 * kept.length + 2 * rest.length
  | shuttingDown index => 1 + 2 * (kitchens - index)
  | awaiting index => 2 + 2 * (kitchens - (index + 1))

/-- What an action adds to the results that can still be received. -/
def Action.cost (nCooks : Nat) : Action → Nat
  | apply _ (.send _ _) | spawn => 1
  | apply _ .request => nCooks + 1
  | _ => 0

namespace Pizzeria

section Process

variable {P : KitchenProcess} {nCooks : Nat} {limit : Option Nat} {contract : P.Contract}

/-- The statements of the other calls from one call state to the next. -/
inductive Statement (pizzeria : Pizzeria P) : Call → Action → Call → Prop
  | enter (index : Nat) (todo : List Pizza) (origin : Int) (kitchen : KitchenHandle)
      (found : pizzeria.kitchens[index]? = some kitchen) (alive : kitchen.alive = true) :
      Statement pizzeria (.updating index todo origin) .skip (.draining index todo origin)
  | pass (index : Nat) (todo : List Pizza) (origin : Int) (kitchen : KitchenHandle)
      (found : pizzeria.kitchens[index]? = some kitchen) (dead : kitchen.alive = false) :
      Statement pizzeria (.updating index todo origin) .skip (.updating (index + 1) todo origin)
  | erase (index : Nat) (todo : List Pizza) (origin : Int)
      (ended : pizzeria.kitchens[index]? = none) :
      Statement pizzeria (.updating index todo origin) .erase (.dispatching todo origin false)
  | drain (index : Nat) (todo : List Pizza) (origin : Int) (kitchen : KitchenHandle)
      (packet : Packet) (found : pizzeria.kitchens[index]? = some kitchen)
      (oldest : pizzeria.inbox kitchen = some packet) :
      Statement pizzeria (.draining index todo origin) (.apply index .handle)
        (.draining index todo origin)
  | drained (index : Nat) (todo : List Pizza) (origin : Int) (kitchen : KitchenHandle)
      (found : pizzeria.kitchens[index]? = some kitchen)
      (empty : pizzeria.inbox kitchen = none) :
      Statement pizzeria (.draining index todo origin) .skip (.updating (index + 1) todo origin)
  | dispatched (origin : Int) (spawned : Bool) :
      Statement pizzeria (.dispatching [] origin spawned) .skip .idle
  | spawn (pizza : Pizza) (rest : List Pizza) (origin : Int) :
      Statement pizzeria (.dispatching (pizza :: rest) origin false) .spawn
        (.dispatching (pizza :: rest) origin true)
  | send (pizza : Pizza) (rest : List Pizza) (origin : Int) (spawned : Bool) (index : Nat) :
      Statement pizzeria (.dispatching (pizza :: rest) origin spawned)
        (.apply index (.send pizza origin)) (.dispatching rest origin false)
  | close (index : Nat) (kitchen : KitchenHandle)
      (found : pizzeria.kitchens[index]? = some kitchen) (alive : kitchen.alive = true) :
      Statement pizzeria (.shuttingDown index) (.apply index .close) (.awaiting index)
  | closed (index : Nat) (kitchen : KitchenHandle)
      (found : pizzeria.kitchens[index]? = some kitchen) (dead : kitchen.alive = false) :
      Statement pizzeria (.shuttingDown index) .skip (.shuttingDown (index + 1))
  | reap (index : Nat) :
      Statement pizzeria (.awaiting index) (.apply index .reap) (.shuttingDown (index + 1))
  | destroy (index : Nat) : Statement pizzeria (.shuttingDown index) .destroy .destroyed

/-- Every statement of the reception belongs to `getStatus` or to one of the other calls. -/
theorem statement_of_next {pizzeria : Pizzeria P} {action : Action} {call : Call}
    (ids : (pizzeria.kitchens.map KitchenHandle.id).Nodup)
    (chosen : pizzeria.next = some (action, call)) :
    Consultation pizzeria pizzeria.call action call ∨ Statement pizzeria pizzeria.call action call := by
  obtain ⟨elsewhere, _⟩ | consults := consultation_of_next ids chosen
  swap
  · exact .inl consults
  right
  cases running : pizzeria.call with
  | updating index todo origin =>
      rw [next, running] at chosen
      dsimp only at chosen
      split at chosen
      · cases chosen
        exact .erase index todo origin ‹_›
      · rename_i kitchen found
        split at chosen <;> cases chosen
        · exact .enter index todo origin kitchen found ‹_›
        · exact .pass index todo origin kitchen found (Bool.eq_false_of_not_eq_true ‹_›)
  | draining index todo origin =>
      rw [next, running] at chosen
      dsimp only at chosen
      split at chosen
      · cases chosen
      · rename_i kitchen found
        split at chosen <;> cases chosen
        · exact .drained index todo origin kitchen found ‹_›
        · exact .drain index todo origin kitchen _ found ‹_›
  | dispatching todo origin spawned =>
      rcases todo with _ | ⟨pizza, rest⟩ <;> cases spawned <;> rw [next, running] at chosen <;>
        dsimp only at chosen
      · cases chosen
        exact .dispatched origin false
      · cases chosen
        exact .dispatched origin true
      · split at chosen <;> cases chosen
        · exact .spawn pizza rest origin
        · exact .send pizza rest origin false _
      · cases chosen
        exact .send pizza rest origin true _
  | shuttingDown index =>
      rw [next, running] at chosen
      dsimp only at chosen
      split at chosen
      · cases chosen
        exact .destroy index
      · rename_i kitchen found
        split at chosen <;> cases chosen
        · exact .close index kitchen found ‹_›
        · exact .closed index kitchen found (Bool.eq_false_of_not_eq_true ‹_›)
  | awaiting index =>
      rw [next, running] at chosen
      cases chosen
      exact .reap index
  | idle | destroyed =>
      rw [next, running] at chosen
      cases chosen
  | requesting | polling | answering =>
      rw [running] at elsewhere
      exact elsewhere.elim

/-- The work of a call is bounded by its statements and by the packets that it can receive. -/
def work (nCooks : Nat) (pizzeria : Pizzeria P) : Nat :=
  pizzeria.total (Site.unread nCooks) + pizzeria.call.left nCooks pizzeria.kitchens.length

/-- The pass keeps the id of a live kitchen whose queue is empty. -/
def Keeps (pizzeria : Pizzeria P) : Prop :=
  ∃ kept id index rest kitchen, pizzeria.call = .answering kept id index rest false ∧
    pizzeria.kitchens[index]? = some kitchen ∧ pizzeria.inbox kitchen = none ∧ kitchen.alive = true

/-- A statement that receives nothing comes closer to the end of its call, unless the pass has to
be repeated. -/
theorem left_of_next (nCooks : Nat) {pizzeria : Pizzeria P} {action : Action} {call : Call}
    (ids : (pizzeria.kitchens.map KitchenHandle.id).Nodup)
    (chosen : pizzeria.next = some (action, call))
    (silent : ∀ index, action ≠ .apply index .handle) :
    call.left nCooks pizzeria.kitchens.length + action.cost nCooks <
      pizzeria.call.left nCooks pizzeria.kitchens.length ∨ pizzeria.Keeps := by
  have inside : ∀ {index : Nat} {kitchen : KitchenHandle},
      pizzeria.kitchens[index]? = some kitchen → index < pizzeria.kitchens.length :=
    fun found => (List.getElem?_eq_some_iff.mp found).1
  rcases statement_of_next ids chosen with consults | statement
  · generalize running : pizzeria.call = current at consults
    cases consults with
    | ask index pendingIDs kitchen found alive =>
        left
        have below := inside found
        have shorter : pizzeria.kitchens.length - index =
            pizzeria.kitchens.length - (index + 1) + 1 := by omega
        simp only [Call.left, Action.cost, List.length_append, List.length_singleton, shorter,
          Nat.mul_succ]
        omega
    | pass index pendingIDs kitchen found dead =>
        left
        have below := inside found
        have shorter : pizzeria.kitchens.length - index =
            pizzeria.kitchens.length - (index + 1) + 1 := by omega
        simp only [Call.left, Action.cost, shorter, Nat.mul_succ]
        omega
    | hear => exact absurd rfl (silent _)
    | wait kept id index rest =>
        obtain ⟨kitchen, found, ⟨_, _, applies, _⟩ | ⟨empty, _, ⟨_, same⟩ | ⟨waits, _⟩⟩⟩ :=
          next_answering running chosen
        · cases applies
        · exact absurd (Call.polling.inj same).1 (by simp)
        · right
          simp only [Bool.false_or, Bool.not_eq_false'] at waits
          exact ⟨kept, id, index, rest, kitchen, running, found, empty, waits⟩
    | asked | finish | again | drop | enter | answered | lost =>
        left
        simp only [Call.left, Action.cost, List.length_cons, List.length_nil]
        omega
  · left
    generalize pizzeria.call = current at statement
    cases statement with
    | drain => exact absurd rfl (silent _)
    | enter _ _ _ _ found | pass _ _ _ _ found | drained _ _ _ _ found _ | close _ _ found
    | closed _ _ found =>
        have below := inside found
        simp only [Call.left, Action.cost]
        omega
    | dispatched origin spawned | send _ _ _ spawned =>
        cases spawned <;> simp [Call.left, Action.cost] <;> omega
    | spawn | erase | destroy | reap =>
        simp [Call.left, Action.cost] <;> omega

/-- A received result keeps the statements of its call. -/
theorem left_of_handle (nCooks : Nat) {pizzeria : Pizzeria P} {index : Nat} {call : Call}
    (ids : (pizzeria.kitchens.map KitchenHandle.id).Nodup)
    (chosen : pizzeria.next = some (.apply index .handle, call)) (kitchens : Nat) :
    call.left nCooks kitchens = pizzeria.call.left nCooks kitchens := by
  rcases statement_of_next ids chosen with consults | statement
  · generalize pizzeria.call = current at consults
    cases consults
    rfl
  · generalize pizzeria.call = current at statement
    cases statement
    rfl

/-- A packet to a kitchen adds the results that it can lead to. -/
theorem budget_send (nCooks : Nat) (site : Site P.State) (packet : Packet) :
    Site.budget nCooks { site with orderQueue := site.orderQueue.send packet } =
      site.budget nCooks + (if packet.isPizza then 1 else 0) +
        if packet.isRequest then nCooks + 1 else 0 := by
  simp only [Site.budget, Fifo.sent_send, List.countP_append, List.countP_singleton]
  split <;> split <;> simp only [Nat.mul_add] <;> omega

/-- An operation costs the results that it can lead to. -/
theorem unread_apply (nCooks : Nat) {kitchen : KitchenHandle} {site : Site P.State} {operation : Operation}
    {outcome : Outcome P.State} (effect : operation.Effect kitchen site outcome)
    (silent : operation ≠ .handle) (index : Nat) :
    outcome.site.unread nCooks ≤ site.unread nCooks + (Action.apply index operation).cost nCooks := by
  cases effect with
  | handle => exact absurd rfl silent
  | send pizza origin =>
      have budget := budget_send nCooks site
        { type := .pizza, pizza := pack pizza, origin }
      simp only [Packet.isPizza, Packet.isRequest] at budget
      simp only [Site.unread, budget, Action.cost, decide_true, if_true, reduceCtorEq, decide_false,
        Bool.false_eq_true, if_false]
      omega
  | request =>
      have budget := budget_send nCooks site { type := .statusRequest }
      simp only [Packet.isPizza, Packet.isRequest] at budget
      simp only [Site.unread, budget, Action.cost, decide_true, if_true, reduceCtorEq, decide_false,
        Bool.false_eq_true, if_false]
      omega
  | close =>
      have budget := budget_send nCooks site { type := .shutdown }
      simp only [Packet.isPizza, Packet.isRequest] at budget
      simp only [Site.unread, budget, Action.cost, reduceCtorEq, decide_false, Bool.false_eq_true,
        if_false]
      omega
  | reap => exact Nat.le_add_right _ _

/-- A received result leaves one result less. -/
theorem unread_handle (nCooks : Nat) {kitchen : KitchenHandle} {site : Site P.State}
    {outcome : Outcome P.State} (effect : Operation.handle.Effect kitchen site outcome)
    (budget : site.resultQueue.sent.length ≤ site.budget nCooks) :
    outcome.site.unread nCooks < site.unread nCooks := by
  cases effect with
  | handle packet resultQueue next report received =>
      obtain ⟨head, history⟩ := Fifo.receive_eq_some_iff.mp received
      rw [Fifo.sent, head, List.length_append, List.length_cons] at budget
      have same : Site.budget nCooks { site with resultQueue } = site.budget nCooks := rfl
      simp only [Site.unread, same, history, List.length_append, List.length_singleton]
      omega

/-- An operation changes a total by the weight of its site. -/
theorem total_touch {pizzeria : Pizzeria P} {index : Nat} {operation : Operation}
    {kitchen : KitchenHandle} {outcome : Outcome P.State}
    (registered : pizzeria.Registered contract)
    (found : pizzeria.kitchens[index]? = some kitchen)
    (effect : operation.Effect kitchen (pizzeria.sites kitchen.id) outcome) (call : Call)
    (weight : Site P.State → Nat) :
    total weight { (pizzeria.touch index outcome.kitchen outcome.site).record outcome.report with
      call } + weight (pizzeria.sites kitchen.id) = pizzeria.total weight + weight outcome.site := by
  have spawned := registered.spawned kitchen (List.mem_of_getElem? found)
  have exchanged := sum_update_on weight pizzeria.sites (Finset.mem_range.mpr spawned) outcome.site
  simpa only [total, touch, sites_record, nextKitchenId_record, effect.id] using exchanged

/-- The loops of `dispatch` follow the removal of the dead handles. -/
theorem next_erase {pizzeria : Pizzeria P} {call : Call}
    (chosen : pizzeria.next = some (.erase, call)) :
    ∃ todo origin, call = .dispatching todo origin false := by
  unfold next at chosen
  repeat' split at chosen
  all_goals cases chosen
  exact ⟨_, _, rfl⟩

/-- Only the loops of `dispatch` spawn a kitchen. -/
theorem next_spawn {pizzeria : Pizzeria P} {call : Call}
    (chosen : pizzeria.next = some (.spawn, call)) :
    ∃ todo origin, call = .dispatching todo origin true := by
  unfold next at chosen
  repeat' split at chosen
  all_goals cases chosen
  exact ⟨_, _, rfl⟩

/-- Nothing follows the destruction of the handles. -/
theorem call_of_destroy {pizzeria : Pizzeria P} {call : Call}
    (chosen : pizzeria.next = some (.destroy, call)) : call = .destroyed := by
  unfold next at chosen
  repeat' split at chosen
  all_goals cases chosen
  rfl

/-- Every statement of the reception does some of its work, unless the pass has to be repeated. -/
theorem work_lt {pizzeria next : Pizzeria P} (registered : pizzeria.Registered contract)
    (budget : ∀ id, (pizzeria.sites id).resultQueue.sent.length ≤ (pizzeria.sites id).budget nCooks)
    (moved : Transition nCooks limit pizzeria .reception next) :
    next.work nCooks < pizzeria.work nCooks ∨ pizzeria.Keeps := by
  cases moved with
  | skip call chosen | report call _ chosen =>
      refine (left_of_next nCooks registered.ids chosen (by simp)).imp_left fun less => ?_
      exact Nat.add_lt_add_left (Nat.lt_of_le_of_lt (Nat.le_add_right _ _) less) _
  | apply index operation call kitchen outcome chosen found effect =>
      have exchanged := total_touch registered found effect call (Site.unread nCooks)
      dsimp only at exchanged
      have length : ((pizzeria.touch index outcome.kitchen outcome.site).record
          outcome.report).kitchens.length = pizzeria.kitchens.length := by
        rw [kitchens_record, touch, List.length_set]
      by_cases handles : operation = .handle
      · subst handles
        left
        have less := unread_handle nCooks effect (budget kitchen.id)
        simp only [work, length, left_of_handle nCooks registered.ids chosen]
        omega
      · have cost := unread_apply nCooks effect handles index
        refine (left_of_next nCooks registered.ids chosen ?_).imp_left fun less => ?_
        · intro other same
          cases same
          exact handles rfl
        · simp only [work, length]
          omega
  | erase call chosen =>
      refine (left_of_next nCooks registered.ids chosen (by simp)).imp_left fun less => ?_
      obtain ⟨todo, origin, rfl⟩ := next_erase chosen
      exact Nat.add_lt_add_left (Nat.lt_of_le_of_lt (Nat.le_add_right _ _) less) _
  | spawn call chosen =>
      refine (left_of_next nCooks registered.ids chosen (by simp)).imp_left fun less => ?_
      obtain ⟨todo, origin, rfl⟩ := next_spawn chosen
      have fresh : Site.unread nCooks (Site.fresh P.initial) = 1 := rfl
      have others : ∑ id ∈ Finset.range pizzeria.nextKitchenId, Site.unread nCooks
          (Function.update pizzeria.sites pizzeria.nextKitchenId (Site.fresh P.initial) id) =
            pizzeria.total (Site.unread nCooks) := Finset.sum_congr rfl fun id member => by
        rw [Function.update_of_ne (Finset.mem_range.mp member).ne]
      simp only [work, total, Finset.sum_range_succ, Function.update_self, fresh, others]
      simp only [Action.cost, Call.left] at less ⊢
      omega
  | destroy call chosen =>
      refine (left_of_next nCooks registered.ids chosen (by simp)).imp_left fun less => ?_
      obtain rfl := call_of_destroy chosen
      exact Nat.add_lt_add_left (Nat.lt_of_le_of_lt (Nat.zero_le _) less) _

/-- The others leave a running call its work. -/
theorem work_eq {pizzeria next : Pizzeria P} {label : PizzeriaLabel P}
    (registered : pizzeria.Registered contract) (moved : Transition nCooks limit pizzeria label next)
    (running : pizzeria.call ≠ .idle) (other : label ≠ .reception) :
    next.work nCooks = pizzeria.work nCooks := by
  cases moved with
  | order _ _ _ idle | status idle | poll idle | close idle => exact absurd idle running
  | skip | apply | erase | spawn | report | destroy => exact absurd rfl other
  | kitchen id label site spawned taken =>
      obtain ⟨orders, results⟩ := Site.frame_step (registered.honest id) taken
      have same : site.unread nCooks = (pizzeria.sites id).unread nCooks := by
        simp only [Site.unread, Site.budget, orders, results]
      simp only [work, total, sum_update_same_on (Site.unread nCooks) pizzeria.sites id site same]
  | elapse => rfl

end Process

end Pizzeria

end Plazza
