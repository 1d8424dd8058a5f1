import Plazza.Proof.Shutdown.Deadlock

namespace Plazza
open Plazza.Foundation

/-- A kitchen sends answers, the packets of status responses and its shutdown packet. -/
def Packet.Outgoing (packet : Packet) : Prop :=
  packet.isAnswer = true ∨ packet.isStatus = true ∨ packet.type = .shutdown

/-- Each step of the process sends only packets of these kinds. -/
theorem Site.outgoing_step {P : KitchenProcess} {contract : P.Contract} {site next : Site P.State}
    {now : Nat} {label : P.Label} (honest : site.Honest contract)
    (taken : P.step now site label = some next)
    (outgoing : ∀ packet ∈ site.resultQueue.sent, packet.Outgoing) :
    ∀ packet ∈ next.resultQueue.sent, packet.Outgoing := by
  obtain ⟨_, _, move⟩ := contract.step honest.valid taken
  cases move with
  | internal _ results => rwa [results]
  | take _ _ results => rwa [results]
  | answer packet answers _ results =>
      rw [results]
      exact Fifo.forall_sent_send outgoing (.inl answers)
  | inform packet informs _ results =>
      rw [results]
      refine Fifo.forall_sent_send outgoing (.inr (.inl ?_))
      rcases informs with type | type <;> simp [Packet.isStatus, type]
  | leave _ results =>
      rw [results]
      exact Fifo.forall_sent_send outgoing (.inr (.inr rfl))

namespace Pizzeria

/-- Every result queue holds only packets of these kinds. -/
theorem outgoing_of_reachable {P : KitchenProcess} {nCooks : Nat} {limit : Option Nat}
    (contract : P.Contract) {guard : Pizzeria P → PizzeriaLabel P → Prop} {pizzeria : Pizzeria P}
    (reached : (machine P nCooks limit).ReachableUnder guard pizzeria) :
    ∀ id, ∀ packet ∈ (pizzeria.sites id).resultQueue.sent, packet.Outgoing := by
  refine reached.invariant (motive := fun pizzeria => ∀ id,
    ∀ packet ∈ (pizzeria.sites id).resultQueue.sent, packet.Outgoing) (fun _ => nofun) ?_
  intro state next label before outgoing _ taken
  have registered := registered_of_reachable contract before
  refine forall_sites (fun _ site => ∀ packet ∈ site.resultQueue.sent, packet.Outgoing)
    (transition_of_step taken) nofun ?_ ?_ outgoing
  · intro index operation kitchen outcome _ _ _ effect here
    rw [effect.queues.2]
    exact here
  · intro id label site same spawned moved here
    exact Site.outgoing_step (registered.honest id) moved here

/-- The shutdown of the reception waits only for a kitchen that it has found alive. -/
theorem next_awaiting {P : KitchenProcess} {pizzeria : Pizzeria P} {action : Action} {index : Nat}
    (chosen : pizzeria.next = some (action, .awaiting index)) :
    action = .apply index .close ∧
      ∀ kitchen, pizzeria.kitchens[index]? = some kitchen → kitchen.alive = true := by
  unfold next at chosen
  repeat' split at chosen
  all_goals cases chosen
  rename_i kitchen alive _ found
  refine ⟨rfl, fun other same => ?_⟩
  obtain rfl := Option.some.inj (found.symm.trans same)
  exact alive

/-- The awaited kitchen is alive in the record of the reception. -/
theorem awaited_alive {P : KitchenProcess} {nCooks : Nat} {limit : Option Nat}
    {guard : Pizzeria P → PizzeriaLabel P → Prop} {pizzeria : Pizzeria P}
    (reached : (machine P nCooks limit).ReachableUnder guard pizzeria) :
    ∀ index kitchen, pizzeria.call = .awaiting index →
      pizzeria.kitchens[index]? = some kitchen → kitchen.alive = true := by
  refine reached.invariant (motive := fun pizzeria => ∀ index kitchen,
    pizzeria.call = .awaiting index → pizzeria.kitchens[index]? = some kitchen →
      kitchen.alive = true) nofun ?_
  intro state next label _ alive _ taken index kitchen awaits found
  cases transition_of_step taken with
  | order | status | poll | close => cases awaits
  | skip _ chosen | erase _ chosen | spawn _ chosen | report _ _ chosen | destroy _ chosen =>
      subst awaits
      cases (next_awaiting chosen).1
  | apply position operation call handle outcome chosen here effect =>
      subst awaits
      obtain ⟨same, living⟩ := next_awaiting chosen
      cases same
      cases effect
      obtain ⟨inside, _⟩ := List.getElem?_eq_some_iff.mp here
      simp only [touch, kitchens_record, List.getElem?_set_self inside] at found
      obtain rfl := Option.some.inj found
      exact living handle here
  | kitchen | elapse => exact alive index kitchen awaits found

variable {nCooks : Nat} {limit : Option Nat}

/-- While the shutdown waits for a kitchen, only answers that the load counts are unread. -/
theorem length_pending_le {pizzeria : Pizzeria (KitchenWorker.process nCooks limit)}
    (reached : (machine (KitchenWorker.process nCooks limit) nCooks limit).Reachable pizzeria)
    {index : Nat} (awaits : pizzeria.call = .awaiting index) {kitchen : KitchenHandle}
    (found : pizzeria.kitchens[index]? = some kitchen)
    (running : (pizzeria.sites kitchen.id).process.hasExited = false) :
    (pizzeria.sites kitchen.id).resultQueue.pending.length ≤ kitchen.load := by
  have member := List.mem_of_getElem? found
  have registered := registered_of_reachable (KitchenWorker.contract nCooks limit) reached
  have accounts := (balanced_of_reachable (KitchenWorker.contract nCooks limit) reached).accounts
    kitchen member
  have honest := registered.honest kitchen.id
  have outgoing := outgoing_of_reachable (KitchenWorker.contract nCooks limit) reached kitchen.id
  obtain ⟨exchanges, recorded⟩ := reached.exists_history exchange fun _ => Exchange.empty
  have replied := (consulted_of_reachable recorded).replied member
    (awaited_alive reached index kitchen awaits found) (by simp only [awaits]; rfl)
  have answers : ∀ packet ∈ (pizzeria.sites kitchen.id).resultQueue.pending,
      packet.isAnswer = true := by
    intro packet inside
    have sent := List.mem_append_right (pizzeria.sites kitchen.id).resultQueue.received inside
    rcases outgoing packet sent with answers | status | shutdown
    · exact answers
    · rw [replied.none_left packet inside] at status
      cases status
    · exact absurd shutdown (honest.open' running packet sent)
  have counted := List.countP_eq_length.mpr answers
  have load := accounts.load_eq honest
  omega

/-- In a deadlock the load of the awaited kitchen fills its result queue. -/
theorem Deadlocked.load {capacity : Nat}
    {pizzeria : Pizzeria (KitchenWorker.process nCooks (some capacity))}
    (reached : (machine (KitchenWorker.process nCooks (some capacity)) nCooks
      (some capacity)).Reachable pizzeria) (deadlocked : pizzeria.Deadlocked) :
    ∃ index kitchen, pizzeria.call = .awaiting index ∧
      pizzeria.kitchens[index]? = some kitchen ∧ capacity ≤ kitchen.load := by
  obtain ⟨index, kitchen, awaits, found, blocked⟩ := deadlocked
  have unread := length_pending_le reached awaits found blocked.running
  have full : capacity ≤ (pizzeria.sites kitchen.id).resultQueue.pending.length := by
    simpa [hasRoom] using blocked.1
  exact ⟨index, kitchen, awaits, found, full.trans unread⟩

/-- Queues with more room than one kitchen has capacity never deadlock. -/
theorem not_deadlocked {capacity : Nat} (room : max 1 (2 * nCooks % 2 ^ 64) < capacity)
    {pizzeria : Pizzeria (KitchenWorker.process nCooks (some capacity))}
    (reached : (machine (KitchenWorker.process nCooks (some capacity)) nCooks
      (some capacity)).Reachable pizzeria) : ¬pizzeria.Deadlocked := by
  intro deadlocked
  obtain ⟨index, kitchen, _, found, full⟩ := deadlocked.load reached
  have accounts := (balanced_of_reachable (KitchenWorker.contract nCooks (some capacity))
    reached).accounts kitchen (List.mem_of_getElem? found)
  have bounded := accounts.bounded
  rw [accounts.capacity] at bounded
  exact absurd (full.trans bounded) (Nat.not_le.mpr room)

end Pizzeria

end Plazza
