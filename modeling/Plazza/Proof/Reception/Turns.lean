import Plazza.Proof.Reception.Sites
import Plazza.Proof.Reception.Work

namespace Plazza
open Plazza.Foundation

namespace PizzeriaLabel

/-- The thread of the reception. -/
def Reception {P : KitchenProcess} : PizzeriaLabel P → Prop
  | .reception => True
  | _ => False

/-- A thread of the kitchen with the id. -/
def Kitchen {nCooks : Nat} {limit : Option Nat} (id : Nat) (thread : KitchenLabel nCooks → Prop) :
    PizzeriaLabel (KitchenWorker.process nCooks limit) → Prop
  | .kitchen moved label => moved = id ∧ thread (.process label)
  | _ => False

end PizzeriaLabel

/-- A queue has more room than one response and the load of one kitchen take. -/
def Roomy (nCooks : Nat) (limit : Option Nat) : Prop :=
  ∀ capacity, limit = some capacity → max 1 (2 * nCooks % 2 ^ 64) + (nCooks + 1) < capacity

theorem Roomy.hasRoom {nCooks : Nat} {limit : Option Nat} (roomy : Roomy nCooks limit)
    {packets : List Packet}
    (few : packets.length ≤ max 1 (2 * nCooks % 2 ^ 64) + (nCooks + 1)) :
    hasRoom limit packets = true := by
  cases limit with
  | none => rfl
  | some capacity => exact decide_eq_true (lt_of_le_of_lt few (roomy capacity rfl))

namespace Pizzeria

section Process

variable {P : KitchenProcess} {nCooks : Nat} {limit : Option Nat} {contract : P.Contract}

/-- The kitchen that the call works on is in the list, and the kitchen just spawned is alive. -/
def Placed (pizzeria : Pizzeria P) : Prop :=
  match pizzeria.call with
  | .draining index _ _ | .awaiting index => index < pizzeria.kitchens.length
  | .dispatching _ _ true =>
      ∃ kitchen, pizzeria.kitchens[pizzeria.kitchens.length - 1]? = some kitchen ∧
        kitchen.alive = true
  | _ => True

/-- Each statement places its kitchen. -/
theorem Placed.step {pizzeria next : Pizzeria P} {label : PizzeriaLabel P}
    (placed : pizzeria.Placed) (registered : pizzeria.Registered contract)
    (moved : Transition nCooks limit pizzeria label next) : next.Placed := by
  have inside : ∀ {index : Nat} {kitchen : KitchenHandle},
      pizzeria.kitchens[index]? = some kitchen → index < pizzeria.kitchens.length :=
    fun found => (List.getElem?_eq_some_iff.mp found).1
  cases moved with
  | order | status | poll | close => trivial
  | skip call chosen =>
      rcases statement_of_next registered.ids chosen with consults | statement
      · generalize pizzeria.call = current at consults
        cases consults <;> trivial
      · generalize pizzeria.call = current at statement
        cases statement with
        | enter _ _ _ _ found => exact inside found
        | pass | drained | dispatched | closed => trivial
  | report call _ chosen =>
      rcases statement_of_next registered.ids chosen with consults | statement
      · generalize pizzeria.call = current at consults
        cases consults
        trivial
      · generalize pizzeria.call = current at statement
        cases statement
  | apply index operation call kitchen outcome chosen found effect =>
      have length : ((pizzeria.touch index outcome.kitchen outcome.site).record
          outcome.report).kitchens.length = pizzeria.kitchens.length := by
        rw [kitchens_record, touch, List.length_set]
      rcases statement_of_next registered.ids chosen with consults | statement
      · generalize pizzeria.call = current at consults
        cases consults <;> trivial
      · generalize pizzeria.call = current at statement
        cases statement with
        | drain _ _ _ _ _ found | close _ _ found => exact (inside found).trans_eq length.symm
        | send | reap => trivial
  | erase call chosen =>
      obtain ⟨todo, origin, rfl⟩ := next_erase chosen
      trivial
  | spawn call chosen =>
      obtain ⟨todo, origin, rfl⟩ := next_spawn chosen
      exact ⟨KitchenHandle.new pizzeria.nextKitchenId nCooks, by simp, rfl⟩
  | destroy call chosen =>
      obtain rfl := call_of_destroy chosen
      trivial
  | kitchen | elapse => exact placed

/-- Every run places the kitchens of its calls. -/
theorem placed_of_reachable (contract : P.Contract) {guard : Pizzeria P → PizzeriaLabel P → Prop}
    {pizzeria : Pizzeria P} (reached : (machine P nCooks limit).ReachableUnder guard pizzeria) :
    pizzeria.Placed :=
  reached.invariant trivial fun before placed _ taken =>
    placed.step (registered_of_reachable contract before) (transition_of_step taken)

/-- A running call has a next statement. -/
theorem exists_next {pizzeria : Pizzeria P} (placed : pizzeria.Placed)
    (consulting : pizzeria.Consulting) (runs : pizzeria.call ≠ .idle ∧ pizzeria.call ≠ .destroyed) :
    ∃ action call, pizzeria.next = some (action, call) := by
  unfold Placed at placed
  cases running : pizzeria.call with
  | idle => exact absurd running runs.1
  | destroyed => exact absurd running runs.2
  | updating index todo origin | requesting index pendingIDs | shuttingDown index =>
      rw [next, running]
      dsimp only
      split
      · exact ⟨_, _, rfl⟩
      · split <;> exact ⟨_, _, rfl⟩
  | draining index todo origin =>
      rw [running] at placed
      rw [next, running]
      simp only [List.getElem?_eq_getElem placed]
      split <;> exact ⟨_, _, rfl⟩
  | dispatching todo origin spawned =>
      rcases todo with _ | ⟨pizza, rest⟩ <;> cases spawned <;> rw [next, running] <;> dsimp only
      · exact ⟨_, _, rfl⟩
      · exact ⟨_, _, rfl⟩
      · split <;> exact ⟨_, _, rfl⟩
      · exact ⟨_, _, rfl⟩
  | polling kept rest =>
      rcases rest with _ | ⟨id, rest⟩ <;> rcases kept with _ | ⟨first, kept⟩ <;>
        rw [next, running] <;> dsimp only
      · exact ⟨_, _, rfl⟩
      · exact ⟨_, _, rfl⟩
      all_goals
        split
        · exact ⟨_, _, rfl⟩
        · split <;> exact ⟨_, _, rfl⟩
  | answering kept id index rest gotReply =>
      obtain ⟨kitchen, found, _⟩ := consulting.answering kept id index rest gotReply running
      rw [next, running]
      simp only [found]
      split
      · exact ⟨_, _, rfl⟩
      · split <;> exact ⟨_, _, rfl⟩
  | awaiting index => exact ⟨_, _, by rw [next, running]⟩

end Process

variable {nCooks : Nat} {limit : Option Nat}
  {pizzeria : Pizzeria (KitchenWorker.process nCooks limit)}

/-- An unread packet can be handled. -/
theorem exists_handle
    (reached : (machine (KitchenWorker.process nCooks limit) nCooks limit).Reachable pizzeria)
    {kitchen : KitchenHandle} {packet : Packet} (oldest : pizzeria.inbox kitchen = some packet) :
    ∃ outcome, Operation.handle.run limit kitchen (pizzeria.sites kitchen.id) = some outcome := by
  obtain ⟨others, pending⟩ := List.head?_eq_some_iff.mp oldest
  have received := Fifo.receive_of_pending pending
  have honest := (registered_of_reachable (KitchenWorker.contract nCooks limit) reached).honest
    kitchen.id
  have writes := Kitchen.writes_of_reachable (kitchen_of_reachable reached kitchen.id)
  have sent : packet ∈ (pizzeria.sites kitchen.id).resultQueue.sent := by
    rw [Fifo.sent, pending]
    simp
  obtain ⟨result, handled⟩ := Option.isSome_iff_exists.mp (writes.sent packet sent kitchen)
  have waits : ¬(packet.type = .shutdown ∧
      (KitchenWorker.process nCooks limit).exited (pizzeria.sites kitchen.id).process = false) := by
    rintro ⟨shutdown, stays⟩
    rw [(honest.pending_of_shutdown received shutdown).1] at stays
    cases stays
  exact ⟨_, by simp [Operation.run, received, waits, handled]; rfl⟩

/-- The reception can send to a live kitchen without an awaited reply. -/
theorem exists_sendOrder (roomy : Roomy nCooks limit)
    (reached : (machine (KitchenWorker.process nCooks limit) nCooks limit).Reachable pizzeria)
    {kitchen : KitchenHandle} (member : kitchen ∈ pizzeria.kitchens) (alive : kitchen.alive = true)
    (stays : ¬pizzeria.Awaits kitchen.id)
    (silent : pizzeria.call.awaitedIDs.count kitchen.id = 0) (packet : Packet) :
    ∃ site, (pizzeria.sites kitchen.id).sendOrder limit packet = some site := by
  have few := length_orders_le reached member alive stays silent
  have accounts := (balanced_of_reachable (KitchenWorker.contract nCooks limit) reached).accounts
    kitchen member
  have bounded := accounts.bounded
  rw [accounts.capacity] at bounded
  exact ⟨_, if_pos (roomy.hasRoom ((few.trans bounded).trans (Nat.le_add_right _ _)))⟩

/-- Each kitchen that a pizza is sent to is alive. -/
theorem exists_receiver
    (reached : (machine (KitchenWorker.process nCooks limit) nCooks limit).Reachable pizzeria)
    {index : Nat} {pizza : Pizza} {origin : Int} {call : Call}
    (chosen : pizzeria.next = some (.apply index (.send pizza origin), call)) :
    ∃ kitchen, pizzeria.kitchens[index]? = some kitchen ∧ kitchen.alive = true := by
  obtain ⟨rest, _, ⟨running, rfl⟩ | ⟨_, best⟩⟩ := next_send chosen
  · have placed := placed_of_reachable (KitchenWorker.contract nCooks limit) reached
    rw [Placed, running] at placed
    exact placed
  · obtain ⟨kitchen, found, ⟨alive, _⟩, _⟩ := bestKitchen_spec best
    exact ⟨kitchen, found, alive⟩

/-- Every statement succeeds, once the process that the shutdown waits for has exited. -/
theorem exists_performed (roomy : Roomy nCooks limit)
    (reached : (machine (KitchenWorker.process nCooks limit) nCooks limit).Reachable pizzeria)
    (exits : ∀ id, pizzeria.Awaits id → (pizzeria.sites id).process.hasExited = true)
    {action : Action} {call : Call} (chosen : pizzeria.next = some (action, call)) :
    ∃ next, pizzeria.perform nCooks limit action = some next := by
  have ids := (registered_of_reachable (KitchenWorker.contract nCooks limit) reached).ids
  have consulting := consulting_of_reachable (KitchenWorker.contract nCooks limit) reached
  have placed := placed_of_reachable (KitchenWorker.contract nCooks limit) reached
  have applies : ∀ {index : Nat} {operation : Operation} {kitchen : KitchenHandle},
      pizzeria.kitchens[index]? = some kitchen →
      (∃ outcome, operation.run limit kitchen (pizzeria.sites kitchen.id) = some outcome) →
      ∃ next, pizzeria.perform nCooks limit (.apply index operation) = some next := by
    rintro index operation kitchen found ⟨outcome, ran⟩
    exact ⟨_, by simp [perform, found, ran]; rfl⟩
  have apart : ∀ {current : Call}, pizzeria.call = current → (∀ index, current ≠ .awaiting index) →
      ∀ id, ¬pizzeria.Awaits id := by
    rintro _ rfl other id ⟨index, _, awaits, _⟩
    exact other index awaits
  have sends : ∀ {index : Nat} {kitchen : KitchenHandle},
      pizzeria.kitchens[index]? = some kitchen → kitchen.alive = true →
      (∀ id, ¬pizzeria.Awaits id) → pizzeria.call.awaitedIDs.count kitchen.id = 0 →
      ∀ packet, ∃ site, (pizzeria.sites kitchen.id).sendOrder limit packet = some site :=
    fun found alive stays silent =>
      exists_sendOrder roomy reached (List.mem_of_getElem? found) alive (stays _) silent
  rcases statement_of_next ids chosen with consults | statement
  · generalize running : pizzeria.call = current at consults
    cases consults with
    | ask index pendingIDs kitchen found alive =>
        obtain ⟨_, _, silent, _⟩ | ⟨other, _⟩ | ⟨other, _⟩ :=
          awaited_apply consulting ids chosen found
        · obtain ⟨site, sent⟩ := sends found alive (apart running (by simp)) silent
            { type := .statusRequest }
          exact applies found ⟨_, by simp [Operation.run, sent]; rfl⟩
        · exact absurd rfl other
        · cases other
    | hear kept id index rest gotReply kitchen packet found oldest =>
        exact applies found (exists_handle reached oldest)
    | asked | pass | finish | again | drop | enter | answered | lost | wait => exact ⟨_, rfl⟩
  · generalize running : pizzeria.call = current at statement
    cases statement with
    | drain index todo origin kitchen packet found oldest =>
        exact applies found (exists_handle reached oldest)
    | send pizza rest origin spawned index =>
        obtain ⟨kitchen, found, alive⟩ := exists_receiver reached chosen
        obtain ⟨site, sent⟩ := sends found alive (apart running (by simp)) (by rw [running]; rfl)
          { type := .pizza, pizza := pack pizza, origin }
        exact applies found ⟨_, by simp [Operation.run, sent]; rfl⟩
    | close index kitchen found alive =>
        obtain ⟨site, sent⟩ := sends found alive (apart running (by simp)) (by rw [running]; rfl)
          { type := .shutdown }
        exact applies found ⟨_, by simp [Operation.run, sent]; rfl⟩
    | reap index =>
        rw [Placed, running] at placed
        have found := List.getElem?_eq_getElem placed
        have left := exits _ ⟨index, _, running, found, rfl⟩
        exact applies found ⟨_, if_pos left⟩
    | enter | pass | erase | drained | dispatched | spawn | closed | destroy => exact ⟨_, rfl⟩

/-- A running call has a step, once the process that the shutdown waits for has exited. -/
theorem enables_reception (roomy : Roomy nCooks limit)
    (reached : (machine (KitchenWorker.process nCooks limit) nCooks limit).Reachable pizzeria)
    (runs : pizzeria.call ≠ .idle ∧ pizzeria.call ≠ .destroyed)
    (exits : ∀ id, pizzeria.Awaits id → (pizzeria.sites id).process.hasExited = true) :
    (machine (KitchenWorker.process nCooks limit) nCooks limit).Enables PizzeriaLabel.Reception
      pizzeria := by
  obtain ⟨action, call, chosen⟩ := exists_next
    (placed_of_reachable (KitchenWorker.contract nCooks limit) reached)
    (consulting_of_reachable (KitchenWorker.contract nCooks limit) reached) runs
  obtain ⟨next, performed⟩ := exists_performed roomy reached exits chosen
  exact ⟨.reception, { next with call }, trivial, by simp [machine, step, chosen, performed]⟩

/-- What the threads and the clock do for the progress of the program: the reception and the threads
of every kitchen get their turns, and the clock passes the end of each sleep. -/
structure Scheduled (execution : (machine (KitchenWorker.process nCooks limit) nCooks limit).Execution) :
    Prop where
  reception : execution.Fair PizzeriaLabel.Reception
  main : ∀ id, execution.Fair (PizzeriaLabel.Kitchen id KitchenLabel.Main)
  cook : ∀ id index, execution.Fair (PizzeriaLabel.Kitchen id (KitchenLabel.Cook index))
  regenerator : ∀ id, execution.Fair (PizzeriaLabel.Kitchen id KitchenLabel.Regenerator)
  clock : ∀ id moment running wakeTime,
    KitchenWorker.control ((execution.state moment).sites id).process = .sleeping running wakeTime →
      ∃ later, moment ≤ later ∧ wakeTime ≤ (execution.state later).now

/-- A spawned id stays spawned. -/
theorem spawned_stable (id : Nat) :
    (machine (KitchenWorker.process nCooks limit) nCooks limit).Stable
      fun pizzeria => id < pizzeria.nextKitchenId := by
  intro pizzeria next label _ spawned taken
  cases transition_of_step taken with
  | apply => simpa [touch] using spawned
  | spawn => exact Nat.lt_succ_of_lt spawned
  | order | status | poll | close | skip | erase | report | destroy | kitchen | elapse => exact spawned

/-- A thread of a kitchen that gets its turns in the program gets them in its kitchen. -/
theorem fair_kitchen
    {execution : (machine (KitchenWorker.process nCooks limit) nCooks limit).Execution} {id : Nat}
    {thread : KitchenLabel nCooks → Prop} (fair : execution.Fair (PizzeriaLabel.Kitchen id thread))
    (own : ∀ label, thread label → ∃ moved, label = .process moved) {start : Nat}
    (spawned : id < (execution.state start).nextKitchenId) :
    (execution.map (refines_kitchen nCooks limit id)).Fair thread := by
  refine fair.map (refines_kitchen nCooks limit id) ?_ ?_
  · intro pizzeria next label _ _ chosen
    cases label with
    | kitchen moved label =>
        obtain ⟨rfl, inside⟩ := chosen
        exact ⟨.process label, if_pos rfl, inside⟩
    | order | status | poll | close | reception | elapse => cases chosen
  · intro moment _ again
    obtain ⟨later, late, label, next, chosen, taken⟩ := again (max moment start)
    obtain ⟨moved, rfl⟩ := own label chosen
    obtain ⟨site, stepped, _⟩ := Option.map_eq_some_iff.mp taken
    have here := Machine.Execution.stays (spawned_stable id) ((le_max_right _ _).trans late) spawned
    have made : (execution.state later).step nCooks limit (.kitchen id moved) =
        some { execution.state later with
          sites := Function.update (execution.state later).sites id site } :=
      (if_pos here).trans (Option.map_eq_some_iff.mpr ⟨site, stepped, rfl⟩)
    exact ⟨later, (le_max_left _ _).trans late, .kitchen id moved, _, ⟨rfl, chosen⟩, made⟩

/-- Each kitchen of a scheduled program is scheduled. -/
theorem Scheduled.kitchen
    {execution : (machine (KitchenWorker.process nCooks limit) nCooks limit).Execution}
    (scheduled : Scheduled execution) (roomy : Roomy nCooks limit) {id start : Nat}
    (spawned : id < (execution.state start).nextKitchenId) :
    Kitchen.Scheduled (execution.map (refines_kitchen nCooks limit id)) where
  main := fair_kitchen (scheduled.main id) (fun label main => by
    cases label <;> first | exact ⟨_, rfl⟩ | cases main) spawned
  cook index := fair_kitchen (scheduled.cook id index) (fun label cook => by
    cases label <;> first | exact ⟨_, rfl⟩ | cases cook) spawned
  regenerator := fair_kitchen (scheduled.regenerator id) (fun label ticks => by
    cases label <;> first | exact ⟨_, rfl⟩ | cases ticks) spawned
  clock := scheduled.clock id
  room moment := by
    refine ⟨max moment start, le_max_left _ _, ?_⟩
    have here := Machine.Execution.stays (spawned_stable id) (le_max_right moment start) spawned
    cases runs : (execution.state (max moment start)).sites id |>.process.hasExited with
    | true => exact .inl runs
    | false => exact .inr (roomy.hasRoom (length_results_le (execution.reachable _) here runs))
  readable moment packet sent :=
    (ordered_of_reachable (KitchenWorker.contract nCooks limit) (execution.reachable moment) id packet
      sent).readable

end Pizzeria

end Plazza
