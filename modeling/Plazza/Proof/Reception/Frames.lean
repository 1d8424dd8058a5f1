import Plazza.Proof.Kitchen.Contract
import Plazza.Proof.Reception.Steps

namespace Plazza
open Plazza.Foundation

/-- An operation keeps the kitchen process. -/
theorem Operation.Effect.process {P : KitchenProcess} {operation : Operation}
    {kitchen : KitchenHandle} {site : Site P.State} {outcome : Outcome P.State}
    (effect : operation.Effect kitchen site outcome) : outcome.site.process = site.process := by
  cases effect <;> rfl

/-- An operation keeps the id of its handle. -/
theorem Operation.Effect.id {P : KitchenProcess} {operation : Operation}
    {kitchen : KitchenHandle} {site : Site P.State} {outcome : Outcome P.State}
    (effect : operation.Effect kitchen site outcome) : outcome.kitchen.id = kitchen.id := by
  cases effect with
  | handle _ _ _ _ _ _ handled => exact handled.id
  | _ => rfl

/-- No operation brings a dead kitchen back. -/
theorem Operation.Effect.living {P : KitchenProcess} {operation : Operation}
    {kitchen : KitchenHandle} {site : Site P.State} {outcome : Outcome P.State}
    (effect : operation.Effect kitchen site outcome) (alive : outcome.kitchen.alive = true) :
    kitchen.alive = true := by
  cases effect with
  | handle _ _ _ _ _ _ handled =>
      rw [handled.alive, Bool.and_eq_true] at alive
      exact alive.1
  | reap => cases alive
  | send | request | close => exact alive

/-- A reception operation never takes from the order queue and never sends a result. -/
theorem Operation.Effect.queues {P : KitchenProcess} {operation : Operation}
    {kitchen : KitchenHandle} {site : Site P.State} {outcome : Outcome P.State}
    (effect : operation.Effect kitchen site outcome) :
    outcome.site.orderQueue.received = site.orderQueue.received ∧
      outcome.site.resultQueue.sent = site.resultQueue.sent := by
  cases effect with
  | handle packet resultQueue _ _ received => exact ⟨rfl, Fifo.sent_receive received⟩
  | _ => exact ⟨rfl, rfl⟩

/-- The contract constrains only what a kitchen has received and sent. -/
theorem Site.Honest.of_queues {P : KitchenProcess} {contract : P.Contract} {site next : Site P.State}
    (honest : site.Honest contract) (process : next.process = site.process)
    (orders : next.orderQueue.received = site.orderQueue.received)
    (results : next.resultQueue.sent = site.resultQueue.sent) : next.Honest contract where
  valid := process ▸ honest.valid
  balance := by rw [orders, results, process]; exact honest.balance
  open' stays := by
    rw [process] at stays
    rw [results]
    exact honest.open' stays
  closed left := by
    rw [process] at left ⊢
    rw [results]
    exact honest.closed left

namespace Pizzeria

variable {P : KitchenProcess} {nCooks : Nat} {limit : Option Nat} {contract : P.Contract}

/-- The handles have distinct spawned ids and every site honours the contract. -/
structure Registered (contract : P.Contract) (pizzeria : Pizzeria P) : Prop where
  ids : (pizzeria.kitchens.map KitchenHandle.id).Nodup
  spawned : ∀ kitchen ∈ pizzeria.kitchens, kitchen.id < pizzeria.nextKitchenId
  honest : ∀ id, (pizzeria.sites id).Honest contract
  unspawned : ∀ id, pizzeria.nextKitchenId ≤ id → pizzeria.sites id = Site.fresh P.initial

/-- A replaced handle keeps the list of ids. -/
theorem ids_set {kitchens : List KitchenHandle} {index : Nat} {kitchen next : KitchenHandle}
    (found : kitchens[index]? = some kitchen) (same : next.id = kitchen.id) :
    (kitchens.set index next).map KitchenHandle.id = kitchens.map KitchenHandle.id := by
  obtain ⟨inside, rfl⟩ := List.getElem?_eq_some_iff.mp found
  rw [List.map_set, same, ← List.getElem_map KitchenHandle.id (h := by simpa using inside),
    List.set_getElem_self]

/-- Handles at different positions have different ids. -/
theorem ids_apart {kitchens : List KitchenHandle} {first second : Nat}
    {kitchen other : KitchenHandle} (ids : (kitchens.map KitchenHandle.id).Nodup)
    (here : kitchens[first]? = some kitchen) (there : kitchens[second]? = some other)
    (apart : first ≠ second) : kitchen.id ≠ other.id := by
  obtain ⟨inside, rfl⟩ := List.getElem?_eq_some_iff.mp here
  obtain ⟨within, rfl⟩ := List.getElem?_eq_some_iff.mp there
  intro same
  have inRange : first < (kitchens.map KitchenHandle.id).length := by simpa using inside
  have withinRange : second < (kitchens.map KitchenHandle.id).length := by simpa using within
  have positions : (kitchens.map KitchenHandle.id)[first] =
      (kitchens.map KitchenHandle.id)[second] := by simpa using same
  exact apart (ids.getElem_inj_iff.mp positions)

/-- Every other handle of the list has another id. -/
theorem mem_set {kitchens : List KitchenHandle} {index : Nat} {kitchen next other : KitchenHandle}
    (ids : (kitchens.map KitchenHandle.id).Nodup) (found : kitchens[index]? = some kitchen)
    (member : other ∈ kitchens.set index next) :
    other = next ∨ other ∈ kitchens ∧ other.id ≠ kitchen.id := by
  obtain ⟨position, bound, rfl⟩ := List.mem_iff_getElem.mp member
  rw [List.getElem_set]
  split
  · exact .inl rfl
  · rename_i apart
    rw [List.length_set] at bound
    refine .inr ⟨List.getElem_mem bound, ids_apart ids (List.getElem?_eq_getElem bound) found ?_⟩
    exact fun same => apart same.symm

/-- A property of each handle and its site survives a step that keeps it for the moved handle. -/
theorem forall_kitchens (property : KitchenHandle → Site P.State → Prop)
    {pizzeria next : Pizzeria P} {label : PizzeriaLabel P}
    (registered : pizzeria.Registered contract)
    (moved : Transition nCooks limit pizzeria label next)
    (spawn : property (KitchenHandle.new pizzeria.nextKitchenId nCooks) (Site.fresh P.initial))
    (apply : ∀ {index operation kitchen outcome}, label = .reception →
      pizzeria.next = some (.apply index operation, next.call) →
      pizzeria.kitchens[index]? = some kitchen →
      operation.Effect kitchen (pizzeria.sites kitchen.id) outcome →
      property kitchen (pizzeria.sites kitchen.id) → property outcome.kitchen outcome.site)
    (step : ∀ {kitchen taken site}, label = .kitchen kitchen.id taken →
      kitchen ∈ pizzeria.kitchens →
      P.step pizzeria.now (pizzeria.sites kitchen.id) taken = some site →
      property kitchen (pizzeria.sites kitchen.id) → property kitchen site)
    (holds : ∀ kitchen ∈ pizzeria.kitchens, property kitchen (pizzeria.sites kitchen.id)) :
    ∀ kitchen ∈ next.kitchens, property kitchen (next.sites kitchen.id) := by
  intro kitchen member
  cases moved with
  | apply index operation call handle outcome chosen found effect =>
      simp only [touch, kitchens_record, sites_record] at member ⊢
      rcases mem_set registered.ids found member with rfl | ⟨inside, apart⟩
      · rw [Function.update_self]
        exact apply rfl chosen found effect (holds handle (List.mem_of_getElem? found))
      · rw [Function.update_of_ne (effect.id ▸ apart)]
        exact holds kitchen inside
  | erase => exact holds kitchen (List.mem_of_mem_filter member)
  | spawn =>
      rcases List.mem_append.mp member with inside | last
      · have apart := (registered.spawned kitchen inside).ne
        simp only [Function.update_of_ne apart]
        exact holds kitchen inside
      · obtain rfl := List.mem_singleton.mp last
        simpa [KitchenHandle.new] using spawn
  | destroy => cases member
  | kitchen id label site spawned taken =>
      by_cases same : kitchen.id = id
      · subst same
        simp only [Function.update_self]
        exact step rfl member taken (holds kitchen member)
      · simp only [Function.update_of_ne same]
        exact holds kitchen member
  | _ => exact holds kitchen member

/-- A property of every site survives a step that keeps it for the moved site. -/
theorem forall_sites (property : Nat → Site P.State → Prop) {pizzeria next : Pizzeria P}
    {label : PizzeriaLabel P} (moved : Transition nCooks limit pizzeria label next)
    (spawn : property pizzeria.nextKitchenId (Site.fresh P.initial))
    (apply : ∀ {index operation kitchen outcome}, label = .reception →
      pizzeria.next = some (.apply index operation, next.call) →
      pizzeria.kitchens[index]? = some kitchen →
      operation.Effect kitchen (pizzeria.sites kitchen.id) outcome →
      property kitchen.id (pizzeria.sites kitchen.id) → property kitchen.id outcome.site)
    (step : ∀ {id taken site}, label = .kitchen id taken → id < pizzeria.nextKitchenId →
      P.step pizzeria.now (pizzeria.sites id) taken = some site →
      property id (pizzeria.sites id) → property id site)
    (holds : ∀ id, property id (pizzeria.sites id)) : ∀ id, property id (next.sites id) := by
  have changed : ∀ {moved : Nat} {site : Site P.State}, property moved site →
      ∀ id, property id (Function.update pizzeria.sites moved site id) := by
    intro moved site here id
    by_cases same : id = moved
    · subst same
      rwa [Function.update_self]
    · rw [Function.update_of_ne same]
      exact holds id
  cases moved with
  | apply index operation call handle outcome chosen found effect =>
      simp only [touch, sites_record]
      exact changed (effect.id ▸ apply rfl chosen found effect (holds handle.id))
  | spawn => exact changed spawn
  | kitchen id label site spawned taken => exact changed (step rfl spawned taken (holds id))
  | _ => exact holds

/-- Every step keeps the ids of the handles apart. -/
theorem Registered.ids_step {pizzeria next : Pizzeria P} {label : PizzeriaLabel P}
    (registered : pizzeria.Registered contract)
    (moved : Transition nCooks limit pizzeria label next) :
    (next.kitchens.map KitchenHandle.id).Nodup := by
  cases moved with
  | apply index operation call handle outcome chosen found effect =>
      simp only [touch, kitchens_record, ids_set found effect.id]
      exact registered.ids
  | erase => exact registered.ids.sublist (List.filter_sublist.map _)
  | spawn =>
      rw [List.map_append, List.nodup_append]
      refine ⟨registered.ids, List.nodup_singleton _, ?_⟩
      intro id member other last
      obtain ⟨kitchen, inside, rfl⟩ := List.mem_map.mp member
      obtain rfl := List.mem_singleton.mp last
      exact (registered.spawned kitchen inside).ne
  | destroy => exact List.nodup_nil
  | _ => exact registered.ids

/-- Every step keeps the ids of the handles below the next one. -/
theorem Registered.spawned_step {pizzeria next : Pizzeria P} {label : PizzeriaLabel P}
    (registered : pizzeria.Registered contract)
    (moved : Transition nCooks limit pizzeria label next) :
    ∀ kitchen ∈ next.kitchens, kitchen.id < next.nextKitchenId := by
  intro kitchen member
  cases moved with
  | apply index operation call handle outcome chosen found effect =>
      simp only [touch, kitchens_record, nextKitchenId_record] at member ⊢
      rcases mem_set registered.ids found member with rfl | ⟨inside, _⟩
      · exact effect.id ▸ registered.spawned handle (List.mem_of_getElem? found)
      · exact registered.spawned kitchen inside
  | erase => exact registered.spawned kitchen (List.mem_of_mem_filter member)
  | spawn =>
      rcases List.mem_append.mp member with inside | last
      · exact Nat.lt_succ_of_lt (registered.spawned kitchen inside)
      · obtain rfl := List.mem_singleton.mp last
        exact Nat.lt_succ_self _
  | destroy => cases member
  | _ => exact registered.spawned kitchen member

/-- Every step leaves the sites of the ids that are not given out yet. -/
theorem Registered.unspawned_step {pizzeria next : Pizzeria P} {label : PizzeriaLabel P}
    (registered : pizzeria.Registered contract)
    (moved : Transition nCooks limit pizzeria label next) :
    ∀ id ≥ next.nextKitchenId, next.sites id = Site.fresh P.initial := by
  intro id beyond
  cases moved with
  | apply index operation call handle outcome chosen found effect =>
      simp only [touch, sites_record, nextKitchenId_record] at beyond ⊢
      have listed := registered.spawned handle (List.mem_of_getElem? found)
      have apart : id ≠ outcome.kitchen.id := by
        rw [effect.id]
        omega
      rw [Function.update_of_ne apart]
      exact registered.unspawned id beyond
  | spawn =>
      simp only at beyond ⊢
      rw [Function.update_of_ne (by omega)]
      exact registered.unspawned id (by omega)
  | kitchen other label site spawned taken =>
      simp only at beyond ⊢
      rw [Function.update_of_ne (by omega)]
      exact registered.unspawned id beyond
  | _ => exact registered.unspawned id beyond

/-- Every step keeps the handles registered. -/
theorem Registered.step {pizzeria next : Pizzeria P} {label : PizzeriaLabel P}
    (registered : pizzeria.Registered contract)
    (moved : Transition nCooks limit pizzeria label next) : next.Registered contract := by
  have honest : ∀ id, (next.sites id).Honest contract := by
    refine forall_sites (fun _ site => site.Honest contract) moved
      (Site.honest_fresh contract) ?_ (fun _ _ taken here => here.step taken) registered.honest
    intro index operation kitchen outcome _ _ _ effect here
    exact here.of_queues effect.process effect.queues.1 effect.queues.2
  exact ⟨registered.ids_step moved, registered.spawned_step moved, honest,
    registered.unspawned_step moved⟩

/-- Every run keeps the handles registered. -/
theorem registered_of_reachable {guard : Pizzeria P → PizzeriaLabel P → Prop}
    (contract : P.Contract) {pizzeria : Pizzeria P}
    (reached : (machine P nCooks limit).ReachableUnder guard pizzeria) :
    pizzeria.Registered contract :=
  reached.invariant ⟨List.nodup_nil, nofun, fun _ => Site.honest_fresh contract, fun _ _ => rfl⟩
    fun _ registered _ taken => registered.step (transition_of_step taken)

end Pizzeria

end Plazza
