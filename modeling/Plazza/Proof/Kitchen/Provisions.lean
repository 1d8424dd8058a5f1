import Plazza.Proof.Kitchen.Tickets
import Plazza.Proof.Stock.Conservation
import Plazza.Proof.Stock.Sleepers

namespace Plazza
open Plazza.Foundation

/-- The recipe of the ticket names each of its ingredients once, and the stock knows all of them. -/
def Ticket.Listed (ticket : Ticket) : Prop :=
  ∃ needed, toIngredients ticket.recipe.ingredients = some needed ∧ needed.Nodup

/-- The kitchen adds only listed tickets to its pool. -/
theorem Packet.listed_of_ticket {packet : Packet} {ticket : Ticket}
    (made : packet.ticket = some ticket) : ticket.Listed := by
  obtain ⟨_, _, created⟩ := created_of_ticket made
  exact PizzaFactory.listed_of_create created

/-- The property holds of a pizza that the label adds. -/
def PoolLabel.Adds {nCooks : Nat} (property : Ticket → Prop) : PoolLabel nCooks → Prop
  | .addPizza pizza _ => property pizza
  | _ => True

/-- The main thread adds only listed tickets. -/
theorem Control.adds_event {nCooks : Nat} {control : Control} {wake : Fin nCooks → Bool}
    {event : PoolLabel nCooks} (called : control.event wake = some event) :
    event.Adds Ticket.Listed := by
  unfold Control.event at called
  split at called
  case h_1 packet =>
      split at called
      · obtain ⟨ticket, made, rfl⟩ := Option.map_eq_some_iff.mp called
        exact Packet.listed_of_ticket made
      · cases called
  case h_2 | h_3 =>
      cases called
      trivial
  case h_4 => cases called

namespace PoolClient

variable {nCooks : Nat}

/-- What holds of each accepted pizza is kept by a step that adds a pizza that has it. -/
theorem accepted_step {property : Ticket → Prop} {client next : PoolClient nCooks}
    {label : PoolLabel nCooks} (before : ∀ ticket ∈ client.pool.accepted, property ticket)
    (added : label.Adds property) (taken : client.step label = some next) :
    ∀ ticket ∈ next.pool.accepted, property ticket := by
  cases label with
  | addPizza pizza wake =>
      simp only [PoolClient.step] at taken
      split at taken <;> cases taken
      simp only [ThreadPool.addPizza]
      split
      · exact before
      · exact List.forall_mem_append.mpr ⟨before, List.forall_mem_singleton.mpr added⟩
  | stop | notifyAll =>
      simp only [PoolClient.step] at taken
      split at taken <;> cases taken
      exact before
  | worker index =>
      obtain ⟨pool, worked, rfl⟩ := Option.map_eq_some_iff.mp taken
      cases ThreadPool.step_of_workerLoop worked <;> exact before
  | giveUp index =>
      obtain ⟨pool, gave, rfl⟩ := Option.map_eq_some_iff.mp taken
      obtain ⟨_, _, rfl⟩ := ThreadPool.giveUp_cases gave
      exact before
  | wakeSpuriously index =>
      obtain ⟨pool, woken, rfl⟩ := Option.map_eq_some_iff.mp taken
      obtain ⟨_, rfl⟩ := ThreadPool.wakeSpuriously_cases woken
      exact before

/-- What holds of each added pizza holds of each accepted one. -/
theorem accepted_of_adds {property : Ticket → Prop} {client : PoolClient nCooks}
    (reached : (machine nCooks).ReachableUnder (fun _ label => label.Adds property) client) :
    ∀ ticket ∈ client.pool.accepted, property ticket :=
  reached.invariant (motive := fun client => ∀ ticket ∈ client.pool.accepted, property ticket)
    (fun _ member => by cases member) fun _ before added taken => accepted_step before added taken

/-- A held pizza was accepted. -/
theorem accepted_of_held {pool : ThreadPool nCooks} (inv : pool.Invariant) {index : Fin nCooks}
    {ticket : Ticket} (held : (pool.threads index).held = some ticket) : ticket ∈ pool.accepted := by
  have handed : (index, ticket) ∈ pool.handed.filter (·.1 = index) := by
    rw [inv.holds index, held]
    exact List.mem_append_right _ (by simp)
  rw [inv.order]
  exact List.mem_append_left _ (List.mem_map_of_mem (List.mem_filter.mp handed).1)

end PoolClient

namespace Kitchen

variable {nCooks : Nat} {limit : Option Nat}

/-- Every pizza of the pool has a recipe that the stock can serve. -/
theorem listed_of_reachable {kitchen : Kitchen nCooks}
    (reached : (machine nCooks limit).Reachable kitchen) :
    ∀ ticket ∈ kitchen.site.process.pool.accepted, ticket.Listed := by
  refine PoolClient.accepted_of_adds <| (refines_poolClient nCooks limit).reachable
    (fun {kitchen label event} _ observed => ?_) reached
  cases label with
  | process label =>
      cases label with
      | main wake => exact Control.adds_event observed
      | cook index | wakeSpuriously index =>
          cases observed
          trivial
      | regenerate => cases observed
  | deliver | collect | elapse => cases observed

/-- The stock keeps a key for every ingredient, also in the copy that a response reads. -/
structure Stocked (worker : KitchenWorker nCooks) : Prop where
  keys : ∀ ingredient, (worker.stock ingredient).isSome
  fits : ∀ ingredient units, worker.stock ingredient = some units → units < 2 ^ 64
  copied : ∀ load stock statuses, worker.control = .readingCooks load stock statuses →
    ∀ ingredient, (stock ingredient).isSome

/-- A step that leaves the stock and reads no copy keeps the stock as it is. -/
theorem Stocked.keep {worker next : KitchenWorker nCooks} (stocked : Stocked worker)
    (same : next.stock = worker.stock)
    (copied : ∀ load stock statuses, next.control ≠ .readingCooks load stock statuses) :
    Stocked next where
  keys := same ▸ stocked.keys
  fits := same ▸ stocked.fits
  copied load stock statuses reads := absurd reads (copied load stock statuses)

/-- Each transition keeps the keys of the stock. -/
theorem Stocked.step {now : Nat} {site next : Site (KitchenWorker nCooks)}
    {label : KitchenWorker.Label nCooks} (stocked : Stocked site.process)
    (moved : KitchenWorker.Transition limit now site label next) : Stocked next.process := by
  cases moved with
  | advance wake process moves =>
      cases moves with
      | readStock load control =>
          refine ⟨stocked.keys, stocked.fits, ?_⟩
          rintro _ _ _ ⟨⟩
          exact stocked.keys
      | readCook load stock statuses control more =>
          refine ⟨stocked.keys, stocked.fits, ?_⟩
          rintro _ _ _ ⟨⟩
          exact stocked.copied load stock statuses control
      | wake running => exact stocked.keep rfl (by cases running <;> simp [KitchenWorker.goto])
      | start | accepted | build | responded | sample | timeOut | idle | busy =>
          exact stocked.keep rfl (by simp [KitchenWorker.goto])
  | pollEmpty | pollShutdown | poll | accept | refuse | request | ignore | sendFull | respond | stop
  | notify | join | close => exact stocked.keep rfl (by simp [KitchenWorker.goto])
  | cook | serve | wakeSpuriously => exact ⟨stocked.keys, stocked.fits, stocked.copied⟩
  | consume index ticket pool needed position worked listed available =>
      refine ⟨fun ingredient => ?_, Stock.consume_fits stocked.fits needed, stocked.copied⟩
      rw [Stock.isSome_consume fun other _ => stocked.keys other]
      exact stocked.keys ingredient
  | regenerate =>
      refine ⟨fun ingredient => ?_, Stock.regenerate_fits _, stocked.copied⟩
      simpa [Stock.regenerate] using stocked.keys ingredient

theorem stocked_of_reachable {kitchen : Kitchen nCooks}
    (reached : (machine nCooks limit).Reachable kitchen) : Stocked kitchen.site.process := by
  refine reached.invariant (motive := fun kitchen => Stocked kitchen.site.process) ?_ ?_
  · exact ⟨Stock.isSome_initial 5, Stock.initial_fits (by decide), nofun⟩
  · intro kitchen next label _ stocked _ taken
    rcases step_cases taken with ⟨moved, site, _, rfl, stepped⟩ | ⟨_, same, _⟩
    · exact stocked.step stepped
    · exact same ▸ stocked

end Kitchen

end Plazza
