import Plazza.Proof.Reception.Books
import Plazza.Proof.Reception.Closing

namespace Plazza
open Plazza.Foundation

/-- The pizzas of the done packets in their order. -/
def donePizzas (packets : List Packet) : List PackedPizza :=
  (packets.filter Packet.isDone).map Packet.pizza

/-- The pizzas that the log records for one kitchen in their order. -/
def loggedPizzas (log : List DoneReport) (id : Nat) : List PackedPizza :=
  (log.filter fun line => line.kitchenId = id).map DoneReport.packed

@[simp] theorem donePizzas_append (first second : List Packet) :
    donePizzas (first ++ second) = donePizzas first ++ donePizzas second := by
  simp [donePizzas]

@[simp] theorem loggedPizzas_append (first second : List DoneReport) (id : Nat) :
    loggedPizzas (first ++ second) id = loggedPizzas first id ++ loggedPizzas second id := by
  simp [loggedPizzas]

/-- A handled packet is logged exactly when it is a done packet. -/
theorem Handled.logged {kitchen next : KitchenHandle} {packet : Packet} {report : Option DoneReport}
    (handled : Handled kitchen packet next report) (id : Nat) :
    loggedPizzas report.toList id = if kitchen.id = id then donePizzas [packet] else [] := by
  by_cases done : packet.type = .done
  · obtain ⟨line, rfl, kitchenId, packed⟩ := handled.done done
    by_cases same : kitchen.id = id
    · simp [loggedPizzas, donePizzas, Packet.isDone, done, kitchenId, packed, same]
    · simp [loggedPizzas, kitchenId, same]
  · rw [handled.silent done]
    simp [loggedPizzas, donePizzas, Packet.isDone, done]

namespace Pizzeria

variable {P : KitchenProcess} {nCooks : Nat} {limit : Option Nat} {contract : P.Contract}

/-- The log of every kitchen lists the done packets that the reception has received from it. -/
def Logged (pizzeria : Pizzeria P) : Prop :=
  ∀ id, loggedPizzas pizzeria.log id = donePizzas (pizzeria.sites id).resultQueue.received

/-- Every step logs each done packet that it receives. -/
theorem Logged.step {pizzeria next : Pizzeria P} {label : PizzeriaLabel P}
    (logged : pizzeria.Logged) (registered : pizzeria.Registered contract)
    (moved : Transition nCooks limit pizzeria label next) : next.Logged := by
  intro id
  cases moved with
  | apply index operation call kitchen outcome chosen found effect =>
      simp only [touch, log_record, sites_record]
      have same := effect.id
      cases effect with
      | handle packet resultQueue handle report received exits handled =>
          simp only at same
          obtain ⟨_, history⟩ := Fifo.receive_eq_some_iff.mp received
          rw [loggedPizzas_append, handled.logged, logged id]
          by_cases here : kitchen.id = id
          · subst here
            rw [if_pos rfl, same, Function.update_self]
            simp only [history, donePizzas_append]
          · rw [if_neg here, same, Function.update_of_ne fun equal => here equal.symm, List.append_nil]
      | send | request | close | reap =>
          simp only [Option.toList_none, List.append_nil]
          by_cases here : id = kitchen.id
          · subst here
            rw [Function.update_self]
            exact logged kitchen.id
          · rw [Function.update_of_ne here]
            exact logged id
  | spawn =>
      by_cases here : id = pizzeria.nextKitchenId
      · subst here
        simp only [Function.update_self]
        rw [logged, registered.unspawned _ le_rfl]
      · simp only [Function.update_of_ne here]
        exact logged id
  | kitchen other label site spawned taken =>
      by_cases here : id = other
      · subst here
        simp only [Function.update_self]
        rw [(Site.frame_step (registered.honest id) taken).2]
        exact logged id
      · simp only [Function.update_of_ne here]
        exact logged id
  | _ => exact logged id

/-- Every run logs each done packet that it receives. -/
theorem logged_of_reachable (contract : P.Contract)
    {guard : Pizzeria P → PizzeriaLabel P → Prop} {pizzeria : Pizzeria P}
    (reached : (machine P nCooks limit).ReachableUnder guard pizzeria) : pizzeria.Logged :=
  reached.invariant (fun _ => rfl) fun before logged _ taken =>
    logged.step (registered_of_reachable contract before) (transition_of_step taken)

/-- The wait for a process returns only when the result queue holds no selected packet. -/
def reapsDrained (select : Packet → Bool) (pizzeria : Pizzeria P) : PizzeriaLabel P → Bool
  | .reception =>
      match pizzeria.next with
      | some (.apply index .reap, _) => pizzeria.kitchens[index]?.all fun kitchen =>
          ((pizzeria.sites kitchen.id).resultQueue.pending.filter select).isEmpty
      | _ => true
  | _ => true

/-- No selected packet waits for a kitchen that is dead or gone. -/
structure Drained (select : Packet → Bool) (pizzeria : Pizzeria P) : Prop where
  dead : ∀ kitchen ∈ pizzeria.kitchens, kitchen.alive = false →
    (pizzeria.sites kitchen.id).resultQueue.pending.filter select = []
  gone : ∀ id < pizzeria.nextKitchenId, (∀ kitchen ∈ pizzeria.kitchens, kitchen.id ≠ id) →
    (pizzeria.sites id).resultQueue.pending.filter select = []

/-- A step that reaps a drained kitchen keeps the dead kitchens drained. -/
theorem Drained.step {select : Packet → Bool} {pizzeria next : Pizzeria P}
    {label : PizzeriaLabel P} (drained : pizzeria.Drained select)
    (registered : pizzeria.Registered contract) (balanced : pizzeria.Balanced nCooks)
    (closing : pizzeria.Closing) (reaps : reapsDrained select pizzeria label = true)
    (moved : Transition nCooks limit pizzeria label next) : next.Drained select := by
  refine ⟨?_, closing.forall_gone
    (fun site => site.resultQueue.pending.filter select = []) registered moved
    drained.dead drained.gone⟩
  refine forall_kitchens (fun kitchen site => kitchen.alive = false →
    site.resultQueue.pending.filter select = []) registered moved nofun ?_ ?_ drained.dead
  · rintro index operation kitchen outcome rfl chosen found effect here dead
    cases effect with
    | handle packet resultQueue handle report received exits handled =>
        by_cases shutdown : packet.type = .shutdown
        · simp only [((registered.honest kitchen.id).pending_of_shutdown received shutdown).2]
          rfl
        · obtain ⟨head, _⟩ := Fifo.receive_eq_some_iff.mp received
          have before := here (by simpa [handled.alive, shutdown] using dead)
          rw [head, ← List.singleton_append, List.filter_append] at before
          exact (List.append_eq_nil_iff.mp before).2
    | send | request | close => exact here dead
    | reap => simpa [reapsDrained, chosen, found] using reaps
  · intro kitchen label site _ member taken _ dead
    have left := (balanced.accounts kitchen member).dead dead
    simp [Site.exited_step (registered.honest kitchen.id) taken] at left

/-- Every run that reaps drained kitchens leaves nothing behind. -/
theorem drained_of_reachable (contract : P.Contract) {select : Packet → Bool}
    {pizzeria : Pizzeria P} (reached : (machine P nCooks limit).ReachableUnder
      (fun pizzeria label => reapsDrained select pizzeria label) pizzeria) :
    pizzeria.Drained select :=
  reached.invariant ⟨nofun, nofun⟩ fun before drained reaps taken =>
    drained.step (registered_of_reachable contract before) (balanced_of_reachable contract before)
      (closing_of_reachable contract before) reaps (transition_of_step taken)

/-- Until the shutdown of the reception every run reaps drained kitchens, for it reaps none. -/
theorem reapsDrained_of_open {guard : Pizzeria P → PizzeriaLabel P → Prop}
    (select : Packet → Bool) {pizzeria : Pizzeria P}
    (reached : (machine P nCooks limit).ReachableUnder guard pizzeria) :
    pizzeria.call.ending = false → (machine P nCooks limit).ReachableUnder
      (fun pizzeria label => reapsDrained select pizzeria label) pizzeria := by
  induction reached with
  | initial => exact fun _ => .initial
  | @step state next label before _ taken ih =>
      intro open'
      have earlier : state.call.ending = false := by
        by_contra ending
        simp [ending_of_step (transition_of_step taken) (by simpa using ending)] at open'
      refine .step (ih earlier) ?_ taken
      unfold reapsDrained
      split
      · split
        · rename_i index call chosen
          simp [(next_ending chosen).2 index (.inr rfl)] at earlier
        · rfl
      · rfl

/-- The log holds each done packet of a destroyed result queue once and in its order. -/
def Recorded (pizzeria : Pizzeria P) : Prop :=
  ∀ id < pizzeria.nextKitchenId, (∀ kitchen ∈ pizzeria.kitchens, kitchen.id ≠ id) →
    loggedPizzas pizzeria.log id = donePizzas (pizzeria.sites id).resultQueue.sent

/-- Every run that reaps kitchens without pending done packets records each pizza exactly once. -/
theorem recorded_of_reachable (contract : P.Contract) {pizzeria : Pizzeria P}
    (reached : (machine P nCooks limit).ReachableUnder
      (fun pizzeria label => reapsDrained Packet.isDone pizzeria label) pizzeria) :
    pizzeria.Recorded := by
  intro id spawned unlisted
  have drained := (drained_of_reachable contract reached).gone id spawned unlisted
  have nothing : donePizzas (pizzeria.sites id).resultQueue.pending = [] := by
    rw [donePizzas, drained, List.map_nil]
  rw [logged_of_reachable contract reached id, Fifo.sent, donePizzas_append, nothing,
    List.append_nil]

open KitchenWorker

/-- A kitchen with one cook answers one pizza packet and its cook waits again. -/
def cookedRun : List (PizzeriaLabel (process 1 none)) :=
  .order [⟨.margarita, .s, 1⟩] :: receptionSteps 1 4 ++ mainSteps 1 0 6 ++ cookSteps 0 onlyCook 7

/-- The reception sends a shutdown packet, the kitchen exits and its handle is destroyed. -/
def shutdownRun : List (PizzeriaLabel (process 1 none)) :=
  .close :: receptionSteps 1 1 ++ .elapse kPollInterval :: mainSteps 1 0 4 ++
    .elapse kPollInterval :: mainSteps 1 0 3 ++ cookSteps 0 onlyCook 1 ++ mainSteps 1 0 2 ++
      receptionSteps 1 2

/-- A poll before the shutdown records the only pizza. -/
theorem recorded_after_poll :
    ∃ pizzeria, (machine (process 1 none) 1 none).ReachableUnder
        (fun pizzeria label => reapsDrained Packet.isDone pizzeria label) pizzeria ∧
      (pizzeria.call = .destroyed ∧ pizzeria.log.length = 1) ∧ Recorded pizzeria := by
  obtain ⟨pizzeria, reached, checked⟩ :=
    (machine (process 1 none) 1 none).exists_reachableUnder (reapsDrained Packet.isDone)
      (cookedRun ++ .poll :: receptionSteps 1 5 ++ shutdownRun)
      (fun pizzeria => pizzeria.call = .destroyed ∧ pizzeria.log.length = 1) (by decide)
  exact ⟨pizzeria, reached, of_decide_eq_true checked,
    recorded_of_reachable (contract 1 none) reached⟩

/-- A shutdown without the poll destroys the result queue before the done packet is read. -/
theorem not_recorded :
    ∃ pizzeria, (machine (process 1 none) 1 none).Reachable pizzeria ∧ ¬ Recorded pizzeria := by
  obtain ⟨pizzeria, reached, checked⟩ := (machine (process 1 none) 1 none).exists_reachable
    (cookedRun ++ shutdownRun)
    (fun pizzeria => pizzeria.nextKitchenId = 1 ∧ pizzeria.kitchens.isEmpty = true ∧
      loggedPizzas pizzeria.log 0 ≠ donePizzas (pizzeria.sites 0).resultQueue.sent) (by decide)
  obtain ⟨spawned, none', differs⟩ := of_decide_eq_true checked
  refine ⟨pizzeria, reached, fun recorded => differs (recorded 0 (by omega) ?_)⟩
  rw [List.isEmpty_iff.mp none']
  nofun

end Pizzeria

end Plazza
