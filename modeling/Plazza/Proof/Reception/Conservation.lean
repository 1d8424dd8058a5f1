import Plazza.Proof.Kitchen.Worker
import Plazza.Proof.Reception.Frames

namespace Plazza
open Plazza.Foundation

/-- The number of tags is the number of selected packets. -/
@[simp] theorem card_tags (select : Packet → Bool) (packets : List Packet) :
    (tags select packets).card = packets.countP select := by
  simp [tags, List.countP_eq_length_filter]

/-- The handle counts the pizza packets without a handled answer and keeps the common capacity. -/
structure Accounts {P : KitchenProcess} (nCooks : Nat) (kitchen : KitchenHandle)
    (site : Site P.State) : Prop where
  balance : kitchen.load + site.resultQueue.received.countP Packet.isAnswer =
    site.orderQueue.sent.countP Packet.isPizza
  capacity : kitchen.capacity = 2 * nCooks % 2 ^ 64
  bounded : kitchen.load ≤ max 1 kitchen.capacity
  dead : kitchen.alive = false → P.exited site.process = true

namespace Accounts

variable {P : KitchenProcess} {nCooks : Nat} {contract : P.Contract}

theorem fresh (nCooks id : Nat) :
    Accounts (P := P) nCooks (KitchenHandle.new id nCooks) (Site.fresh P.initial) where
  balance := rfl
  capacity := rfl
  bounded := Nat.zero_le _
  dead := nofun

/-- The recorded load counts the pending, the unanswered and the pending answered pizzas. -/
theorem load_eq {kitchen : KitchenHandle} {site : Site P.State}
    (accounts : Accounts nCooks kitchen site) (honest : site.Honest contract) :
    kitchen.load = site.orderQueue.pending.countP Packet.isPizza +
      (contract.unanswered site.process).card + site.resultQueue.pending.countP Packet.isAnswer := by
  have account := congrArg Multiset.card honest.account
  simp only [Multiset.card_add, card_tags] at account
  have balance := accounts.balance
  omega

/-- A pending answer counts in the recorded load. -/
theorem load_pos {kitchen : KitchenHandle} {site : Site P.State} {packet : Packet}
    (accounts : Accounts nCooks kitchen site) (honest : site.Honest contract)
    (pending : packet ∈ site.resultQueue.pending) (answers : packet.isAnswer = true) :
    0 < kitchen.load := by
  have counted : 0 < site.resultQueue.pending.countP Packet.isAnswer :=
    List.countP_pos_iff.mpr ⟨packet, pending, answers⟩
  have load := accounts.load_eq honest
  omega

/-- A kitchen step changes none of the accounts. -/
theorem step {kitchen : KitchenHandle} {site next : Site P.State} {now : Nat} {label : P.Label}
    (accounts : Accounts nCooks kitchen site) (honest : site.Honest contract)
    (taken : P.step now site label = some next) : Accounts nCooks kitchen next := by
  obtain ⟨orders, results⟩ := Site.frame_step honest taken
  have stays := Site.exited_step honest taken
  refine ⟨?_, accounts.capacity, accounts.bounded, fun dead => ?_⟩
  · rw [orders, results]
    exact accounts.balance
  · have left := accounts.dead dead
    simp [stays] at left

/-- A reception operation keeps the accounts when its send stays within the bound. -/
theorem apply {kitchen : KitchenHandle} {site : Site P.State} {operation : Operation}
    {outcome : Outcome P.State} (accounts : Accounts nCooks kitchen site)
    (honest : site.Honest contract) (effect : operation.Effect kitchen site outcome)
    (room : ∀ pizza origin, operation = .send pizza origin → kitchen.load < max 1 kitchen.capacity) :
    Accounts nCooks outcome.kitchen outcome.site := by
  have balance := accounts.balance
  cases effect with
  | handle packet resultQueue next report received exits handled =>
      obtain ⟨head, history⟩ := Fifo.receive_eq_some_iff.mp received
      have bounded := accounts.bounded
      by_cases answers : packet.isAnswer = true
      · have positive := accounts.load_pos honest (by rw [head]; simp) answers
        have load : next.load = kitchen.load - 1 := by
          rw [handled.load, if_pos answers]
          exact if_pos positive
        have shutdown : packet.type ≠ .shutdown := fun type => by
          simp [Packet.isAnswer, type] at answers
        refine ⟨?_, handled.capacity.trans accounts.capacity, ?_, fun dead => accounts.dead ?_⟩
        · simp only [history, List.countP_append, List.countP_singleton, answers, if_true]
          omega
        · rw [handled.capacity, load]
          omega
        · simpa [handled.alive, shutdown] using dead
      · have load : next.load = kitchen.load := by rw [handled.load, if_neg answers]
        refine ⟨?_, handled.capacity.trans accounts.capacity, ?_, fun dead => ?_⟩
        · simp only [history, List.countP_append, List.countP_singleton, answers, load]
          exact balance
        · rw [handled.capacity, load]
          exact bounded
        · by_cases shutdown : packet.type = .shutdown
          · exact exits shutdown
          · exact accounts.dead (by simpa [handled.alive, shutdown] using dead)
  | send pizza origin =>
      refine ⟨?_, accounts.capacity, room pizza origin rfl, accounts.dead⟩
      simp only [Fifo.sent_send, List.countP_append, List.countP_singleton, Packet.isPizza,
        decide_true, if_true]
      omega
  | request =>
      refine ⟨?_, accounts.capacity, accounts.bounded, accounts.dead⟩
      simpa [Packet.isPizza] using balance
  | close =>
      refine ⟨?_, accounts.capacity, accounts.bounded, accounts.dead⟩
      simpa [Packet.isPizza] using balance
  | reap exits => exact ⟨balance, accounts.capacity, accounts.bounded, fun _ => exits⟩

end Accounts

namespace Pizzeria

variable {P : KitchenProcess} {nCooks : Nat} {limit : Option Nat} {contract : P.Contract}

/-- Every handle keeps its accounts and a kitchen just spawned has no load. -/
structure Balanced (nCooks : Nat) (pizzeria : Pizzeria P) : Prop where
  accounts : ∀ kitchen ∈ pizzeria.kitchens, Accounts nCooks kitchen (pizzeria.sites kitchen.id)
  spawned : ∀ todo origin, pizzeria.call = .dispatching todo origin true →
    ∀ kitchen, pizzeria.kitchens[pizzeria.kitchens.length - 1]? = some kitchen → kitchen.load = 0

/-- The spawned flag is only set with a new kitchen. -/
theorem next_spawned {pizzeria : Pizzeria P} {action : Action} {todo : List Pizza} {origin : Int}
    (chosen : pizzeria.next = some (action, .dispatching todo origin true)) : action = .spawn := by
  unfold next at chosen
  repeat' split at chosen
  all_goals cases chosen
  rfl

/-- A pizza goes to the kitchen just spawned or to the kitchen that the scan has chosen. -/
theorem next_send {pizzeria : Pizzeria P} {index : Nat} {pizza : Pizza} {origin : Int} {call : Call}
    (chosen : pizzeria.next = some (.apply index (.send pizza origin), call)) :
    ∃ rest, call = .dispatching rest origin false ∧
      (pizzeria.call = .dispatching (pizza :: rest) origin true ∧
          index = pizzeria.kitchens.length - 1 ∨
        pizzeria.call = .dispatching (pizza :: rest) origin false ∧
          bestKitchen pizzeria.kitchens = some index) := by
  unfold next at chosen
  repeat' split at chosen
  all_goals cases chosen
  · exact ⟨_, rfl, .inl ⟨‹_›, rfl⟩⟩
  · exact ⟨_, rfl, .inr ⟨‹_›, ‹_›⟩⟩

/-- Every step of the reception and of the kitchens keeps the accounts. -/
theorem Balanced.step {pizzeria next : Pizzeria P} {label : PizzeriaLabel P}
    (balanced : pizzeria.Balanced nCooks) (registered : pizzeria.Registered contract)
    (moved : Transition nCooks limit pizzeria label next) : next.Balanced nCooks := by
  refine ⟨?_, ?_⟩
  · refine forall_kitchens _ registered moved (Accounts.fresh _ _) ?_ ?_ balanced.accounts
    · intro index operation kitchen outcome _ chosen found effect here
      refine here.apply (registered.honest _) effect fun pizza origin same => ?_
      subst same
      obtain ⟨rest, _, ⟨call, rfl⟩ | ⟨_, best⟩⟩ := next_send chosen
      · have empty := balanced.spawned _ _ call kitchen found
        omega
      · obtain ⟨chosen, here, ⟨_, room⟩, _⟩ := bestKitchen_spec best
        obtain rfl := Option.some.inj (found.symm.trans here)
        omega
    · intro kitchen label site _ _ taken here
      exact here.step (registered.honest _) taken
  · intro todo origin call kitchen last
    cases moved with
    | order | status | poll | close => cases call
    | skip _ chosen | apply _ _ _ _ _ chosen | erase _ chosen | report _ _ chosen | destroy _ chosen =>
        subst call
        cases next_spawned chosen
    | spawn =>
        obtain rfl : KitchenHandle.new pizzeria.nextKitchenId nCooks = kitchen := by simpa using last
        rfl
    | kitchen | elapse => exact balanced.spawned todo origin call kitchen last

/-- Every run keeps the accounts. -/
theorem balanced_of_reachable (contract : P.Contract)
    {guard : Pizzeria P → PizzeriaLabel P → Prop} {pizzeria : Pizzeria P}
    (reached : (machine P nCooks limit).ReachableUnder guard pizzeria) :
    pizzeria.Balanced nCooks :=
  reached.invariant ⟨nofun, nofun⟩ fun before balanced _ taken =>
    balanced.step (registered_of_reachable contract before) (transition_of_step taken)

end Pizzeria

/-- The main thread holds a pizza packet that the pool has not answered or whose refusal is unsent. -/
def Control.inHand : Control → Nat
  | handling packet => if packet.isPizza then 1 else 0
  | refusing _ => 1
  | _ => 0

/-- An accepted pizza without a done packet is queued or with a worker that owes the packet. -/
def ThreadPool.unsent {nCooks : Nat} (pool : ThreadPool nCooks) : Nat :=
  pool.queue.length + (Finset.univ.filter fun index => (pool.threads index).owed.isSome).card

namespace KitchenWorker

variable {nCooks : Nat} {limit : Option Nat}

/-- A kitchen owes one answer for the packet in hand and one for each pizza without a done packet. -/
theorem card_unanswered (worker : KitchenWorker nCooks) :
    worker.unanswered.card = worker.control.inHand + worker.pool.unsent := by
  have hand : worker.control.hand.card = worker.control.inHand := by
    cases worker.control with
    | handling packet =>
        simp only [Control.hand, Control.inHand, card_tags, List.countP_singleton]
    | _ => rfl
  have owes : worker.pool.owes.card = worker.pool.unsent := by
    have each : ∀ position : Position, position.owes.card = if position.owed.isSome then 1 else 0 := by
      intro position
      rw [Position.owes]
      cases position.owed <;> rfl
    rw [ThreadPool.owes, ThreadPool.unsent, Multiset.card_add, Multiset.coe_card, List.length_map,
      Multiset.card_sum, Finset.card_filter]
    simp only [each]
  rw [unanswered, Multiset.card_add, hand, owes]

/-- The recorded load of a kitchen counts each of its pizzas once and never exceeds twice its cooks. -/
structure LoadConservation (kitchen : KitchenHandle) (site : Site (KitchenWorker nCooks)) : Prop where
  load_eq : kitchen.load = site.orderQueue.pending.countP Packet.isPizza +
    site.process.control.inHand + site.process.pool.unsent +
      site.resultQueue.pending.countP Packet.isAnswer
  load_le : kitchen.load ≤ 2 * nCooks
  guarded : ∀ packet resultQueue, site.resultQueue.receive = some (packet, resultQueue) →
    packet.isAnswer = true → 0 < kitchen.load

/-- Every reachable state conserves the load of each kitchen. -/
theorem loadConservation_of_reachable {pizzeria : Pizzeria (process nCooks limit)}
    (positive : 0 < nCooks)
    (reached : (Pizzeria.machine (process nCooks limit) nCooks limit).Reachable pizzeria) :
    ∀ kitchen ∈ pizzeria.kitchens, LoadConservation kitchen (pizzeria.sites kitchen.id) := by
  intro kitchen member
  have registered := Pizzeria.registered_of_reachable (contract nCooks limit) reached
  have accounts := (Pizzeria.balanced_of_reachable (contract nCooks limit) reached).accounts
    kitchen member
  have honest := registered.honest kitchen.id
  refine ⟨?_, ?_, ?_⟩
  · have load := accounts.load_eq honest
    have card : ((contract nCooks limit).unanswered (pizzeria.sites kitchen.id).process).card =
        _ := card_unanswered (pizzeria.sites kitchen.id).process
    omega
  · have bounded := accounts.bounded
    rw [accounts.capacity] at bounded
    have small := Nat.mod_le (2 * nCooks) (2 ^ 64)
    omega
  · intro packet resultQueue received answers
    obtain ⟨head, _⟩ := Fifo.receive_eq_some_iff.mp received
    exact accounts.load_pos honest (by rw [head]; simp) answers

/-- The reception takes some statements of its call. -/
def receptionSteps (nCooks count : Nat) : List (PizzeriaLabel (process nCooks none)) :=
  List.replicate count .reception

/-- The main thread of a kitchen takes some steps and wakes no cook. -/
def mainSteps (nCooks id count : Nat) : List (PizzeriaLabel (process nCooks none)) :=
  List.replicate count (.kitchen id (.main fun _ => false))

/-- A cook of a kitchen takes some steps. -/
def cookSteps {nCooks : Nat} (id : Nat) (index : Fin nCooks) (count : Nat) :
    List (PizzeriaLabel (process nCooks none)) :=
  List.replicate count (.kitchen id (.cook index))

def onlyCook : Fin 1 := 0

/-- The first steps send one pizza to a new kitchen, whose main thread receives it. -/
def receivedRun : List (PizzeriaLabel (process 1 none)) :=
  .order [⟨.margarita, .s, 1⟩] :: receptionSteps 1 3 ++ mainSteps 1 0 2

/-- The reachable states include one where the main thread holds the only pizza. -/
theorem loadConservation_in_hand :
    ∃ pizzeria, (Pizzeria.machine (process 1 none) 1 none).Reachable pizzeria ∧
      pizzeria.kitchens.length = 1 ∧
      ∀ kitchen ∈ pizzeria.kitchens, LoadConservation kitchen (pizzeria.sites kitchen.id) := by
  obtain ⟨pizzeria, reached, checked⟩ := (Pizzeria.machine (process 1 none) 1 none).exists_reachable
    receivedRun (fun pizzeria => pizzeria.kitchens.length = 1) (by decide)
  exact ⟨pizzeria, reached, of_decide_eq_true checked,
    loadConservation_of_reachable (by decide) reached⟩

/-- The queues and the pool alone miss the pizza in the hand of the main thread. -/
theorem load_ne_queues_and_pool :
    ∃ pizzeria, (Pizzeria.machine (process 1 none) 1 none).Reachable pizzeria ∧
      ∃ kitchen ∈ pizzeria.kitchens, kitchen.load ≠
        (pizzeria.sites kitchen.id).orderQueue.pending.countP Packet.isPizza +
          (pizzeria.sites kitchen.id).process.pool.unsent +
            (pizzeria.sites kitchen.id).resultQueue.pending.countP Packet.isAnswer := by
  obtain ⟨pizzeria, reached, checked⟩ := (Pizzeria.machine (process 1 none) 1 none).exists_reachable
    receivedRun (fun pizzeria => pizzeria.kitchens.any fun kitchen => decide (kitchen.load ≠
      (pizzeria.sites kitchen.id).orderQueue.pending.countP Packet.isPizza +
        (pizzeria.sites kitchen.id).process.pool.unsent +
          (pizzeria.sites kitchen.id).resultQueue.pending.countP Packet.isAnswer)) (by decide)
  obtain ⟨kitchen, member, differs⟩ := List.any_eq_true.mp checked
  exact ⟨pizzeria, reached, kitchen, member, of_decide_eq_true differs⟩

end KitchenWorker

end Plazza
