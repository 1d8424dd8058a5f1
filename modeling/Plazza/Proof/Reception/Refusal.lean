import Plazza.Proof.Reception.Closing

namespace Plazza
open Plazza.Foundation

/-- A late worker has sent its done packet and has not decremented the load yet. -/
def Position.isLate : Position → Bool
  | served _ | cooked _ => true
  | _ => false

namespace ThreadPool

variable {nCooks : Nat}

/-- The number of late workers. -/
def late (pool : ThreadPool nCooks) : Nat :=
  (Finset.univ.filter fun index => (pool.threads index).isLate).card

/-- The load counts the pizzas without a done packet and the late workers. -/
theorem Invariant.load_eq_unsent_late {pool : ThreadPool nCooks} (inv : pool.Invariant) :
    pool.load = pool.unsent + pool.late := by
  have each : ∀ position : Position, position.holding =
      (if position.owed.isSome then 1 else 0) + if position.isLate then 1 else 0 := by
    intro position
    cases position <;> rfl
  have counted := inv.load_eq
  simp only [each, Finset.sum_add_distrib, ← Finset.card_filter] at counted
  simp only [unsent, late]
  omega

end ThreadPool

namespace KitchenWorker

variable {nCooks : Nat} {limit : Option Nat}

/-- The kitchen has sent no full packet and is about to send none. -/
structure NeverFull (site : Site (KitchenWorker nCooks)) : Prop where
  sent : ∀ packet ∈ site.resultQueue.sent, packet.type ≠ .full
  accepts : ∀ packet, site.process.control ≠ .refusing packet

/-- The main thread is about to hand a pizza packet to a full pool. -/
def MeetsFull (site : Site (KitchenWorker nCooks)) : Label nCooks → Prop
  | .main _ => ∃ packet, site.process.control = .handling packet ∧ packet.isPizza = true ∧
      site.process.pool.isFull = true
  | _ => False

/-- A full packet is only sent after a refusal. -/
theorem sends_of_step {now : Nat} {site next : Site (KitchenWorker nCooks)} {label : Label nCooks}
    (valid : site.process.Valid) (taken : step limit now site label = some next) :
    next.resultQueue = site.resultQueue ∨ ∃ packet,
      next.resultQueue = site.resultQueue.send packet ∧
        (packet.type = .full → ∃ refused, site.process.control = .refusing refused) := by
  cases transition_of_step taken with
  | sendFull wake packet control => exact .inr ⟨_, rfl, fun _ => ⟨packet, control⟩⟩
  | respond wake packet rest control =>
      have informs := valid.informs
      rw [control] at informs
      refine .inr ⟨packet, rfl, fun full => ?_⟩
      rcases informs packet List.mem_cons_self with type | type <;> simp [type] at full
  | close | serve => exact .inr ⟨_, rfl, nofun⟩
  | advance | pollEmpty | pollShutdown | poll | accept | refuse | request | ignore | stop | notify
  | join | cook | consume | wakeSpuriously | regenerate => exact .inl rfl

/-- An advance neither starts nor ends at a refusal or at a packet in hand. -/
theorem Advance.not_refusing {worker next : KitchenWorker nCooks} {now : Nat}
    (moves : Advance now worker next) (packet : Packet) :
    next.control ≠ .refusing packet ∧ worker.control ≠ .handling packet := by
  cases moves with
  | wake running wakeTime control =>
      rw [control]
      cases running with
      | false => exact ⟨nofun, nofun⟩
      | true => exact ⟨nofun, nofun⟩
  | start control | accepted control | readStock _ control | readCook _ _ _ control
  | build _ _ _ _ control | responded control | sample _ control | timeOut _ _ control
  | idle _ _ control | busy _ _ control =>
      rw [control]
      exact ⟨nofun, nofun⟩

/-- A pool that accepts a pizza has room for it. -/
theorem room_of_addPizza {pool next : ThreadPool nCooks} {ticket : Ticket} {wake : Fin nCooks → Bool}
    (added : pool.addPizza ticket wake = (true, next)) : pool.isFull = false := by
  unfold ThreadPool.addPizza at added
  split at added
  · cases added
  · rename_i room
    exact Bool.eq_false_of_not_eq_true room

/-- A step of a kitchen that has refused nothing refuses exactly when it meets a full pool. -/
theorem refusing_iff {now : Nat} {site next : Site (KitchenWorker nCooks)} {label : Label nCooks}
    (accepts : ∀ packet, site.process.control ≠ .refusing packet)
    (taken : step limit now site label = some next) :
    (∃ packet, next.process.control = .refusing packet) ↔ MeetsFull site label := by
  cases transition_of_step taken with
  | advance wake process moves =>
      constructor
      · rintro ⟨packet, refusing⟩
        exact absurd refusing (moves.not_refusing packet).1
      · rintro ⟨packet, handling, _⟩
        exact absurd handling (moves.not_refusing packet).2
  | accept wake packet ticket pool control pizza same notifies added =>
      simp [MeetsFull, control, room_of_addPizza added]
  | refuse wake packet control pizza full =>
      simp [MeetsFull, control, goto, Packet.isPizza, pizza, full]
  | request wake packet control type =>
      simp [MeetsFull, control, goto, Packet.isPizza, type]
  | ignore wake packet control other => simp [MeetsFull, control, goto, Packet.isPizza, other]
  | sendFull wake packet control => exact absurd control (accepts packet)
  | pollEmpty _ control | pollShutdown _ _ _ control | poll _ _ _ control | respond _ _ _ control
  | stop _ control | notify _ control | join _ control | close _ control =>
      simp [MeetsFull, control, goto]
  | cook | consume | serve | wakeSpuriously | regenerate => simp [MeetsFull, accepts]

/-- A step keeps a kitchen without full packets as it is unless it meets a full pool. -/
theorem neverFull_step {now : Nat} {site next : Site (KitchenWorker nCooks)}
    {label : Label nCooks} (valid : site.process.Valid) (never : NeverFull site)
    (taken : step limit now site label = some next) : NeverFull next ↔ ¬ MeetsFull site label := by
  rw [← refusing_iff never.accepts taken]
  refine ⟨fun kept meets => meets.elim kept.accepts, fun accepts => ⟨?_, fun packet control =>
    accepts ⟨packet, control⟩⟩⟩
  rcases sends_of_step valid taken with same | ⟨packet, same, refused⟩
  · rw [same]
    exact never.sent
  · rw [same, Fifo.sent_send]
    intro other member full
    rcases List.mem_append.mp member with earlier | last
    · exact never.sent other earlier full
    · obtain rfl := List.mem_singleton.mp last
      obtain ⟨_, control⟩ := refused full
      exact never.accepts _ control

/-- The recorded load and the late workers fit into the capacity and the packets in flight. -/
def Fits (kitchen : KitchenHandle) (site : Site (KitchenWorker nCooks)) : Prop :=
  kitchen.load + site.process.pool.late ≤ kitchen.capacity +
    site.orderQueue.pending.countP Packet.isPizza + site.resultQueue.pending.countP Packet.isAnswer

/-- The main thread meets a full pool exactly when the recorded load and the late workers do not fit. -/
theorem isFull_iff {kitchen : KitchenHandle} {site : Site (KitchenWorker nCooks)} {packet : Packet}
    (accounts : Accounts (P := process nCooks limit) nCooks kitchen site)
    (honest : Site.Honest (contract nCooks limit) site)
    (control : site.process.control = .handling packet) (pizza : packet.isPizza = true) :
    site.process.pool.isFull = true ↔ ¬ Fits kitchen site := by
  have load := accounts.load_eq honest
  have card : ((contract nCooks limit).unanswered site.process).card =
      _ := card_unanswered site.process
  have hand : site.process.control.inHand = 1 := by simp [control, Control.inHand, pizza]
  have pool := honest.valid.pool.load_eq_unsent_late
  have capacity := accounts.capacity
  rw [ThreadPool.isFull, ThreadPool.getCapacity, decide_eq_true_iff, Fits]
  omega

end KitchenWorker

namespace Pizzeria
open KitchenWorker

variable {nCooks : Nat} {limit : Option Nat}

/-- No kitchen has answered a pizza packet with a full packet or is about to. -/
def NeverFull (pizzeria : Pizzeria (process nCooks limit)) : Prop :=
  ∀ id, KitchenWorker.NeverFull (pizzeria.sites id)

/-- A main thread only hands a pizza packet to its pool while the recorded load fits. -/
def HandsInTime (pizzeria : Pizzeria (process nCooks limit)) :
    PizzeriaLabel (process nCooks limit) → Prop
  | .kitchen id (.main _) => ∀ kitchen ∈ pizzeria.kitchens, kitchen.id = id →
      ∀ packet, (pizzeria.sites id).process.control = .handling packet → packet.isPizza = true →
        Fits kitchen (pizzeria.sites id)
  | _ => True

/-- A step meets a full pool exactly when it hands a pizza packet over too early. -/
theorem meetsFull_iff {pizzeria : Pizzeria (process nCooks limit)} {id : Nat}
    {label : Label nCooks} {site : Site (KitchenWorker nCooks)}
    (reached : (machine (process nCooks limit) nCooks limit).Reachable pizzeria)
    (spawned : id < pizzeria.nextKitchenId)
    (taken : KitchenWorker.step limit pizzeria.now (pizzeria.sites id) label = some site) :
    MeetsFull (pizzeria.sites id) label ↔ ¬ HandsInTime pizzeria (.kitchen id label) := by
  have registered := registered_of_reachable (contract nCooks limit) reached
  have balanced := balanced_of_reachable (contract nCooks limit) reached
  have closing := closing_of_reachable (contract nCooks limit) reached
  have stays := Site.exited_step (registered.honest id) taken
  obtain ⟨kitchen, member, rfl⟩ : ∃ kitchen ∈ pizzeria.kitchens, kitchen.id = id := by
    by_contra unlisted
    have left := closing.gone id spawned fun kitchen member same => unlisted ⟨kitchen, member, same⟩
    simp [stays] at left
  have accounts := balanced.accounts kitchen member
  have honest := registered.honest kitchen.id
  cases label with
  | main wake =>
      constructor
      · rintro ⟨packet, control, pizza, full⟩ fits
        exact (isFull_iff accounts honest control pizza).mp full
          (fits kitchen member rfl packet control pizza)
      · intro early
        simp only [HandsInTime] at early
        push Not at early
        obtain ⟨other, inside, same, packet, control, pizza, early⟩ := early
        have accounts := balanced.accounts other inside
        rw [same] at accounts
        exact ⟨packet, control, pizza, (isFull_iff accounts honest control pizza).mpr early⟩
  | _ => exact ⟨False.elim, fun early => early trivial⟩

/-- A step keeps every kitchen from refusing exactly when it hands no pizza packet over too early. -/
theorem neverFull_step {pizzeria next : Pizzeria (process nCooks limit)}
    {label : PizzeriaLabel (process nCooks limit)}
    (reached : (machine (process nCooks limit) nCooks limit).Reachable pizzeria)
    (never : pizzeria.NeverFull) (stepped : pizzeria.step nCooks limit label = some next) :
    next.NeverFull ↔ HandsInTime pizzeria label := by
  have registered := registered_of_reachable (contract nCooks limit) reached
  have moved := transition_of_step stepped
  clear stepped
  constructor
  · intro kept
    cases moved with
    | kitchen id label site spawned taken =>
        have here := kept id
        simp only [Function.update_self] at here
        have meets := (KitchenWorker.neverFull_step (registered.honest id).valid (never id) taken).mp here
        by_contra early
        exact meets ((meetsFull_iff reached spawned taken).mpr early)
    | _ => trivial
  · intro inTime
    refine forall_sites (fun _ site => KitchenWorker.NeverFull site) moved
      ⟨nofun, nofun⟩ ?_ ?_ never
    · intro index operation kitchen outcome _ _ _ effect here
      refine ⟨?_, ?_⟩
      · rw [effect.queues.2]
        exact here.sent
      · rw [effect.process]
        exact here.accepts
    · rintro id label site rfl spawned taken here
      refine (KitchenWorker.neverFull_step (registered.honest id).valid here taken).mpr fun meets => ?_
      exact (meetsFull_iff reached spawned taken).mp meets inTime

/-- In every run no kitchen refuses a pizza if and only if each pizza packet is handed over in time. -/
theorem visits_neverFull_iff (labels : List (PizzeriaLabel (process nCooks limit))) :
    (machine (process nCooks limit) nCooks limit).Visits NeverFull
        (initial (process nCooks limit)) labels ↔
      (machine (process nCooks limit) nCooks limit).Obeys HandsInTime
        (initial (process nCooks limit)) labels :=
  Machine.visits_iff_obeys neverFull_step labels .initial fun _ => ⟨nofun, nofun⟩

/-- Two pizzas fill a kitchen with one cook. The cook sends its first done packet, the reception
handles it and sends a third pizza, and the cook has not decremented the load yet. -/
def lateDecrementRun : List (PizzeriaLabel (process 1 none)) :=
  let acceptPizza := mainSteps 1 0 5 ++ [.elapse kPollInterval] ++ mainSteps 1 0 1
  .order [⟨.margarita, .s, 2⟩] :: receptionSteps 1 5 ++ mainSteps 1 0 1 ++ acceptPizza ++
    acceptPizza ++ cookSteps 0 onlyCook 4 ++
      .order [⟨.margarita, .s, 1⟩] :: receptionSteps 1 6 ++ mainSteps 1 0 3

/-- A kitchen with a late cook answers a pizza packet with a full packet. -/
theorem not_neverFull :
    ∃ pizzeria, (machine (process 1 none) 1 none).Reachable pizzeria ∧
      ∃ packet ∈ (pizzeria.sites 0).resultQueue.sent, packet.type = .full := by
  obtain ⟨pizzeria, reached, checked⟩ := (machine (process 1 none) 1 none).exists_reachable
    lateDecrementRun
    (fun pizzeria => (pizzeria.sites 0).resultQueue.sent.any fun packet => packet.type = .full)
    (by decide)
  obtain ⟨packet, sent, full⟩ := List.any_eq_true.mp checked
  exact ⟨pizzeria, reached, packet, sent, of_decide_eq_true full⟩

end Pizzeria

end Plazza
