import Plazza.Proof.Reception.Closing

namespace Plazza
open Plazza.Foundation

/-- The main thread has decided to leave its loop. -/
def Control.leaving : Control → Bool
  | sampling running | checking running _ | sleeping running _ => !running
  | stopping | notifying | joining | closing | exited => true
  | _ => false

/-- No pizza packet of the list follows a shutdown packet. -/
def PizzasFirst (packets : List Packet) : Prop :=
  packets.Pairwise fun earlier later => earlier.type = .shutdown → later.isPizza = false

theorem PizzasFirst.append {packets : List Packet} {packet : Packet} (first : PizzasFirst packets)
    (last : packet.isPizza = true → ∀ earlier ∈ packets, earlier.type ≠ .shutdown) :
    PizzasFirst (packets ++ [packet]) := by
  refine List.pairwise_append.mpr ⟨first, List.pairwise_singleton _ _, ?_⟩
  intro earlier member other same shutdown
  obtain rfl := List.mem_singleton.mp same
  by_contra pizza
  exact last (by simpa using pizza) earlier member shutdown

namespace KitchenWorker

variable {nCooks : Nat} {limit : Option Nat}

/-- The order queue holds no pizza packet. -/
def NoPizzaPending {State : Type} (site : Site State) : Prop :=
  ∀ packet ∈ site.orderQueue.pending, packet.isPizza = false

instance {State : Type} (site : Site State) : Decidable (NoPizzaPending site) :=
  inferInstanceAs (Decidable (∀ packet ∈ site.orderQueue.pending, packet.isPizza = false))

/-- The main thread is about to leave because of its idle timeout. -/
def timesOut (site : Site (KitchenWorker nCooks)) : Label nCooks → Bool
  | .main _ =>
      match site.process.control with
      | .checking true sampled =>
          site.process.isIdle && decide (site.process.lastActiveTime + kIdleTimeout ≤ sampled)
      | _ => false
  | _ => false

/-- An advance starts to leave only with the idle timeout. -/
theorem Advance.leaving {worker next : KitchenWorker nCooks} {now : Nat}
    (moves : Advance now worker next) (leaving : next.control.leaving = true) :
    worker.control.leaving = true ∨ ∃ sampled, worker.control = .checking true sampled ∧
      worker.isIdle = true ∧ worker.lastActiveTime + kIdleTimeout ≤ sampled := by
  cases moves with
  | sample running control =>
      rw [control]
      exact .inl leaving
  | timeOut running sampled control idle elapsed =>
      cases running with
      | false => exact .inl (by rw [control]; rfl)
      | true => exact .inr ⟨sampled, control, idle, elapsed⟩
  | idle running sampled control | busy running sampled control =>
      rw [control]
      exact .inl leaving
  | wake running wakeTime control =>
      cases running with
      | false => exact .inl (by rw [control]; rfl)
      | true => cases leaving
  | start | accepted | readStock | readCook | build | responded => cases leaving

/-- A main thread starts to leave with a shutdown packet or with its idle timeout. -/
theorem leaving_of_step {now : Nat} {site next : Site (KitchenWorker nCooks)}
    {label : Label nCooks} (taken : step limit now site label = some next)
    (leaving : next.process.control.leaving = true) :
    site.process.control.leaving = true ∨
      (∃ packet, site.orderQueue.receive = some (packet, next.orderQueue) ∧
        packet.type = .shutdown) ∨
      timesOut site label = true ∧ next.orderQueue = site.orderQueue := by
  cases transition_of_step taken with
  | advance wake process moves =>
      rcases moves.leaving leaving with before | ⟨sampled, control, idle, elapsed⟩
      · exact .inl before
      · exact .inr (.inr ⟨by simp [timesOut, control, idle, elapsed], rfl⟩)
  | pollShutdown wake packet orderQueue control received shutdown =>
      exact .inr (.inl ⟨packet, received, shutdown⟩)
  | stop wake control | notify wake control | join wake control | close wake control =>
      exact .inl (by rw [control]; rfl)
  | pollEmpty | poll | accept | refuse | request | ignore | sendFull | respond => cases leaving
  | cook | consume | serve | wakeSpuriously | regenerate => exact .inl leaving

/-- A kitchen that leaves without a pending pizza has answered every pizza packet. -/
theorem answered_of_leaving {site : Site (KitchenWorker nCooks)}
    (honest : Site.Honest (contract nCooks limit) site)
    (quiet : site.process.control.leaving = true → NoPizzaPending site) {packet : Packet}
    (received : packet ∈ site.resultQueue.received) (shutdown : packet.type = .shutdown) :
    NoPizzaPending site ∧ ∃ earlier, site.resultQueue.sent = earlier ++ [{ type := .shutdown }] ∧
      (∀ packet ∈ earlier, packet.type ≠ .shutdown) ∧
      tags Packet.isPizza site.orderQueue.sent = tags Packet.isAnswer earlier := by
  have left : site.process.hasExited = true := by
    by_contra stays
    exact honest.open' (Bool.eq_false_of_not_eq_true stays) packet
      (List.mem_append_left _ received) shutdown
  have quiet : NoPizzaPending site := by
    refine quiet ?_
    unfold hasExited at left
    split at left
    · rename_i control
      rw [control]
      rfl
    · cases left
  obtain ⟨settled, earlier, last, others⟩ := honest.closed left
  refine ⟨quiet, earlier, last, others, ?_⟩
  have pending : tags Packet.isPizza site.orderQueue.pending = 0 := by
    rw [tags, List.filter_eq_nil_iff.mpr fun other member => by simp [quiet other member]]
    rfl
  have account := honest.account
  rw [pending, settled, zero_add, zero_add, add_comm, ← tags_append] at account
  have sent : tags Packet.isAnswer site.resultQueue.sent = tags Packet.isAnswer earlier := by
    rw [last, tags_append, tags_singleton]
    simp [Packet.isAnswer]
  exact account.trans sent

end KitchenWorker

namespace Pizzeria
open KitchenWorker

variable {nCooks : Nat} {limit : Option Nat}

/-- No pizza packet follows a shutdown packet or waits for a kitchen that leaves. -/
structure Quiet (ending : Bool) (site : Site (KitchenWorker nCooks)) : Prop where
  unclosed : ending = false → ∀ packet ∈ site.orderQueue.pending, packet.type ≠ .shutdown
  ordered : PizzasFirst site.orderQueue.pending
  left : site.process.control.leaving = true → NoPizzaPending site

/-- The reception sends pizzas only to a kitchen that stays, and an idle kitchen leaves only without
a pending pizza packet. -/
def leavesInTime (pizzeria : Pizzeria (process nCooks limit)) :
    PizzeriaLabel (process nCooks limit) → Bool
  | .reception =>
      match pizzeria.next with
      | some (.apply index (.send _ _), _) =>
          pizzeria.kitchens[index]?.all fun kitchen =>
            let site : Site (KitchenWorker nCooks) := pizzeria.sites kitchen.id
            !site.process.control.leaving
      | _ => true
  | .kitchen id label =>
      let site : Site (KitchenWorker nCooks) := pizzeria.sites id
      !timesOut site label || decide (NoPizzaPending site)
  | _ => true

/-- A kitchen step that leaves in time keeps the site quiet. -/
theorem Quiet.step {ending : Bool} {site next : Site (KitchenWorker nCooks)} {now : Nat}
    {label : Label nCooks} (quiet : Quiet ending site)
    (honest : Site.Honest (contract nCooks limit) site)
    (inTime : timesOut site label = true → NoPizzaPending site)
    (taken : KitchenWorker.step limit now site label = some next) : Quiet ending next := by
  have orders : next.orderQueue.pending = site.orderQueue.pending ∨ ∃ packet,
      site.orderQueue.pending = packet :: next.orderQueue.pending := by
    rcases Site.orders_step honest taken with same | ⟨packet, received⟩
    · exact .inl (by rw [same])
    · exact .inr ⟨packet, (Fifo.receive_eq_some_iff.mp received).1⟩
  have fewer : ∀ packet ∈ next.orderQueue.pending, packet ∈ site.orderQueue.pending := by
    intro packet member
    rcases orders with same | ⟨first, head⟩
    · exact same ▸ member
    · rw [head]
      exact List.mem_cons_of_mem _ member
  refine ⟨fun stays packet member => quiet.unclosed stays packet (fewer packet member), ?_, ?_⟩
  · rcases orders with same | ⟨packet, head⟩
    · rw [same]
      exact quiet.ordered
    · have ordered := quiet.ordered
      rw [head] at ordered
      exact ordered.tail
  · intro leaving packet member
    rcases leaving_of_step taken leaving with before | ⟨first, received, shutdown⟩ | ⟨timeout, _⟩
    · exact quiet.left before packet (fewer packet member)
    · have ordered := quiet.ordered
      rw [(Fifo.receive_eq_some_iff.mp received).1] at ordered
      exact (List.pairwise_cons.mp ordered).1 packet member shutdown
    · exact inTime timeout packet (fewer packet member)

/-- A reception operation that sends only to a kitchen that stays keeps the site quiet. -/
theorem Quiet.apply {ending : Bool} {kitchen : KitchenHandle}
    {site : Site (process nCooks limit).State} {operation : Operation}
    {outcome : Outcome (process nCooks limit).State}
    (quiet : Quiet ending site) (effect : operation.Effect kitchen site outcome)
    (sends : ∀ pizza origin, operation = .send pizza origin →
      ending = false ∧ Control.leaving (KitchenWorker.control site.process) = false)
    (closes : operation = .close → ending = true) :
    Quiet ending outcome.site := by
  have more : ∀ packet : Packet, packet.isPizza = false →
      (packet.type = .shutdown → ending = true) →
      Quiet ending { site with orderQueue := site.orderQueue.send packet } := by
    intro packet other closing
    refine ⟨fun stays earlier member => ?_, quiet.ordered.append (by simp [other]),
      fun leaving earlier member => ?_⟩
    · rcases List.mem_append.mp member with before | last
      · exact quiet.unclosed stays earlier before
      · obtain rfl := List.mem_singleton.mp last
        intro shutdown
        simp [closing shutdown] at stays
    · rcases List.mem_append.mp member with before | last
      · exact quiet.left leaving earlier before
      · obtain rfl := List.mem_singleton.mp last
        exact other
  cases effect with
  | handle => exact ⟨quiet.unclosed, quiet.ordered, quiet.left⟩
  | send pizza origin =>
      obtain ⟨open', stays⟩ := sends pizza origin rfl
      refine ⟨fun _ earlier member => ?_, quiet.ordered.append fun _ => quiet.unclosed open',
        fun leaving => ?_⟩
      · rcases List.mem_append.mp member with before | last
        · exact quiet.unclosed open' earlier before
        · obtain rfl := List.mem_singleton.mp last
          nofun
      · simp [stays] at leaving
  | request => exact more _ rfl nofun
  | close => exact more _ rfl fun _ => closes rfl
  | reap => exact quiet

/-- A step that leaves in time keeps every site quiet. -/
theorem quiet_step {pizzeria next : Pizzeria (process nCooks limit)}
    {label : PizzeriaLabel (process nCooks limit)}
    (registered : pizzeria.Registered (contract nCooks limit))
    (quiet : ∀ id, Quiet pizzeria.call.ending (pizzeria.sites id))
    (inTime : leavesInTime pizzeria label = true)
    (moved : Transition nCooks limit pizzeria label next) :
    ∀ id, Quiet next.call.ending (next.sites id) := by
  have later : ∀ id, Quiet next.call.ending (pizzeria.sites id) := by
    intro id
    refine ⟨fun open' => (quiet id).unclosed ?_, (quiet id).ordered, (quiet id).left⟩
    by_contra ending
    simp [ending_of_step moved (by simpa using ending)] at open'
  refine forall_sites (fun _ site => Quiet next.call.ending site) moved
    ⟨nofun, List.Pairwise.nil, nofun⟩ ?_ ?_ later
  · rintro index operation kitchen outcome rfl chosen found effect here
    obtain ⟨same, closes⟩ := next_ending chosen
    refine here.apply effect (fun pizza origin send => ?_) fun close => ?_
    · subst send
      obtain ⟨rest, call, _⟩ := next_send chosen
      exact ⟨by rw [call]; rfl, by simpa [leavesInTime, chosen, found] using inTime⟩
    · subst close
      exact same.trans (closes index (.inl rfl))
  · rintro id label site rfl _ taken here
    refine here.step (registered.honest id) (fun timeout => ?_) taken
    simpa [leavesInTime, timeout] using inTime

/-- Every run whose steps leave in time keeps every site quiet. -/
theorem quiet_of_reachable {pizzeria : Pizzeria (process nCooks limit)}
    (reached : (machine (process nCooks limit) nCooks limit).ReachableUnder
      (fun pizzeria label => leavesInTime pizzeria label) pizzeria) :
    ∀ id, Quiet pizzeria.call.ending (pizzeria.sites id) :=
  reached.invariant (fun _ => ⟨nofun, List.Pairwise.nil, nofun⟩) fun before quiet inTime taken =>
    quiet_step (registered_of_reachable (contract nCooks limit) before) quiet inTime
      (transition_of_step taken)

/-- A handled shutdown packet leaves no pizza behind: the order queue has no pizza packet, the
recorded load is zero and every pizza packet was answered before the shutdown packet. -/
def ClosesClean (pizzeria : Pizzeria (process nCooks limit)) : Prop :=
  ∀ id, ∀ packet ∈ (pizzeria.sites id).resultQueue.received, packet.type = .shutdown →
    NoPizzaPending (pizzeria.sites id) ∧
      (∀ kitchen ∈ pizzeria.kitchens, kitchen.id = id → kitchen.load = 0) ∧
      ∃ earlier, (pizzeria.sites id).resultQueue.sent = earlier ++ [{ type := .shutdown }] ∧
        tags Packet.isPizza (pizzeria.sites id).orderQueue.sent = tags Packet.isAnswer earlier

/-- Every run whose steps leave in time closes its kitchens clean. -/
theorem closesClean_of_reachable {pizzeria : Pizzeria (process nCooks limit)}
    (reached : (machine (process nCooks limit) nCooks limit).ReachableUnder
      (fun pizzeria label => leavesInTime pizzeria label) pizzeria) : ClosesClean pizzeria := by
  intro id packet received shutdown
  have honest := (registered_of_reachable (contract nCooks limit) reached).honest id
  have balanced := balanced_of_reachable (contract nCooks limit) reached
  obtain ⟨quiet, earlier, last, others, answered⟩ :=
    answered_of_leaving honest (quiet_of_reachable reached id).left received shutdown
  refine ⟨quiet, ?_, earlier, last, answered⟩
  rintro kitchen member rfl
  have nothing := Fifo.pending_of_received received last fun before => others packet before shutdown
  have balance := (balanced.accounts kitchen member).balance
  have counts := congrArg Multiset.card answered
  have final := congrArg (List.countP Packet.isAnswer) last
  simp only [card_tags] at counts
  rw [Fifo.sent, nothing, List.append_nil, List.countP_append, List.countP_singleton] at final
  have silent : Packet.isAnswer { type := .shutdown } = false := rfl
  rw [silent] at final
  simp only [Bool.false_eq_true, if_false, add_zero] at final
  omega

/-- A kitchen with one cook answers one pizza packet, idles and polls its empty order queue. -/
def idlesRun : List (PizzeriaLabel (process 1 none)) :=
  .order [⟨.margarita, .s, 1⟩] :: receptionSteps 1 4 ++ mainSteps 1 0 6 ++ cookSteps 0 onlyCook 7 ++
    .elapse kIdleTimeout :: mainSteps 1 0 3

/-- The main thread times out, stops its pool and exits once its cook has left. -/
def leavesRun : List (PizzeriaLabel (process 1 none)) :=
  mainSteps 1 0 1 ++ .elapse kPollInterval :: mainSteps 1 0 3 ++ cookSteps 0 onlyCook 1 ++ mainSteps 1 0 2

/-- The reception closes an idle kitchen clean. -/
theorem closesClean_idle :
    ∃ pizzeria, (machine (process 1 none) 1 none).ReachableUnder
        (fun pizzeria label => leavesInTime pizzeria label) pizzeria ∧
      (∃ packet ∈ (pizzeria.sites 0).resultQueue.received, packet.type = .shutdown) ∧
      ClosesClean pizzeria := by
  obtain ⟨pizzeria, reached, checked⟩ :=
    (machine (process 1 none) 1 none).exists_reachableUnder leavesInTime
      (idlesRun ++ leavesRun ++ .poll :: receptionSteps 1 3)
      (fun pizzeria => (pizzeria.sites 0).resultQueue.received.any fun packet =>
        packet.type = .shutdown) (by decide)
  obtain ⟨packet, received, shutdown⟩ := List.any_eq_true.mp checked
  exact ⟨pizzeria, reached, ⟨packet, received, of_decide_eq_true shutdown⟩,
    closesClean_of_reachable reached⟩

/-- A pizza sent between the empty poll and the timeout is left behind. -/
theorem not_closesClean :
    ∃ pizzeria, (machine (process 1 none) 1 none).Reachable pizzeria ∧ ¬ ClosesClean pizzeria := by
  obtain ⟨pizzeria, reached, checked⟩ := (machine (process 1 none) 1 none).exists_reachable
    (idlesRun ++ .order [⟨.margarita, .s, 1⟩] :: receptionSteps 1 6 ++ leavesRun ++
      .poll :: receptionSteps 1 2)
    (fun pizzeria =>
      ((pizzeria.sites 0).resultQueue.received.any fun packet => packet.type = .shutdown) &&
        (pizzeria.sites 0).orderQueue.pending.any Packet.isPizza) (by decide)
  obtain ⟨received, pending⟩ := Bool.and_eq_true_iff.mp checked
  obtain ⟨packet, received, shutdown⟩ := List.any_eq_true.mp received
  obtain ⟨pizza, left, isPizza⟩ := List.any_eq_true.mp pending
  refine ⟨pizzeria, reached, fun clean => ?_⟩
  have none' := (clean 0 packet received (of_decide_eq_true shutdown)).1 pizza left
  simp [none'] at isPizza

end Pizzeria

end Plazza
