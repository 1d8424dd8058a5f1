import Plazza.Proof.Reception.Departure
import Plazza.Proof.Reception.Register
import Plazza.Proof.Reception.Sweep

namespace Plazza
open Plazza.Foundation

/-- Nothing selected has no tags. -/
theorem tags_eq_zero {select : Packet → Bool} {packets : List Packet}
    (none' : ∀ packet ∈ packets, select packet = false) : tags select packets = 0 := by
  rw [tags, List.filter_eq_nil_iff.mpr fun packet member => by simp [none' packet member]]
  rfl

/-- The entry is not a refused pizza. -/
def Entry.accepts : Entry → Bool
  | full _ => false
  | _ => true

/-- A run without a refusal lists no refused pizza. -/
theorem Books.full_eq_zero {books : Books}
    (reached : Books.machine.ReachableUnder (fun _ entry => entry.accepts) books) :
    books.full = 0 := by
  refine reached.invariant (motive := fun books => books.full = 0) rfl ?_
  intro books next entry _ before accepts taken
  cases entry with
  | order orders =>
      simp only [machine, Books.step] at taken
      split at taken
      · obtain ⟨_, _, rfl⟩ := Option.map_eq_some_iff.mp taken
        exact before
      · cases taken
  | send | done tag =>
      simp only [machine, Books.step] at taken
      split at taken <;> cases taken
      exact before
  | full tag => cases accepts

namespace Pizzeria
open KitchenWorker

variable {nCooks : Nat} {limit : Option Nat}

/-- The process of the kitchen has exited and has left a pizza packet in its order queue. -/
def Abandons (id : Nat) (pizzeria : Pizzeria (process nCooks limit)) : Prop :=
  (pizzeria.sites id).process.hasExited = true ∧ ¬NoPizzaPending (pizzeria.sites id)

/-- The orders fit, every kitchen leaves in time and the reception handles no full packet. -/
def orderly (pizzeria : Pizzeria (process nCooks limit)) (label : PizzeriaLabel (process nCooks limit)) :
    Bool :=
  ordersFit label && leavesInTime pizzeria label && (pizzeria.entry label).all Entry.accepts

/-- No kitchen of an orderly run abandons a pizza. -/
theorem kept_of_orderly {pizzeria : Pizzeria (process nCooks limit)}
    (reached : (machine (process nCooks limit) nCooks limit).ReachableUnder
      (fun pizzeria label => orderly pizzeria label) pizzeria) (id : Nat) :
    ¬pizzeria.Abandons id := by
  rintro ⟨exits, left⟩
  refine left ((quiet_of_reachable (reached.mono fun _ _ orderly => ?_) id).left ?_)
  · exact (Bool.and_eq_true_iff.mp (Bool.and_eq_true_iff.mp orderly).1).2
  · unfold hasExited at exits
    split at exits
    · rename_i control
      rw [control]
      rfl
    · cases exits

/-- The books of an orderly run list no refused pizza. -/
theorem full_of_orderly {pizzeria : Pizzeria (process nCooks limit)}
    (reached : (machine (process nCooks limit) nCooks limit).ReachableUnder
      (fun pizzeria label => orderly pizzeria label) pizzeria) : pizzeria.books.full = 0 := by
  refine Books.full_eq_zero ((refines_books (contract nCooks limit)).reachable ?_ reached)
  intro state label event allowed observed
  have accepts := (Bool.and_eq_true_iff.mp allowed).2
  rwa [observed] at accepts

/-- No kitchen is listed, and the reception is idle or polls for nothing. -/
def Vacant (pizzeria : Pizzeria (process nCooks limit)) : Prop :=
  pizzeria.kitchens = [] ∧ (pizzeria.call = .idle ∨ pizzeria.call = .updating 0 [] 0 ∨
    pizzeria.call = .dispatching [] 0 false)

/-- A poll without kitchens is orderly and changes nothing. -/
theorem run_poll {pizzeria : Pizzeria (process nCooks limit)} (empty : pizzeria.kitchens = [])
    (idle : pizzeria.call = .idle) :
    (machine (process nCooks limit) nCooks limit).run (fun pizzeria label => orderly pizzeria label)
      pizzeria [.poll, .reception, .reception] = some pizzeria := by
  simp only [Machine.run, machine, step, next, perform, orderly, ordersFit, leavesInTime, entry, idle,
    empty, List.getElem?_nil, List.filter_nil, Option.all_none, Option.bind_eq_bind, Option.bind_some,
    Option.pure_def, Bool.and_self, if_true]
  rw [← empty, ← idle]

/-- The steps of such polls keep it so. -/
theorem Vacant.step {pizzeria next : Pizzeria (process nCooks limit)}
    {label : PizzeriaLabel (process nCooks limit)} (vacant : pizzeria.Vacant)
    (polls : label = .poll ∨ label = .reception)
    (taken : (machine (process nCooks limit) nCooks limit).step pizzeria label = some next) :
    next.Vacant := by
  obtain ⟨empty, stands⟩ := vacant
  rcases polls with rfl | rfl
  · have moved : Transition nCooks limit pizzeria .poll next := transition_of_step taken
    cases moved with
    | poll => exact ⟨empty, .inr (.inl rfl)⟩
  · rcases stands with call | call | call <;>
      simp [machine, Pizzeria.step, Pizzeria.next, call, empty, perform] at taken
    · subst taken
      exact ⟨rfl, .inr (.inr rfl)⟩
    · subst taken
      exact ⟨rfl, .inl rfl⟩

/-- A run that ends without kitchens and polls for nothing from then on is scheduled. -/
theorem scheduled_of_vacant {labels : List (PizzeriaLabel (process nCooks limit))}
    {allowed : Pizzeria (process nCooks limit) → PizzeriaLabel (process nCooks limit) → Bool}
    {last : Pizzeria (process nCooks limit)}
    (ran : (machine (process nCooks limit) nCooks limit).run allowed
      (machine (process nCooks limit) nCooks limit).initial labels = some last)
    (loops : (machine (process nCooks limit) nCooks limit).run allowed last
      [.poll, .reception, .reception] = some last)
    (vacant : last.Vacant) :
    Scheduled (Machine.Execution.looping (machine (process nCooks limit) nCooks limit) labels
      [.poll, .reception, .reception]) := by
  have reception : PizzeriaLabel.Reception (P := process nCooks limit) .reception := trivial
  refine scheduled_of_exited labels.length
    (fun _ => Machine.Execution.again_looping ran loops (by simp) reception) ?_
  intro moment late id spawned
  have empty : ((Machine.Execution.looping (machine (process nCooks limit) nCooks limit) labels
      [.poll, .reception, .reception]).state moment).Vacant := by
    refine Machine.Execution.keeps (motive := Vacant) ?_ ?_ late
    · rw [(Machine.Execution.looping_front ran).1]
      exact vacant
    · intro between label since before labelled taken
      exact before.step (by simpa using Machine.Execution.mem_looping _ since labelled) taken
  exact (closing_of_reachable (contract nCooks limit)
    (Machine.Execution.reachable _ moment)).gone id spawned (by rw [empty.1]; exact nofun)

/-- The reception serves an order, the kitchen times out and exits, and a poll hears of both. -/
def pollingLabels : List (PizzeriaLabel (process 1 (some 10))) :=
  let reception (count : Nat) : List (PizzeriaLabel (process 1 (some 10))) :=
    List.replicate count .reception
  let main (count : Nat) : List (PizzeriaLabel (process 1 (some 10))) :=
    List.replicate count (.kitchen 0 (.main fun _ => true))
  let cook (count : Nat) : List (PizzeriaLabel (process 1 (some 10))) :=
    List.replicate count (.kitchen 0 (.cook (Fin.last 0)))
  .order [⟨.margarita, .s, 1⟩] :: reception 4 ++ main 6 ++ cook 7 ++ .elapse kIdleTimeout :: main 4 ++
    .elapse kPollInterval :: main 3 ++ cook 1 ++ main 2 ++ .poll :: reception 6

/-- The run goes on with polls as an orderly execution that passes through its first parts and that
asks for nothing else after the order. -/
theorem exists_polling (count : Nat) (check : Pizzeria (process 1 (some 10)) → Bool)
    (passed : ((machine (process 1 (some 10)) 1 (some 10)).run (fun _ _ => true)
      (machine (process 1 (some 10)) 1 (some 10)).initial (pollingLabels.take count)).any check = true) :
    ∃ execution : (machine (process 1 (some 10)) 1 (some 10)).Execution, Scheduled execution ∧
      Again (execution.Takes PizzeriaLabel.Updates) ∧
      (execution.Obeys fun pizzeria label => orderly pizzeria label) ∧
      (∀ later, 0 < later → ¬execution.Takes (·.asks = true) later) ∧
      check (execution.state (pollingLabels.take count).length) = true := by
  have unasked : ∀ label ∈ pollingLabels.drop 1 ++ [.poll, .reception, .reception],
      label.asks = false := by decide
  obtain ⟨last, ran, ends⟩ := (Option.any_eq_true _ _).mp
    (show ((machine (process 1 (some 10)) 1 (some 10)).run (fun pizzeria label => orderly pizzeria label)
      (machine (process 1 (some 10)) 1 (some 10)).initial pollingLabels).any
      (fun pizzeria => decide (pizzeria.kitchens = [] ∧ pizzeria.call = .idle)) = true by decide)
  obtain ⟨empty, idle⟩ := of_decide_eq_true ends
  have loops := run_poll empty idle
  exact ⟨_, scheduled_of_vacant ran loops ⟨empty, .inl idle⟩,
    Machine.Execution.again_looping ran loops List.mem_cons_self trivial,
    Machine.Execution.obeys_looping ran loops (by simp),
    fun later late ⟨label, labelled, asks⟩ => absurd asks (Bool.eq_false_iff.mp
      (unasked label (Machine.Execution.mem_looping 1 late labelled))),
    Machine.Execution.check_looping _ _ (List.take_prefix count pollingLabels) check passed⟩

section Scheduled

variable {execution : (machine (process nCooks limit) nCooks limit).Execution}
  (scheduled : Scheduled execution) (roomy : Roomy nCooks limit)
include scheduled roomy

/-- The kitchen answers each pizza packet that it was sent, unless it abandons one. -/
theorem answered_of_sent (moment id : Nat) :
    ∃ later, moment ≤ later ∧ ((execution.state later).Abandons id ∨
      tags Packet.isPizza ((execution.state moment).sites id).orderQueue.sent ≤
        tags Packet.isAnswer ((execution.state later).sites id).resultQueue.sent) := by
  rcases Nat.lt_or_ge id (execution.state moment).nextKitchenId with spawned | unspawned
  swap
  · rw [(registered_of_reachable (contract nCooks limit) (execution.reachable moment)).unspawned id
      unspawned]
    exact ⟨moment, le_rfl, .inr (Multiset.zero_le _)⟩
  have kitchen := scheduled.kitchen roomy spawned
  obtain ⟨middle, late, heard⟩ := Kitchen.leadsTo_received kitchen _ moment rfl
  obtain ⟨later, beyond, answered⟩ := Kitchen.leadsTo_answered kitchen _ middle rfl
  by_cases abandons : (execution.state middle).Abandons id
  · exact ⟨middle, late, .inl abandons⟩
  refine ⟨later, late.trans beyond, .inr (le_trans ?_ answered)⟩
  rcases heard with exits | received
  · have quiet : NoPizzaPending ((execution.state middle).sites id) :=
      not_not.mp fun left => abandons ⟨exits, left⟩
    have kept : ((execution.state moment).sites id).orderQueue.sent <+:
        ((execution.state middle).sites id).orderQueue.sent :=
      (Kitchen.orders_later (execution.map (refines_kitchen nCooks limit id)) late).1
    refine (tags_mono _ kept).trans ?_
    rw [Fifo.sent, tags_append, tags_eq_zero quiet, add_zero]
    rfl
  · exact tags_mono _ received

/-- The reception handles an answer to each pizza packet that it has sent, unless the kitchen
abandons one. -/
theorem handled_of_fair (updates : Again (execution.Takes PizzeriaLabel.Updates))
    (moment id : Nat) :
    ∃ later, moment ≤ later ∧ ((execution.state later).Abandons id ∨
      tags Packet.isPizza ((execution.state moment).sites id).orderQueue.sent ≤
        tags Packet.isAnswer ((execution.state later).sites id).resultQueue.received) := by
  obtain ⟨middle, late, abandons | answered⟩ := answered_of_sent scheduled roomy moment id
  · exact ⟨middle, late, .inl abandons⟩
  · obtain ⟨later, beyond, collected, _⟩ := swept_of_fair scheduled roomy updates middle
    exact ⟨later, late.trans beyond, .inr (answered.trans (tags_mono _ (collected id)))⟩

omit scheduled roomy in
/-- The reception handles the answer to the pizza of the run. -/
theorem handled_polling :
    ∃ execution : (machine (process 1 (some 10)) 1 (some 10)).Execution, Scheduled execution ∧
      Again (execution.Takes PizzeriaLabel.Updates) ∧
      ∃ moment, ((execution.state moment).sites 0).orderQueue.sent.length = 1 ∧
        ∃ later, moment ≤ later ∧ ((execution.state later).Abandons 0 ∨
          tags Packet.isPizza ((execution.state moment).sites 0).orderQueue.sent ≤
            tags Packet.isAnswer ((execution.state later).sites 0).resultQueue.received) := by
  obtain ⟨execution, scheduled, updates, _, _, sent⟩ := exists_polling 5
    (fun pizzeria => decide ((pizzeria.sites 0).orderQueue.sent.length = 1)) (by decide)
  exact ⟨execution, scheduled, updates, _, of_decide_eq_true sent,
    handled_of_fair scheduled roomy_service updates _ 0⟩

/-- Every kitchen answers the pizza packets that it was sent, if none is abandoned. -/
theorem answered_of_kept (kept : ∀ moment id, ¬(execution.state moment).Abandons id) (moment : Nat) :
    ∃ later, moment ≤ later ∧ ∀ id,
      tags Packet.isPizza ((execution.state moment).sites id).orderQueue.sent ≤
        tags Packet.isAnswer ((execution.state later).sites id).resultQueue.sent := by
  have lasts : ∀ id {start later}, moment ≤ start → start ≤ later →
      tags Packet.isPizza ((execution.state moment).sites id).orderQueue.sent ≤
        tags Packet.isAnswer ((execution.state start).sites id).resultQueue.sent →
      tags Packet.isPizza ((execution.state moment).sites id).orderQueue.sent ≤
        tags Packet.isAnswer ((execution.state later).sites id).resultQueue.sent :=
    fun id _ _ _ late answered => answered.trans (tags_mono _
      (Kitchen.results_later (execution.map (refines_kitchen nCooks limit id)) late))
  have each : ∀ id : Fin (execution.state moment).nextKitchenId, ∃ later, moment ≤ later ∧
      tags Packet.isPizza ((execution.state moment).sites id).orderQueue.sent ≤
        tags Packet.isAnswer ((execution.state later).sites id).resultQueue.sent := by
    intro id
    obtain ⟨later, late, abandons | answered⟩ := answered_of_sent scheduled roomy moment id
    · exact absurd abandons (kept later id)
    · exact ⟨later, late, answered⟩
  obtain ⟨later, late, answered⟩ := exists_all (fun id : Fin _ => lasts id) each
  refine ⟨later, late, fun id => ?_⟩
  rcases Nat.lt_or_ge id (execution.state moment).nextKitchenId with spawned | unspawned
  · exact answered ⟨id, spawned⟩
  · rw [(registered_of_reachable (contract nCooks limit) (execution.reachable moment)).unspawned id
      unspawned]
    exact Multiset.zero_le _

/-- Every sent pizza is finished or refused in the books of a later moment, if none is abandoned. -/
theorem settled_of_kept (updates : Again (execution.Takes PizzeriaLabel.Updates))
    (kept : ∀ moment id, ¬(execution.state moment).Abandons id) (moment : Nat) :
    ∃ later, moment ≤ later ∧ (execution.state moment).books.sent ≤
      (execution.state later).books.done + (execution.state later).books.full := by
  obtain ⟨middle, late, answered⟩ := answered_of_kept scheduled roomy kept moment
  obtain ⟨later, beyond, collected, _⟩ := swept_of_fair scheduled roomy updates middle
  refine ⟨later, late.trans beyond, ?_⟩
  have spawned : (execution.state moment).nextKitchenId ≤ (execution.state later).nextKitchenId :=
    le_of_forall_lt fun id inside =>
      Machine.Execution.stays (spawned_stable id) (late.trans beyond) inside
  calc (execution.state moment).books.sent
      = ∑ id ∈ Finset.range (execution.state moment).nextKitchenId,
          sentTags ((execution.state moment).sites id) := rfl
    _ ≤ ∑ id ∈ Finset.range (execution.state moment).nextKitchenId,
          tags Packet.isAnswer ((execution.state later).sites id).resultQueue.received :=
        Finset.sum_le_sum fun id _ => (answered id).trans (tags_mono _ (collected id))
    _ ≤ ∑ id ∈ Finset.range (execution.state later).nextKitchenId,
          tags Packet.isAnswer ((execution.state later).sites id).resultQueue.received :=
        Finset.sum_le_sum_of_subset (Finset.range_mono spawned)
    _ = (execution.state later).books.done + (execution.state later).books.full := by
        simp only [tags_isAnswer, Finset.sum_add_distrib]
        rfl

/-- Every registered order is announced, in the order of the registration. -/
theorem announced_of_fair (updates : Again (execution.Takes PizzeriaLabel.Updates))
    (obeys : execution.Obeys fun pizzeria label => orderly pizzeria label) (moment : Nat) :
    ∃ later, moment ≤ later ∧
      (execution.state moment).ledger.register <+: (execution.state later).ledger.announced := by
  have counts : ∀ moment, (execution.state moment).books.Counts := fun moment =>
    counts_of_reachable (contract nCooks limit) <| (obeys.reachable moment).mono fun _ _ orderly =>
      (Bool.and_eq_true_iff.mp (Bool.and_eq_true_iff.mp orderly).1).1
  have stays : ∀ {start later orderIds due}, start ≤ later →
      (execution.state start).books.Awaited orderIds due →
      (execution.state later).books.Awaited orderIds due := fun late =>
    Machine.Execution.stays (Machine.Execution.stable_map (refines_books (contract nCooks limit))
      (Books.awaited_stable _ _)) late
  obtain ⟨idle, late, label, labelled, begins⟩ := updates moment
  obtain ⟨later, beyond, settled⟩ := settled_of_kept scheduled roomy updates
    (fun moment => kept_of_orderly (obeys.reachable moment)) idle
  refine ⟨later, late.trans beyond, ?_⟩
  have grows := (stays late ⟨List.prefix_rfl, .inr rfl⟩).registered
  have sentAll : (execution.state idle).books.todo = [] := by
    simp [books, (update_step begins (execution.taken labelled)).1, Call.todo, tagged]
  have awaited := stays beyond (Books.awaited_of_counts (counts idle) sentAll)
  rw [full_of_orderly (obeys.reachable later), add_zero] at settled
  exact grows.trans (awaited.announced (counts later) (Int.ofNat_le.mpr (Multiset.card_le_card settled)))

omit scheduled roomy in
/-- The order of the run is announced by a poll. -/
theorem announced_polling :
    ∃ execution : (machine (process 1 (some 10)) 1 (some 10)).Execution, Scheduled execution ∧
      Again (execution.Takes PizzeriaLabel.Updates) ∧
      (execution.Obeys fun pizzeria label => orderly pizzeria label) ∧
      ∃ moment, (execution.state moment).ledger.pendingOrders = [(1, 1)] ∧
        ∃ later, moment ≤ later ∧ (execution.state moment).ledger.register <+:
          (execution.state later).ledger.announced := by
  obtain ⟨execution, scheduled, updates, obeys, _, pending⟩ := exists_polling 1
    (fun pizzeria => decide (pizzeria.ledger.pendingOrders = [(1, 1)])) (by decide)
  exact ⟨execution, scheduled, updates, obeys, _, of_decide_eq_true pending,
    announced_of_fair scheduled roomy_service updates obeys _⟩

end Scheduled

end Pizzeria

end Plazza
