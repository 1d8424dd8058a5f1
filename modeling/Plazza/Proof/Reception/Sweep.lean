import Plazza.Proof.Reception.Record
import Plazza.Proof.Reception.Returns

namespace Plazza
open Plazza.Foundation

/-- The loop of `updateKitchens` stands at the kitchen of this position. -/
def Call.swept : Call → Option Nat
  | updating index _ _ | draining index _ _ => some index
  | _ => none

/-- The call begins with `updateKitchens`. -/
def PizzeriaLabel.Updates {P : KitchenProcess} : PizzeriaLabel P → Prop
  | .order _ | .poll => True
  | _ => False

/-- The reception is asked for something other than a poll. -/
def PizzeriaLabel.asks {P : KitchenProcess} : PizzeriaLabel P → Bool
  | .order _ | .status | .close => true
  | _ => false

namespace Pizzeria

section Process

variable {P : KitchenProcess} {nCooks : Nat} {limit : Option Nat} {contract : P.Contract}

/-- The reception has received these results of every kitchen. -/
def Collected (results : Nat → List Packet) (pizzeria : Pizzeria P) : Prop :=
  ∀ id, results id <+: (pizzeria.sites id).resultQueue.received

/-- The loop of `updateKitchens` has received these results of the kitchens that it has passed. -/
def Sweeping (results : Nat → List Packet) (pizzeria : Pizzeria P) : Prop :=
  ∃ index, pizzeria.call.swept = some index ∧
    ∀ position < index, ∀ kitchen, pizzeria.kitchens[position]? = some kitchen →
      results kitchen.id <+: (pizzeria.sites kitchen.id).resultQueue.received

/-- The sweep has ended: the reception has these results, and it has erased every dead handle. -/
def Swept (results : Nat → List Packet) (pizzeria : Pizzeria P) : Prop :=
  pizzeria.Collected results ∧ ∀ kitchen ∈ pizzeria.kitchens, kitchen.alive = true

/-- The reception only ever adds to the results that it has received. -/
theorem received_step {pizzeria next : Pizzeria P} {label : PizzeriaLabel P}
    (registered : pizzeria.Registered contract)
    (moved : Transition nCooks limit pizzeria label next) (id : Nat) :
    (pizzeria.sites id).resultQueue.received <+: (next.sites id).resultQueue.received := by
  refine forall_sites (fun other site =>
    (pizzeria.sites other).resultQueue.received <+: site.resultQueue.received) moved ?_ ?_ ?_
    (fun _ => List.prefix_rfl) id
  · rw [registered.unspawned _ le_rfl]
  · intro index operation kitchen outcome _ _ _ effect _
    cases effect with
    | handle packet resultQueue next report taken =>
        rw [(Fifo.receive_eq_some_iff.mp taken).2]
        exact List.prefix_append _ _
    | send | request | close | reap => exact List.prefix_rfl
  · intro other taken site _ _ stepped _
    rw [(Site.frame_step (registered.honest other) stepped).2]

/-- No result waits for a kitchen that is dead or gone, until the shutdown of the reception. -/
theorem unread_of_open (contract : P.Contract) {guard : Pizzeria P → PizzeriaLabel P → Prop}
    {pizzeria : Pizzeria P} (reached : (machine P nCooks limit).ReachableUnder guard pizzeria)
    (open' : pizzeria.call.ending = false) :
    (∀ kitchen ∈ pizzeria.kitchens, kitchen.alive = false →
      (pizzeria.sites kitchen.id).resultQueue.pending = []) ∧
    ∀ id < pizzeria.nextKitchenId, (∀ kitchen ∈ pizzeria.kitchens, kitchen.id ≠ id) →
      (pizzeria.sites id).resultQueue.pending = [] := by
  have drained := drained_of_reachable contract
    (reapsDrained_of_open (fun _ => true) reached open')
  have all : ∀ packets : List Packet, packets.filter (fun _ => true) = [] → packets = [] :=
    fun packets none' => (List.filter_true packets).symm.trans none'
  exact ⟨fun kitchen member dead => all _ (drained.dead kitchen member dead),
    fun id spawned unlisted => all _ (drained.gone id spawned unlisted)⟩

/-- A statement of the loop goes on with the sweep or ends it. -/
theorem Sweeping.step {results : Nat → List Packet} {pizzeria next : Pizzeria P}
    {label : PizzeriaLabel P} (sweeping : pizzeria.Sweeping results)
    (sent : ∀ id, results id <+: (pizzeria.sites id).resultQueue.sent) (contract : P.Contract)
    (reached : (machine P nCooks limit).Reachable pizzeria)
    (moved : Transition nCooks limit pizzeria label next) :
    next.Swept results ∨ next.Sweeping results := by
  have registered := registered_of_reachable contract reached
  have grows := received_step registered moved
  obtain ⟨index, stands, passed⟩ := sweeping
  have open' : pizzeria.call.ending = false := by
    cases running : pizzeria.call <;> rw [running] at stands <;> first | rfl | cases stands
  obtain ⟨dead, gone⟩ := unread_of_open contract reached open'
  have ofNext : ∀ {action : Action} {call : Call}, pizzeria.next = some (action, call) →
      Statement pizzeria pizzeria.call action call := by
    intro action call chosen
    refine (statement_of_next registered.ids chosen).resolve_left fun consults => ?_
    generalize pizzeria.call = current at consults stands
    cases consults <;> cases stands
  have advance : ∀ {kitchen : KitchenHandle}, pizzeria.kitchens[index]? = some kitchen →
      (pizzeria.sites kitchen.id).resultQueue.pending = [] →
      ∀ position < index + 1, ∀ other, pizzeria.kitchens[position]? = some other →
        results other.id <+: (pizzeria.sites other.id).resultQueue.received := by
    intro kitchen found empty position before other there
    rcases Nat.lt_succ_iff_lt_or_eq.mp before with less | rfl
    · exact passed position less other there
    · obtain rfl := Option.some.inj (found.symm.trans there)
      exact Fifo.prefix_received (sent kitchen.id) empty
  cases moved with
  | order _ _ _ idle | status idle | poll idle | close idle =>
      rw [idle] at stands
      cases stands
  | skip call chosen =>
      have statement := ofNext chosen
      generalize pizzeria.call = current at statement stands
      cases statement with
      | enter => exact .inr ⟨index, stands, passed⟩
      | pass _ _ _ kitchen found ended =>
          cases stands
          exact .inr ⟨_, rfl, advance found (dead kitchen (List.mem_of_getElem? found) ended)⟩
      | drained _ _ _ kitchen found empty =>
          cases stands
          exact .inr ⟨_, rfl, advance found (List.head?_eq_none_iff.mp empty)⟩
      | dispatched | closed => cases stands
  | apply position operation call kitchen outcome chosen found effect =>
      have statement := ofNext chosen
      generalize pizzeria.call = current at statement stands
      cases statement with
      | drain =>
          cases stands
          refine .inr ⟨_, rfl, fun earlier before other there => ?_⟩
          simp only [touch, kitchens_record, List.getElem?_set_ne before.ne'] at there
          exact (passed earlier before other there).trans (grows other.id)
      | send | close | reap => cases stands
  | erase call chosen =>
      have statement := ofNext chosen
      generalize pizzeria.call = current at statement stands
      cases statement with
      | erase _ _ _ ended =>
          cases stands
          refine .inl ⟨fun id => ?_, fun kitchen kept => (List.mem_filter.mp kept).2⟩
          by_cases listed : ∃ kitchen ∈ pizzeria.kitchens, kitchen.id = id
          · obtain ⟨kitchen, member, rfl⟩ := listed
            obtain ⟨position, inside, rfl⟩ := List.mem_iff_getElem.mp member
            exact passed position (inside.trans_le (List.getElem?_eq_none_iff.mp ended)) _
              (List.getElem?_eq_getElem inside)
          · refine Fifo.prefix_received (sent id) ?_
            rcases Nat.lt_or_ge id pizzeria.nextKitchenId with spawned | unspawned
            · exact gone id spawned fun kitchen member same => listed ⟨kitchen, member, same⟩
            · rw [registered.unspawned id unspawned]
              rfl
  | spawn call chosen | report call _ chosen | destroy call chosen =>
      have statement := ofNext chosen
      generalize pizzeria.call = current at statement stands
      cases statement
      all_goals cases stands
  | kitchen moved label site spawned stepped =>
      exact .inr ⟨index, stands, fun position before other there =>
        (passed position before other there).trans (grows other.id)⟩
  | elapse => exact .inr ⟨index, stands, passed⟩

/-- An idle reception that begins `updateKitchens` stands at the first kitchen. -/
theorem update_step {pizzeria next : Pizzeria P} {label : PizzeriaLabel P} (updates : label.Updates)
    (taken : (machine P nCooks limit).step pizzeria label = some next) :
    pizzeria.call = .idle ∧ next.call.swept = some 0 := by
  have moved : Transition nCooks limit pizzeria label next := transition_of_step taken
  cases moved with
  | order _ _ _ idle | poll idle => exact ⟨idle, rfl⟩
  | status | close | skip | apply | erase | spawn | report | destroy | kitchen | elapse =>
      exact updates.elim

end Process

variable {nCooks : Nat} {limit : Option Nat}

/-- A kitchen only ever adds to its results. -/
theorem sent_step {pizzeria next : Pizzeria (KitchenWorker.process nCooks limit)}
    {label : PizzeriaLabel (KitchenWorker.process nCooks limit)}
    (reached : (machine (KitchenWorker.process nCooks limit) nCooks limit).Reachable pizzeria)
    (moved : Transition nCooks limit pizzeria label next) (id : Nat) :
    (pizzeria.sites id).resultQueue.sent <+: (next.sites id).resultQueue.sent := by
  have registered := registered_of_reachable (KitchenWorker.contract nCooks limit) reached
  refine forall_sites (fun other site =>
    (pizzeria.sites other).resultQueue.sent <+: site.resultQueue.sent) moved ?_ ?_ ?_
    (fun _ => List.prefix_rfl) id
  · rw [registered.unspawned _ le_rfl]
  · intro index operation kitchen outcome _ _ _ effect _
    rw [effect.queues.2]
  · intro other label site _ _ stepped _
    have taken : Kitchen.step limit ⟨pizzeria.sites other, pizzeria.now⟩ (.process label) =
        some ⟨site, pizzeria.now⟩ := Option.map_eq_some_iff.mpr ⟨site, stepped, rfl⟩
    exact Kitchen.results_step taken

section Scheduled

variable {execution : (machine (KitchenWorker.process nCooks limit) nCooks limit).Execution}
  (scheduled : Scheduled execution) (roomy : Roomy nCooks limit)
include scheduled roomy

/-- A sweep receives every result that was sent before it began. -/
theorem swept_of_sweeping (results : Nat → List Packet) :
    execution.LeadsTo
      (fun pizzeria => (∀ id, results id <+: (pizzeria.sites id).resultQueue.sent) ∧
        pizzeria.Sweeping results)
      fun pizzeria => pizzeria.Swept results := by
  refine leadsTo_of_work scheduled roomy ?_ ?_
  · rintro pizzeria next label reached ⟨sent, sweeping⟩ moved
    exact (sweeping.step sent (KitchenWorker.contract nCooks limit) reached moved).imp_right
      fun goes => ⟨fun id => (sent id).trans (sent_step reached moved id), goes⟩
  · rintro pizzeria _ ⟨_, index, stands, _⟩
    refine ⟨⟨?_, ?_⟩, ?_⟩
    · intro idle
      rw [idle] at stands
      cases stands
    · intro destroyed
      rw [destroyed] at stands
      cases stands
    · rintro ⟨_, _, _, _, _, answering, _⟩
      rw [answering] at stands
      cases stands

/-- Every result is received by a later update, which erases the dead handles. -/
theorem swept_of_fair (updates : Again (execution.Takes PizzeriaLabel.Updates)) (moment : Nat) :
    ∃ later, moment ≤ later ∧ (execution.state later).Swept fun id =>
      ((execution.state moment).sites id).resultQueue.sent := by
  obtain ⟨middle, late, label, labelled, begins⟩ := updates moment
  have begun : (execution.state (middle + 1)).Sweeping fun id =>
      ((execution.state moment).sites id).resultQueue.sent :=
    ⟨0, (update_step begins (execution.taken labelled)).2, nofun⟩
  have sent : ∀ id, ((execution.state moment).sites id).resultQueue.sent <+:
      ((execution.state (middle + 1)).sites id).resultQueue.sent := fun id =>
    Kitchen.results_later (execution.map (refines_kitchen nCooks limit id))
      (late.trans (Nat.le_succ middle))
  obtain ⟨later, beyond, swept⟩ :=
    swept_of_sweeping scheduled roomy _ (middle + 1) ⟨sent, begun⟩
  exact ⟨later, by omega, swept⟩

end Scheduled

end Pizzeria

end Plazza
