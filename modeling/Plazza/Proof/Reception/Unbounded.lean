import Plazza.Proof.Reception.Returns

namespace Plazza
open Plazza.Foundation

/-- Without a limit every send on the order queue succeeds. -/
theorem Site.sendOrder_none {State : Type} {site : Site State} {limit : Option Nat} {packet : Packet}
    (room : hasRoom limit site.orderQueue.pending = true) :
    site.sendOrder limit packet = site.sendOrder none packet := by
  rw [sendOrder, if_pos room]
  rfl

/-- Without a limit every send on the result queue succeeds. -/
theorem Site.sendResult_none {State : Type} {site : Site State} {limit : Option Nat}
    (room : hasRoom limit site.resultQueue.pending = true) (packet : Packet) (process : State) :
    site.sendResult limit packet process = site.sendResult none packet process := by
  rw [sendResult, if_pos room]
  rfl

namespace KitchenWorker

variable {nCooks : Nat} {limit : Option Nat}

/-- A kitchen with room for its results does not notice the limit. -/
theorem step_none {now : Nat} {site : Site (KitchenWorker nCooks)}
    (room : hasRoom limit site.resultQueue.pending = true) (label : Label nCooks) :
    step limit now site label = step none now site label := by
  cases label with
  | main wake =>
      simp only [step, run]
      cases site.process.control with
      | refusing packet => exact Site.sendResult_none room _ _
      | responding packets =>
          cases packets with
          | nil => rfl
          | cons packet rest => exact Site.sendResult_none room _ _
      | closing => exact Site.sendResult_none room _ _
      | starting | receiving | handling | accepting | readingStock | readingCooks | sampling
      | checking | sleeping | stopping | notifying | joining | exited => rfl
  | cook index =>
      simp only [step, cookPizza]
      cases worked : site.process.pool.workerLoop index with
      | none => rfl
      | some pool =>
          simp only [Option.bind_eq_bind, Option.bind_some]
          split
          · rfl
          · exact Site.sendResult_none room _ _
          · rfl
  | wakeSpuriously | regenerate => rfl

/-- A process that has exited takes no step under any limit. -/
theorem step_of_exited {now : Nat} {site : Site (KitchenWorker nCooks)} (valid : site.process.Valid)
    (exits : site.process.hasExited = true) (label : Label nCooks) :
    step limit now site label = none := by
  rw [Option.eq_none_iff_forall_ne_some]
  intro next stepped
  have runs := (transition_of_step stepped).active valid
  rw [exits] at runs
  cases runs

end KitchenWorker

/-- The label of the same program without a limit. -/
def PizzeriaLabel.unbounded {nCooks : Nat} {limit : Option Nat} :
    PizzeriaLabel (KitchenWorker.process nCooks limit) →
      PizzeriaLabel (KitchenWorker.process nCooks none)
  | .order orders => .order orders
  | .status => .status
  | .poll => .poll
  | .close => .close
  | .reception => .reception
  | .kitchen id label => .kitchen id label
  | .elapse duration => .elapse duration

namespace Pizzeria

variable {nCooks : Nat} {limit : Option Nat}

/-- The state of the same program without a limit. -/
def unbounded (pizzeria : Pizzeria (KitchenWorker.process nCooks limit)) :
    Pizzeria (KitchenWorker.process nCooks none) where
  kitchens := pizzeria.kitchens
  nextKitchenId := pizzeria.nextKitchenId
  log := pizzeria.log
  ledger := pizzeria.ledger
  accepted := pizzeria.accepted
  reports := pizzeria.reports
  call := pizzeria.call
  sites := pizzeria.sites
  now := pizzeria.now

/-- The reception chooses the same statement. -/
theorem next_unbounded (pizzeria : Pizzeria (KitchenWorker.process nCooks limit)) :
    pizzeria.unbounded.next = pizzeria.next := rfl

/-- An operation that succeeds within the limit does the same without it. -/
theorem run_none {operation : Operation} {kitchen : KitchenHandle}
    {site : Site (KitchenWorker nCooks)} {outcome : Outcome (KitchenWorker nCooks)}
    (ran : operation.run (P := KitchenWorker.process nCooks limit) limit kitchen site = some outcome) :
    operation.run (P := KitchenWorker.process nCooks none) none kitchen site = some outcome := by
  have sends : ∀ {packet : Packet} {sent : Site (KitchenWorker nCooks)},
      site.sendOrder limit packet = some sent →
      ∀ result : Site (KitchenWorker nCooks) → Option (Outcome (KitchenWorker nCooks)),
        (site.sendOrder none packet).bind result = (site.sendOrder limit packet).bind result := by
    intro packet sent taken result
    have room : hasRoom limit site.orderQueue.pending = true := by
      unfold Site.sendOrder at taken
      split at taken
      · assumption
      · cases taken
    rw [Site.sendOrder_none room]
  cases operation with
  | handle | reap => exact ran
  | send | request | close =>
      obtain ⟨sent, taken, _⟩ := Option.bind_eq_some_iff.mp ran
      exact (sends taken _).trans ran

/-- The chosen operation of the reception does the same with and without the limit. -/
theorem run_unbounded (roomy : Roomy nCooks limit)
    {pizzeria : Pizzeria (KitchenWorker.process nCooks limit)}
    (reached : (machine (KitchenWorker.process nCooks limit) nCooks limit).Reachable pizzeria)
    {index : Nat} {operation : Operation} {call : Call} {kitchen : KitchenHandle}
    (chosen : pizzeria.next = some (.apply index operation, call))
    (found : pizzeria.kitchens[index]? = some kitchen) :
    operation.run (P := KitchenWorker.process nCooks limit) limit kitchen (pizzeria.sites kitchen.id) =
      operation.run (P := KitchenWorker.process nCooks none) none kitchen
        (pizzeria.sites kitchen.id) := by
  by_cases reaps : operation = .reap
  · subst reaps
    rfl
  have exits : ∀ id, pizzeria.Awaits id → (pizzeria.sites id).process.hasExited = true := by
    rintro id ⟨position, _, awaiting, _⟩
    rw [next, awaiting] at chosen
    cases chosen
    exact absurd rfl reaps
  obtain ⟨after, performed⟩ := exists_performed roomy reached exits chosen
  obtain ⟨_, here, performed⟩ := Option.bind_eq_some_iff.mp performed
  obtain rfl := Option.some.inj (found.symm.trans here)
  obtain ⟨outcome, ran, _⟩ := Option.bind_eq_some_iff.mp performed
  exact ran.trans (run_none ran).symm

/-- The chosen statement of the reception does the same with and without the limit. -/
theorem perform_unbounded (roomy : Roomy nCooks limit)
    {pizzeria : Pizzeria (KitchenWorker.process nCooks limit)}
    (reached : (machine (KitchenWorker.process nCooks limit) nCooks limit).Reachable pizzeria)
    {action : Action} {call : Call} (chosen : pizzeria.next = some (action, call)) :
    (pizzeria.perform nCooks limit action).map unbounded =
      pizzeria.unbounded.perform nCooks none action := by
  cases action with
  | skip | erase | spawn | report | destroy => rfl
  | apply index operation =>
      have listed : pizzeria.unbounded.kitchens = pizzeria.kitchens := rfl
      simp only [perform, listed, Option.bind_eq_bind]
      cases found : pizzeria.kitchens[index]? with
      | none => rfl
      | some kitchen =>
          simp only [Option.bind_some]
          have same := run_unbounded roomy reached chosen found
          cases ran : operation.run (P := KitchenWorker.process nCooks limit) limit kitchen
            (pizzeria.sites kitchen.id) with
          | none =>
              have also : operation.run (P := KitchenWorker.process nCooks none) none kitchen
                (pizzeria.unbounded.sites kitchen.id) = none := same.symm.trans ran
              rw [also]
              rfl
          | some outcome =>
              have also : operation.run (P := KitchenWorker.process nCooks none) none kitchen
                (pizzeria.unbounded.sites kitchen.id) = some outcome := same.symm.trans ran
              rw [also]
              cases outcome with
              | mk handle site report => cases report <;> rfl

/-- The reception takes the same statement with and without the limit. -/
theorem reception_unbounded (roomy : Roomy nCooks limit)
    {pizzeria : Pizzeria (KitchenWorker.process nCooks limit)}
    (reached : (machine (KitchenWorker.process nCooks limit) nCooks limit).Reachable pizzeria) :
    (pizzeria.step nCooks limit .reception).map unbounded =
      pizzeria.unbounded.step nCooks none .reception := by
  simp only [step, next_unbounded, Option.bind_eq_bind]
  cases chosen : pizzeria.next with
  | none => rfl
  | some statement =>
      obtain ⟨action, call⟩ := statement
      simp only [Option.bind_some, ← perform_unbounded roomy reached chosen]
      cases pizzeria.perform nCooks limit action <;> rfl

/-- A kitchen takes the same step with and without the limit. -/
theorem kitchen_unbounded (roomy : Roomy nCooks limit)
    {pizzeria : Pizzeria (KitchenWorker.process nCooks limit)}
    (reached : (machine (KitchenWorker.process nCooks limit) nCooks limit).Reachable pizzeria)
    (id : Nat) (label : KitchenWorker.Label nCooks) :
    (pizzeria.step nCooks limit (.kitchen id label)).map unbounded =
      pizzeria.unbounded.step nCooks none (.kitchen id label) := by
  have same : id < pizzeria.nextKitchenId →
      KitchenWorker.step limit pizzeria.now (pizzeria.sites id) label =
        KitchenWorker.step none pizzeria.now (pizzeria.sites id) label := by
    intro spawned
    cases runs : (pizzeria.sites id).process.hasExited with
    | false => exact KitchenWorker.step_none (roomy.hasRoom (length_results_le reached spawned runs)) label
    | true =>
        have valid : (pizzeria.sites id).process.Valid :=
          Kitchen.valid_of_reachable (kitchen_of_reachable reached id)
        rw [KitchenWorker.step_of_exited valid runs, KitchenWorker.step_of_exited valid runs]
  change Option.map unbounded (if id < pizzeria.nextKitchenId then _ else none) =
    if id < pizzeria.nextKitchenId then _ else none
  split
  · rename_i spawned
    change Option.map unbounded (Option.map _ (KitchenWorker.step limit _ _ label)) =
      Option.map _ (KitchenWorker.step none pizzeria.now (pizzeria.sites id) label)
    rw [same spawned]
    cases KitchenWorker.step none pizzeria.now (pizzeria.sites id) label <;> rfl
  · rfl

/-- Each step of a roomy program is the step of the program without a limit. -/
theorem agreement_unbounded (roomy : Roomy nCooks limit) :
    Machine.Agreement (machine (KitchenWorker.process nCooks limit) nCooks limit)
      (machine (KitchenWorker.process nCooks none) nCooks none) unbounded
      PizzeriaLabel.unbounded where
  initial := rfl
  steps {pizzeria} label reached := by
    have idle : pizzeria.unbounded.call = pizzeria.call := rfl
    cases label with
    | order orders =>
        simp only [machine, step, PizzeriaLabel.unbounded, idle]
        split
        · change Option.map unbounded (Option.map _ (pizzeria.ledger.orderCallback orders)) =
            Option.map _ (pizzeria.ledger.orderCallback orders)
          cases pizzeria.ledger.orderCallback orders <;> rfl
        · rfl
    | status | poll | close =>
        simp only [machine, step, PizzeriaLabel.unbounded, idle]
        split <;> rfl
    | reception => exact reception_unbounded roomy reached
    | kitchen id label => exact kitchen_unbounded roomy reached id label
    | elapse => rfl

/-- With room for its packets the program has the same runs as without a limit. -/
theorem run_of_roomy (roomy : Roomy nCooks limit)
    (labels : List (PizzeriaLabel (KitchenWorker.process nCooks limit))) :
    ((machine (KitchenWorker.process nCooks limit) nCooks limit).run (fun _ _ => true)
        (machine (KitchenWorker.process nCooks limit) nCooks limit).initial labels).map unbounded =
      (machine (KitchenWorker.process nCooks none) nCooks none).run (fun _ _ => true)
        (machine (KitchenWorker.process nCooks none) nCooks none).initial
        (labels.map PizzeriaLabel.unbounded) :=
  (agreement_unbounded roomy).run .initial labels

/-- A run of a whole service is the run of the program without a limit. -/
theorem run_of_roomy_service :
    Roomy 1 (some 10) ∧
      ((machine (KitchenWorker.process 1 (some 10)) 1 (some 10)).run (fun _ _ => true)
          (machine (KitchenWorker.process 1 (some 10)) 1 (some 10)).initial serviceLabels).map
            unbounded =
        (machine (KitchenWorker.process 1 none) 1 none).run (fun _ _ => true)
          (machine (KitchenWorker.process 1 none) 1 none).initial
          (serviceLabels.map PizzeriaLabel.unbounded) :=
  ⟨roomy_service, run_of_roomy roomy_service serviceLabels⟩

end Pizzeria

end Plazza
