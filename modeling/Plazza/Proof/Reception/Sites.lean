import Plazza.Proof.Reception.Kitchens

namespace Plazza
open Plazza.Foundation

/-- What an operation of the reception is for the kitchen: a packet in its order queue or the receipt
of a result. -/
def Operation.event {nCooks : Nat} : Operation → Option (KitchenLabel nCooks)
  | handle => some .collect
  | send pizza origin => some (.deliver { type := .pizza, pizza := pack pizza, origin })
  | request => some (.deliver { type := .statusRequest })
  | close => some (.deliver { type := .shutdown })
  | reap => none

namespace Pizzeria

variable {nCooks : Nat} {limit : Option Nat}

/-- The kitchen of the id with the clock of the system. -/
def kitchen (id : Nat) (pizzeria : Pizzeria (KitchenWorker.process nCooks limit)) :
    Kitchen nCooks :=
  ⟨pizzeria.sites id, pizzeria.now⟩

/-- The step of one kitchen that a step of the system makes. -/
def observe (id : Nat) (pizzeria : Pizzeria (KitchenWorker.process nCooks limit)) :
    PizzeriaLabel (KitchenWorker.process nCooks limit) → Option (KitchenLabel nCooks)
  | .kitchen moved label => if moved = id then some (.process label) else none
  | .elapse duration => some (.elapse duration)
  | .reception =>
      match pizzeria.next with
      | some (.apply index operation, _) =>
          match pizzeria.kitchens[index]? with
          | some handle => if handle.id = id then operation.event else none
          | none => none
      | _ => none
  | .order _ | .status | .poll | .close => none

/-- An operation of the reception is a step of the kitchen. -/
theorem follows_effect {operation : Operation} {handle : KitchenHandle} {now : Nat}
    {site : Site (KitchenWorker.process nCooks limit).State}
    {outcome : Outcome (KitchenWorker.process nCooks limit).State}
    (effect : operation.Effect handle site outcome) :
    (Kitchen.machine nCooks limit).Follows ⟨site, now⟩ operation.event ⟨outcome.site, now⟩ := by
  cases effect with
  | handle packet resultQueue next report received exits handled =>
      exact Option.map_eq_some_iff.mpr ⟨_, received, rfl⟩
  | send | request | close | reap => rfl

/-- Each kitchen of the system is a kitchen in the environment that the reception makes. -/
theorem refines_kitchen (nCooks : Nat) (limit : Option Nat) (id : Nat) :
    Machine.Refinement (machine (KitchenWorker.process nCooks limit) nCooks limit)
      (Kitchen.machine nCooks limit) (kitchen id) (observe id) := by
  refine .of_follows rfl fun {pizzeria next label} reached taken => ?_
  have registered := registered_of_reachable (KitchenWorker.contract nCooks limit) reached
  cases transition_of_step taken with
  | order | status | poll | close => rfl
  | skip call chosen | erase call chosen | report call reports chosen | destroy call chosen =>
      simp only [observe, chosen]
      rfl
  | apply index operation call handle outcome chosen found effect =>
      simp only [observe, chosen, found, kitchen, touch, sites_record, now_record, effect.id]
      split
      · rename_i same
        subst same
        rw [Function.update_self]
        exact follows_effect effect
      · rename_i apart
        rw [Function.update_of_ne (Ne.symm apart)]
        rfl
  | spawn call chosen =>
      simp only [observe, chosen, kitchen]
      by_cases same : id = pizzeria.nextKitchenId
      · subst same
        rw [Function.update_self, registered.unspawned _ le_rfl]
        rfl
      · rw [Function.update_of_ne same]
        rfl
  | kitchen moved label site spawned stepped =>
      simp only [observe, kitchen]
      split
      · rename_i same
        subst same
        rw [Function.update_self]
        exact Option.map_eq_some_iff.mpr ⟨site, stepped, rfl⟩
      · rename_i apart
        rw [Function.update_of_ne (Ne.symm apart)]
        rfl
  | elapse duration => rfl

end Pizzeria

end Plazza
