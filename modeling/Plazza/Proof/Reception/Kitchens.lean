import Plazza.Proof.Kitchen.Cooking
import Plazza.Proof.Kitchen.Idle
import Plazza.Proof.Reception.Frames

namespace Plazza
open Plazza.Foundation

namespace Kitchen

variable {nCooks : Nat} {limit : Option Nat} {now : Nat}

/-- The environment may send a packet at any time. -/
theorem reachable_deliver {site : Site (KitchenWorker nCooks)}
    (reached : (machine nCooks limit).Reachable ⟨site, now⟩) (packet : Packet) :
    (machine nCooks limit).Reachable
      ⟨{ site with orderQueue := site.orderQueue.send packet }, now⟩ := by
  have taken : (machine nCooks limit).step ⟨site, now⟩ (.deliver packet) =
    some ⟨{ site with orderQueue := site.orderQueue.send packet }, now⟩ := rfl
  exact .step reached trivial taken

/-- The clock may advance at any time. -/
theorem reachable_elapse {site : Site (KitchenWorker nCooks)}
    (reached : (machine nCooks limit).Reachable ⟨site, now⟩) (duration : Nat) :
    (machine nCooks limit).Reachable ⟨site, now + duration⟩ := by
  have taken : (machine nCooks limit).step ⟨site, now⟩ (.elapse duration) =
    some ⟨site, now + duration⟩ := rfl
  exact .step reached trivial taken

/-- An operation of the reception is a step of the environment. -/
theorem reachable_effect {operation : Operation} {handle : KitchenHandle}
    {site : Site (KitchenWorker.process nCooks limit).State}
    {outcome : Outcome (KitchenWorker.process nCooks limit).State}
    (effect : operation.Effect handle site outcome)
    (reached : (machine nCooks limit).Reachable ⟨site, now⟩) :
    (machine nCooks limit).Reachable ⟨outcome.site, now⟩ := by
  cases effect with
  | handle packet resultQueue next report received exits handled =>
      have taken : (machine nCooks limit).step ⟨site, now⟩ .collect =
          some ⟨{ site with resultQueue }, now⟩ :=
        Option.map_eq_some_iff.mpr ⟨_, received, rfl⟩
      exact .step reached trivial taken
  | send | request | close => exact reachable_deliver reached _
  | reap => exact reached

end Kitchen

namespace Pizzeria

variable {nCooks : Nat} {limit : Option Nat}

@[simp] theorem now_record {P : KitchenProcess} (pizzeria : Pizzeria P)
    (report : Option DoneReport) : (pizzeria.record report).now = pizzeria.now := by
  cases report <;> rfl

/-- Every site of the program is a kitchen in the environment that the reception makes. -/
theorem kitchen_of_reachable
    {guard : Pizzeria (KitchenWorker.process nCooks limit) →
      PizzeriaLabel (KitchenWorker.process nCooks limit) → Prop}
    {pizzeria : Pizzeria (KitchenWorker.process nCooks limit)}
    (reached : (machine (KitchenWorker.process nCooks limit) nCooks limit).ReachableUnder guard
      pizzeria) (id : Nat) :
    (Kitchen.machine nCooks limit).Reachable ⟨pizzeria.sites id, pizzeria.now⟩ := by
  revert id
  refine reached.invariant (motive := fun pizzeria => ∀ id,
    (Kitchen.machine nCooks limit).Reachable ⟨pizzeria.sites id, pizzeria.now⟩)
    (fun _ => .initial) ?_
  intro pizzeria next label _ kitchens _ taken
  have moved := transition_of_step taken
  have opened : (Kitchen.machine nCooks limit).Reachable
      ⟨Site.fresh (KitchenWorker.new nCooks), pizzeria.now⟩ := by
    have first : (Kitchen.machine nCooks limit).Reachable
        ⟨Site.fresh (KitchenWorker.new nCooks), 0⟩ := .initial
    have elapsed := Kitchen.reachable_elapse first pizzeria.now
    rwa [Nat.zero_add] at elapsed
  have sites : ∀ id, (Kitchen.machine nCooks limit).Reachable ⟨next.sites id, pizzeria.now⟩ := by
    refine forall_sites
      (fun _ site => (Kitchen.machine nCooks limit).Reachable ⟨site, pizzeria.now⟩) moved opened
      (fun _ _ _ effect reached => Kitchen.reachable_effect effect reached) ?_ kitchens
    intro id label site _ _ stepped reached
    have taken : (Kitchen.machine nCooks limit).step ⟨pizzeria.sites id, pizzeria.now⟩
        (.process label) = some ⟨site, pizzeria.now⟩ :=
      Option.map_eq_some_iff.mpr ⟨site, stepped, rfl⟩
    exact .step reached trivial taken
  cases moved with
  | apply index operation call handle outcome chosen found effect =>
      simp only [now_record]
      exact sites
  | elapse duration => exact fun id => Kitchen.reachable_elapse (sites id) duration
  | order | status | poll | close | skip | erase | spawn | report | destroy | kitchen => exact sites

end Pizzeria

end Plazza
