import Plazza.Construction.Kitchen
import Plazza.Proof.Kitchen.Worker

namespace Plazza
open Plazza.Foundation

namespace Kitchen

variable {nCooks : Nat} {limit : Option Nat}

/-- A step moves the process, or leaves it alone. -/
theorem step_cases {kitchen next : Kitchen nCooks} {label : KitchenLabel nCooks}
    (taken : kitchen.step limit label = some next) :
    (∃ moved site, label = .process moved ∧ next = { kitchen with site } ∧
      KitchenWorker.Transition limit kitchen.now kitchen.site moved site) ∨
    (∀ moved, label ≠ .process moved) ∧ next.site.process = kitchen.site.process ∧
      kitchen.now ≤ next.now := by
  cases label with
  | deliver packet =>
      cases taken
      exact .inr ⟨by simp, rfl, le_rfl⟩
  | collect =>
      obtain ⟨received, _, rfl⟩ := Option.map_eq_some_iff.mp taken
      exact .inr ⟨by simp, rfl, le_rfl⟩
  | process moved =>
      obtain ⟨site, stepped, rfl⟩ := Option.map_eq_some_iff.mp taken
      exact .inl ⟨moved, site, rfl, rfl, KitchenWorker.transition_of_step stepped⟩
  | elapse duration =>
      cases taken
      exact .inr ⟨by simp, rfl, Nat.le_add_right _ _⟩

/-- Whatever the environment does, the control of the process agrees with its pool. -/
theorem valid_of_reachable {kitchen : Kitchen nCooks}
    (reached : (machine nCooks limit).Reachable kitchen) : kitchen.site.process.Valid := by
  refine reached.invariant (motive := fun kitchen => kitchen.site.process.Valid)
    (KitchenWorker.valid_new nCooks) ?_
  intro kitchen next label _ valid _ taken
  rcases step_cases taken with ⟨moved, site, _, rfl, stepped⟩ | ⟨_, same, _⟩
  · exact stepped.valid valid
  · exact same ▸ valid

end Kitchen

end Plazza
