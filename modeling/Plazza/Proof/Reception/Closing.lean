import Plazza.Proof.Reception.Conservation

namespace Plazza
open Plazza.Foundation

/-- The reception is in its own shutdown. -/
def Call.ending : Call → Bool
  | shuttingDown _ | awaiting _ | destroyed => true
  | _ => false

/-- The loop of `shutdown` has passed the kitchens below this position. -/
def Call.passed : Call → Nat
  | shuttingDown index | awaiting index => index
  | _ => 0

namespace Pizzeria

variable {P : KitchenProcess} {nCooks : Nat} {limit : Option Nat} {contract : P.Contract}

/-- A kitchen leaves the list only after its process. -/
structure Closing (pizzeria : Pizzeria P) : Prop where
  passed : ∀ position < pizzeria.call.passed, ∀ kitchen,
    pizzeria.kitchens[position]? = some kitchen → kitchen.alive = false
  gone : ∀ id < pizzeria.nextKitchenId, (∀ kitchen ∈ pizzeria.kitchens, kitchen.id ≠ id) →
    P.exited (pizzeria.sites id).process = true

/-- The loop of `shutdown` closes a live kitchen, awaits it and passes it, and passes a dead one. -/
theorem next_passed {pizzeria : Pizzeria P} {action : Action} {call : Call}
    (chosen : pizzeria.next = some (action, call)) :
    call.passed = 0 ∨
      (call.passed = pizzeria.call.passed ∧
        action = .apply pizzeria.call.passed .close) ∨
      call.passed = pizzeria.call.passed + 1 ∧
        (action = .apply pizzeria.call.passed .reap ∨
          action = .skip ∧ ∀ kitchen,
            pizzeria.kitchens[pizzeria.call.passed]? = some kitchen → kitchen.alive = false) := by
  unfold next at chosen
  split at chosen
  case h_12 index at' =>
      rw [at']
      split at chosen
      · cases chosen
        exact .inl rfl
      · rename_i kitchen found
        split at chosen <;> cases chosen
        · exact .inr (.inl ⟨rfl, rfl⟩)
        · rename_i dead
          refine .inr (.inr ⟨rfl, .inr ⟨rfl, fun other same => ?_⟩⟩)
          obtain rfl := Option.some.inj (found.symm.trans same)
          simpa using dead
  case h_13 index at' =>
      rw [at']
      cases chosen
      exact .inr (.inr ⟨rfl, .inl rfl⟩)
  all_goals
    repeat' split at chosen
    all_goals cases chosen
    all_goals exact .inl rfl

/-- Only the shutdown of the reception closes and reaps a kitchen, and no statement leaves it. -/
theorem next_ending {pizzeria : Pizzeria P} {action : Action} {call : Call}
    (chosen : pizzeria.next = some (action, call)) :
    call.ending = pizzeria.call.ending ∧
      (∀ index, action = .apply index .close ∨ action = .apply index .reap →
        pizzeria.call.ending = true) := by
  unfold next at chosen
  split at chosen
  all_goals
    rename_i at'
    rw [at']
    repeat' split at chosen
    all_goals cases chosen
  all_goals exact ⟨rfl, by first | exact fun _ _ => rfl | simp⟩

/-- The shutdown of the reception never ends. -/
theorem ending_of_step {pizzeria next : Pizzeria P} {label : PizzeriaLabel P}
    (moved : Transition nCooks limit pizzeria label next)
    (ending : pizzeria.call.ending = true) : next.call.ending = true := by
  cases moved with
  | order _ _ _ idle | status idle | poll idle | close idle =>
      rw [idle] at ending
      cases ending
  | skip _ chosen | apply _ _ _ _ _ chosen | erase _ chosen | spawn _ chosen
  | report _ _ chosen | destroy _ chosen => exact (next_ending chosen).1.trans ending
  | kitchen | elapse => exact ending

/-- The handles are only destroyed after the loop of `shutdown` has passed them all. -/
theorem next_destroy {pizzeria : Pizzeria P} {call : Call}
    (chosen : pizzeria.next = some (.destroy, call)) :
    pizzeria.kitchens.length ≤ pizzeria.call.passed := by
  unfold next at chosen
  split at chosen
  case h_12 index at' =>
      rw [at']
      split at chosen
      · exact List.getElem?_eq_none_iff.mp ‹_›
      · split at chosen <;> cases chosen
  all_goals
    repeat' split at chosen
    all_goals cases chosen

/-- Every step keeps the loop of `shutdown` behind dead kitchens. -/
theorem Closing.passed_step {pizzeria next : Pizzeria P} {label : PizzeriaLabel P}
    (closing : pizzeria.Closing) (moved : Transition nCooks limit pizzeria label next) :
    ∀ position < next.call.passed, ∀ kitchen,
      next.kitchens[position]? = some kitchen → kitchen.alive = false := by
  intro position below kitchen found
  have restarts : ∀ {action : Action} {call : Call}, pizzeria.next = some (action, call) →
      (∀ index operation, action ≠ .apply index operation) → action ≠ .skip →
      call.passed = 0 := by
    intro action call chosen notApply notSkip
    rcases next_passed chosen with zero | ⟨_, same⟩ | ⟨_, same | ⟨same, _⟩⟩
    · exact zero
    · exact absurd same (notApply _ _)
    · exact absurd same (notApply _ _)
    · exact absurd same notSkip
  cases moved with
  | order | status | poll | close => cases below
  | skip call chosen =>
      rcases next_passed chosen with zero | ⟨_, same⟩ | ⟨more, same | ⟨_, dead⟩⟩
      · simp only [zero] at below
        omega
      · cases same
      · cases same
      · simp only [more] at below
        rcases Nat.lt_succ_iff_lt_or_eq.mp below with earlier | rfl
        · exact closing.passed position earlier kitchen found
        · exact dead kitchen found
  | apply index operation call handle outcome chosen here effect =>
      simp only [touch, kitchens_record] at found
      have earlier : ∀ {moved : Nat}, position < moved → index = moved →
          pizzeria.kitchens[position]? = some kitchen := by
        rintro moved before rfl
        rwa [List.getElem?_set_ne (by omega)] at found
      rcases next_passed chosen with zero | ⟨kept, same⟩ | ⟨more, same | ⟨same, _⟩⟩
      · simp only [zero] at below
        omega
      · simp only [kept] at below
        cases same
        exact closing.passed position below kitchen (earlier below rfl)
      · simp only [more] at below
        cases same
        rcases Nat.lt_succ_iff_lt_or_eq.mp below with before | rfl
        · exact closing.passed position before kitchen (earlier before rfl)
        · cases effect
          obtain ⟨inside, _⟩ := List.getElem?_eq_some_iff.mp here
          rw [List.getElem?_set_self inside] at found
          cases found
          rfl
      · cases same
  | erase call chosen => simp [restarts chosen (by simp) (by simp)] at below
  | spawn call chosen => simp [restarts chosen (by simp) (by simp)] at below
  | report call reports chosen => simp [restarts chosen (by simp) (by simp)] at below
  | destroy => simp at found
  | kitchen | elapse => exact closing.passed position below kitchen found

/-- A property of every site without a handle survives a step when each dead kitchen has it. -/
theorem Closing.forall_gone (property : Site P.State → Prop) {pizzeria next : Pizzeria P}
    {label : PizzeriaLabel P} (closing : pizzeria.Closing)
    (registered : pizzeria.Registered contract)
    (moved : Transition nCooks limit pizzeria label next)
    (dead : ∀ kitchen ∈ pizzeria.kitchens, kitchen.alive = false →
      property (pizzeria.sites kitchen.id))
    (gone : ∀ id < pizzeria.nextKitchenId, (∀ kitchen ∈ pizzeria.kitchens, kitchen.id ≠ id) →
      property (pizzeria.sites id)) :
    ∀ id < next.nextKitchenId, (∀ kitchen ∈ next.kitchens, kitchen.id ≠ id) →
      property (next.sites id) := by
  intro id spawned unlisted
  have removed : id < pizzeria.nextKitchenId →
      (∀ kitchen ∈ pizzeria.kitchens, kitchen.id = id → kitchen.alive = false) →
      property (pizzeria.sites id) := by
    intro spawned allDead
    by_cases listed : ∃ kitchen ∈ pizzeria.kitchens, kitchen.id = id
    · obtain ⟨kitchen, member, rfl⟩ := listed
      exact dead kitchen member (allDead kitchen member rfl)
    · exact gone id spawned fun kitchen member same => listed ⟨kitchen, member, same⟩
  cases moved with
  | apply index operation call handle outcome chosen found effect =>
      simp only [touch, kitchens_record, sites_record, nextKitchenId_record] at spawned unlisted ⊢
      have before : ∀ kitchen ∈ pizzeria.kitchens, kitchen.id ≠ id := by
        intro kitchen member same
        have listed : id ∈ (pizzeria.kitchens.set index outcome.kitchen).map KitchenHandle.id := by
          rw [ids_set found effect.id]
          exact List.mem_map.mpr ⟨kitchen, member, same⟩
        obtain ⟨other, inside, equal⟩ := List.mem_map.mp listed
        exact unlisted other inside equal
      have apart : id ≠ outcome.kitchen.id := fun same =>
        before handle (List.mem_of_getElem? found) (effect.id.symm.trans same.symm)
      rw [Function.update_of_ne apart]
      exact gone id spawned before
  | erase call chosen =>
      refine removed spawned fun kitchen member same => ?_
      by_contra live
      exact unlisted kitchen (List.mem_filter.mpr ⟨member, by simpa using live⟩) same
  | spawn call chosen =>
      have apart : id ≠ pizzeria.nextKitchenId := fun same =>
        unlisted _ (List.mem_append_right _ (List.mem_singleton.mpr rfl)) same.symm
      simp only [Function.update_of_ne apart]
      exact gone id (lt_of_le_of_ne (Nat.le_of_lt_succ spawned) apart)
        fun kitchen member => unlisted kitchen (List.mem_append_left _ member)
  | destroy call chosen =>
      refine removed spawned fun kitchen member _ => ?_
      obtain ⟨position, found⟩ := List.mem_iff_getElem?.mp member
      have inside := (List.getElem?_eq_some_iff.mp found).1
      have passed := lt_of_lt_of_le inside (next_destroy chosen)
      exact closing.passed position passed kitchen found
  | kitchen other label site running taken =>
      have left := closing.gone id spawned unlisted
      have apart : id ≠ other := by
        rintro rfl
        simp [Site.exited_step (registered.honest id) taken] at left
      simp only [Function.update_of_ne apart]
      exact gone id spawned unlisted
  | _ => exact gone id spawned unlisted

/-- Every run keeps both. -/
theorem closing_of_reachable (contract : P.Contract)
    {guard : Pizzeria P → PizzeriaLabel P → Prop} {pizzeria : Pizzeria P}
    (reached : (machine P nCooks limit).ReachableUnder guard pizzeria) : pizzeria.Closing :=
  reached.invariant ⟨nofun, nofun⟩ fun before closing _ taken =>
    ⟨closing.passed_step (transition_of_step taken),
      closing.forall_gone (fun site => P.exited site.process = true)
        (registered_of_reachable contract before) (transition_of_step taken) (fun kitchen member =>
          ((balanced_of_reachable contract before).accounts kitchen member).dead) closing.gone⟩

end Pizzeria

end Plazza
