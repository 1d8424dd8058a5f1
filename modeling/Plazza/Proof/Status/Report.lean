import Plazza.Proof.Status.Answers

namespace Plazza
open Plazza.Foundation

namespace Pizzeria

variable {nCooks : Nat} {limit : Option Nat}

/-- A call of `getStatus` returns once no reply is awaited. -/
theorem next_report {P : KitchenProcess} {pizzeria : Pizzeria P} {call : Call}
    (chosen : pizzeria.next = some (.report, call)) : pizzeria.call = .polling [] [] := by
  unfold next at chosen
  repeat' split at chosen
  all_goals cases chosen
  assumption

/-- Only the end of `getStatus` adds a result: the status of each live kitchen. -/
theorem reports_of_step {P : KitchenProcess} {pizzeria next : Pizzeria P} {label : PizzeriaLabel P}
    (taken : pizzeria.step nCooks limit label = some next)
    (returned : next.reports ≠ pizzeria.reports) :
    pizzeria.call = .polling [] [] ∧ next.reports = pizzeria.reports ++
      [(pizzeria.kitchens.filter KitchenHandle.alive).map KitchenHandle.status] := by
  cases label with
  | reception =>
      obtain ⟨⟨action, call⟩, chosen, taken⟩ := Option.bind_eq_some_iff.mp taken
      obtain ⟨middle, performed, same⟩ := Option.bind_eq_some_iff.mp taken
      obtain rfl := Option.some.inj same
      cases action with
      | report =>
          cases performed
          exact ⟨next_report chosen, rfl⟩
      | apply index operation =>
          obtain ⟨kitchen, found, performed⟩ := Option.bind_eq_some_iff.mp performed
          obtain ⟨outcome, ran, same⟩ := Option.bind_eq_some_iff.mp performed
          obtain rfl := Option.some.inj same
          exact absurd (reports_record _ _) returned
      | skip | erase | spawn | destroy =>
          cases performed
          exact absurd rfl returned
  | order | status | poll | close | kitchen | elapse =>
      cases transition_of_step taken
      exact absurd rfl returned

/-- The result of a call of `getStatus` has one status of each live kitchen. The status shows one
execution of `sendStatusResponse`, which has served the request of this call. -/
structure Report (nCooks : Nat) (pizzeria : Pizzeria (KitchenWorker.process nCooks limit))
    (exchanges : Nat → Exchange) (result : List KitchenStatus) : Prop where
  distinct : (result.map KitchenStatus.id).Nodup
  served : ∀ status ∈ result, ∃ kitchen ∈ pizzeria.kitchens, kitchen.alive = true ∧
    status.id = kitchen.id ∧ ∃ response ∈ (exchanges kitchen.id).responses.getLast?,
      response.call = pizzeria.reports.length ∧ response.Complete nCooks ∧ response.ShownBy status
  alive : ∀ kitchen ∈ pizzeria.kitchens, kitchen.alive = true →
    ∃ status ∈ result, status.id = kitchen.id
  running : ∀ id < pizzeria.nextKitchenId,
    (KitchenWorker.process nCooks limit).exited (pizzeria.sites id).process = false →
      ∃ status ∈ result, status.id = id

/-- Once the pass is over each live kitchen shows its response to the request of this call. -/
theorem Consulted.served {pizzeria : Pizzeria (KitchenWorker.process nCooks limit)}
    {exchanges : Nat → Exchange} (consulted : pizzeria.Consulted exchanges)
    (ended : pizzeria.call = .polling [] []) {kitchen : KitchenHandle}
    (member : kitchen ∈ pizzeria.kitchens) (alive : kitchen.alive = true) :
    kitchen.status.id = kitchen.id ∧
      ∃ response ∈ (exchanges kitchen.id).responses.getLast?,
        response.call = pizzeria.reports.length ∧ response.Complete nCooks ∧
          response.ShownBy kitchen.status := by
  have truthful := consulted.truthful kitchen.id
  have replied := consulted.replied member alive (by rw [ended]; rfl)
  obtain ⟨position, here⟩ := List.mem_iff_getElem?.mp member
  have current := consulted.current position kitchen here alive (by rw [ended]; trivial)
  have calls : (exchanges kitchen.id).responses.map Response.call =
      (exchanges kitchen.id).requests := by
    rw [truthful.calls, replied.all, List.take_length]
  rw [← calls, List.getLast?_map] at current
  obtain ⟨response, last, call⟩ := Option.map_eq_some_iff.mp current
  exact ⟨replied.id, response, last, call,
    truthful.complete response (List.mem_of_getLast? last), replied.shown response last⟩

/-- Every call of `getStatus` that returns reports each live kitchen once with its response to the
request of this call. -/
theorem report_of_reachable
    {state next : Pizzeria (KitchenWorker.process nCooks limit) × (Nat → Exchange)}
    {label : PizzeriaLabel (KitchenWorker.process nCooks limit)}
    (reached : (exchanging nCooks limit).Reachable state)
    (taken : (exchanging nCooks limit).step state label = some next)
    (returned : next.1.reports ≠ state.1.reports) :
    ∃ result, next.1.reports = state.1.reports ++ [result] ∧
      Report nCooks state.1 state.2 result := by
  obtain ⟨stepped, _⟩ := Machine.withHistory_step.mp taken
  obtain ⟨ended, reports⟩ := reports_of_step stepped returned
  have consulted := consulted_of_reachable reached
  have contract := KitchenWorker.contract nCooks limit
  have registered := registered_of_reachable contract reached.forget
  have balanced := balanced_of_reachable contract reached.forget
  have closing := closing_of_reachable contract reached.forget
  have listed : ∀ kitchen ∈ state.1.kitchens, kitchen.alive = true →
      ∃ status ∈ (state.1.kitchens.filter KitchenHandle.alive).map KitchenHandle.status,
        status.id = kitchen.id := by
    intro kitchen member alive
    exact ⟨kitchen.status, List.mem_map_of_mem (List.mem_filter.mpr ⟨member, alive⟩),
      (consulted.served ended member alive).1⟩
  refine ⟨_, reports, ?_, ?_, listed, ?_⟩
  · have ids : ((state.1.kitchens.filter KitchenHandle.alive).map KitchenHandle.status).map
        KitchenStatus.id = (state.1.kitchens.filter KitchenHandle.alive).map KitchenHandle.id := by
      rw [List.map_map]
      refine List.map_congr_left fun kitchen member => ?_
      obtain ⟨inside, alive⟩ := List.mem_filter.mp member
      exact (consulted.served ended inside alive).1
    rw [ids]
    exact registered.ids.sublist (List.filter_sublist.map _)
  · intro status member
    obtain ⟨kitchen, kept, rfl⟩ := List.mem_map.mp member
    obtain ⟨inside, alive⟩ := List.mem_filter.mp kept
    obtain ⟨id, response⟩ := consulted.served ended inside alive
    exact ⟨kitchen, inside, alive, id, response⟩
  · intro id spawned stays
    have present : ∃ kitchen ∈ state.1.kitchens, kitchen.id = id := by
      by_contra absent
      push Not at absent
      rw [closing.gone id spawned absent] at stays
      cases stays
    obtain ⟨kitchen, member, rfl⟩ := present
    refine listed kitchen member ?_
    by_contra dead
    rw [(balanced.accounts kitchen member).dead (by simpa using dead)] at stays
    cases stays

/-- A kitchen receives a pizza and answers the request of the first call of `getStatus`. -/
def answeredRun : List (PizzeriaLabel (KitchenWorker.process 1 none)) :=
  .order [⟨.margarita, .s, 1⟩] :: KitchenWorker.receptionSteps 1 4 ++
    KitchenWorker.mainSteps 1 0 6 ++ .status :: KitchenWorker.receptionSteps 1 2 ++
      .elapse kPollInterval :: KitchenWorker.mainSteps 1 0 8 ++ KitchenWorker.receptionSteps 1 4

/-- The first call of `getStatus` reports the only kitchen. -/
theorem report_after_answer :
    ∃ (state next : Pizzeria (KitchenWorker.process 1 none) × (Nat → Exchange))
      (result : List KitchenStatus), (exchanging 1 none).Reachable state ∧
      (exchanging 1 none).step state .reception = some next ∧
      next.1.reports = state.1.reports ++ [result] ∧ Report 1 state.1 state.2 result := by
  obtain ⟨state, reached, checked⟩ := (exchanging 1 none).exists_reachable answeredRun
    (fun state => state.1.reports.length = 0 ∧
      (((exchanging 1 none).step state .reception).any fun next => next.1.reports.length = 1) = true)
    (by decide)
  obtain ⟨before, returns⟩ := of_decide_eq_true checked
  obtain ⟨next, taken, after⟩ := (Option.any_eq_true _ _).mp returns
  have one : next.1.reports.length = 1 := of_decide_eq_true after
  obtain ⟨result, reports, report⟩ := report_of_reachable reached taken fun same => by
    rw [same, before] at one
    cases one
  exact ⟨state, next, result, reached, taken, reports, report⟩

end Pizzeria

end Plazza
