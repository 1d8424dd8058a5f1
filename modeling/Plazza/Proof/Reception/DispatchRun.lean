import Plazza.Proof.Reception.Conservation
import Plazza.Proof.Reception.Dispatch

namespace Plazza
open Plazza.Foundation

namespace Pizzeria

variable {P : KitchenProcess} {nCooks : Nat} {limit : Option Nat}

/-- The load balancer of the reception with the pizza packets that it has sent. -/
def balancer (nCooks : Nat) (pizzeria : Pizzeria P) (sent : List (Nat × Packet)) : LoadBalancer :=
  ⟨nCooks, pizzeria.kitchens, pizzeria.nextKitchenId, sent⟩

/-- The history takes the pizza packet of each send with the position of its kitchen. -/
def recordSend (pizzeria : Pizzeria P) (label : PizzeriaLabel P) (_next : Pizzeria P)
    (sent : List (Nat × Packet)) : List (Nat × Packet) :=
  match label, pizzeria.next with
  | .reception, some (.apply index (.send pizza _), _) =>
      sent ++ [(index, LoadBalancer.pizzaPacket pizza)]
  | _, _ => sent

/-- The load balancer at the end of the running loops. -/
def dispatched (nCooks : Nat) (pizzeria : Pizzeria P) (sent : List (Nat × Packet)) : LoadBalancer :=
  match pizzeria.call with
  | .dispatching todo _ false =>
      todo.foldl LoadBalancer.assignPizza (pizzeria.balancer nCooks sent)
  | .dispatching (pizza :: rest) _ true =>
      rest.foldl LoadBalancer.assignPizza
        ((pizzeria.balancer nCooks sent).sendPizza (pizzeria.kitchens.length - 1) pizza)
  | _ => pizzeria.balancer nCooks sent

/-- The reception is in the loops or has just left them. -/
def InLoops (pizzeria : Pizzeria P) : Prop :=
  pizzeria.call = .idle ∨ ∃ todo origin spawned, pizzeria.call = .dispatching todo origin spawned

/-- The loops end, send a pizza or spawn a kitchen for the next one. -/
theorem next_dispatching {pizzeria : Pizzeria P} {action : Action} {call : Call} {todo : List Pizza}
    {origin : Int} {spawned : Bool} (running : pizzeria.call = .dispatching todo origin spawned)
    (chosen : pizzeria.next = some (action, call)) :
    todo = [] ∧ action = .skip ∧ call = .idle ∨ ∃ pizza rest, todo = pizza :: rest ∧
      ((spawned = true ∧ action = .apply (pizzeria.kitchens.length - 1) (.send pizza origin) ∧
          call = .dispatching rest origin false) ∨
        (spawned = false ∧ ∃ index, bestKitchen pizzeria.kitchens = some index ∧
          action = .apply index (.send pizza origin) ∧ call = .dispatching rest origin false) ∨
        (spawned = false ∧ bestKitchen pizzeria.kitchens = none ∧ action = .spawn ∧
          call = .dispatching (pizza :: rest) origin true)) := by
  rw [next, running] at chosen
  cases todo with
  | nil =>
      cases spawned <;> cases chosen <;> exact .inl ⟨rfl, rfl, rfl⟩
  | cons pizza rest =>
      refine .inr ⟨pizza, rest, rfl, ?_⟩
      cases spawned with
      | true =>
          cases chosen
          exact .inl ⟨rfl, rfl, rfl⟩
      | false =>
          dsimp only at chosen
          split at chosen <;> cases chosen
          · exact .inr (.inr ⟨rfl, ‹_›, rfl, rfl⟩)
          · exact .inr (.inl ⟨rfl, _, ‹_›, rfl, rfl⟩)

/-- A sent pizza leaves the load balancer of the send. -/
theorem balancer_send {pizzeria : Pizzeria P} {index : Nat} {kitchen : KitchenHandle}
    {outcome : Outcome P.State} {pizza : Pizza} {origin : Int} {call : Call}
    (found : pizzeria.kitchens[index]? = some kitchen)
    (effect : (Operation.send pizza origin).Effect kitchen (pizzeria.sites kitchen.id) outcome)
    (sent : List (Nat × Packet)) :
    balancer nCooks { (pizzeria.touch index outcome.kitchen outcome.site).record outcome.report with
        call } (sent ++ [(index, LoadBalancer.pizzaPacket pizza)]) =
      (pizzeria.balancer nCooks sent).sendPizza index pizza := by
  cases effect
  have here : (pizzeria.balancer nCooks sent).kitchens[index]? = some kitchen := found
  rw [LoadBalancer.sendPizza_eq here]
  rfl

/-- A step in the loops does not change their end. -/
theorem dispatched_step {pizzeria next : Pizzeria P} {label : PizzeriaLabel P}
    (moved : Transition nCooks limit pizzeria label next) {todo : List Pizza} {origin : Int}
    {spawned : Bool} (running : pizzeria.call = .dispatching todo origin spawned)
    (sent : List (Nat × Packet)) :
    next.InLoops ∧ next.dispatched nCooks (pizzeria.recordSend label next sent) =
      pizzeria.dispatched nCooks sent := by
  cases moved with
  | order _ _ _ idle | status idle | poll idle | close idle => rw [running] at idle; cases idle
  | kitchen => exact ⟨.inr ⟨todo, origin, spawned, running⟩, rfl⟩
  | elapse => exact ⟨.inr ⟨todo, origin, spawned, running⟩, rfl⟩
  | skip call chosen =>
      obtain ⟨rfl, _, rfl⟩ | ⟨pizza, rest, rfl, ⟨_, same, _⟩ | ⟨_, _, _, same, _⟩ | ⟨_, _, same, _⟩⟩ :=
        next_dispatching running chosen
      · refine ⟨.inl rfl, ?_⟩
        simp only [dispatched, recordSend, chosen, running]
        cases spawned <;> rfl
      all_goals cases same
  | apply index operation call kitchen outcome chosen found effect =>
      obtain ⟨_, same, _⟩ | ⟨pizza, rest, rfl, ⟨rfl, same, rfl⟩ | ⟨rfl, _, best, same, rfl⟩ |
        ⟨_, _, same, _⟩⟩ := next_dispatching running chosen
      · cases same
      · obtain ⟨rfl, rfl⟩ := Action.apply.inj same
        refine ⟨.inr ⟨rest, origin, false, rfl⟩, ?_⟩
        simp only [dispatched, recordSend, chosen, running, balancer_send found effect]
      · obtain ⟨rfl, rfl⟩ := Action.apply.inj same
        refine ⟨.inr ⟨rest, origin, false, rfl⟩, ?_⟩
        simp only [dispatched, recordSend, chosen, running, balancer_send found effect,
          List.foldl_cons]
        rw [LoadBalancer.assignPizza]
        simp only [balancer, best]
      · cases same
  | spawn call chosen =>
      obtain ⟨_, same, _⟩ | ⟨pizza, rest, rfl, ⟨_, same, _⟩ | ⟨_, _, _, same, _⟩ |
        ⟨rfl, none_left, _, rfl⟩⟩ := next_dispatching running chosen
      · cases same
      · cases same
      · cases same
      · refine ⟨.inr ⟨pizza :: rest, origin, true, rfl⟩, ?_⟩
        simp only [dispatched, recordSend, chosen, running, List.foldl_cons]
        rw [LoadBalancer.assignPizza]
        simp only [balancer, none_left]
        rfl
  | erase call chosen | report call _ chosen | destroy call chosen =>
      obtain ⟨_, same, _⟩ | ⟨_, _, _, ⟨_, same, _⟩ | ⟨_, _, _, same, _⟩ | ⟨_, _, same, _⟩⟩ :=
        next_dispatching running chosen
      all_goals cases same

/-- The machine of a reception that is about to enter the loops, with the history of its sends. -/
def loops (P : KitchenProcess) (nCooks : Nat) (limit : Option Nat) (first : Pizzeria P) :
    Machine (Pizzeria P × List (Nat × Packet)) (PizzeriaLabel P) :=
  ((machine P nCooks limit).withHistory recordSend []).startingAt (first, [])

/-- However the kitchens move meanwhile, the loops end as `dispatch` does. -/
theorem dispatch_of_loops {first : Pizzeria P} {orders : List PizzaOrder} {origin : Int}
    (begins : first.call = .dispatching (expand orders) origin false)
    {state : Pizzeria P × List (Nat × Packet)}
    (reached : (loops P nCooks limit first).ReachableUnder (fun state _ => state.1.call ≠ .idle)
      state) (ends : state.1.call = .idle) :
    state.1.balancer nCooks state.2 = (first.balancer nCooks []).dispatch orders := by
  have whole : state.1.InLoops ∧
      state.1.dispatched nCooks state.2 = (first.balancer nCooks []).dispatch orders := by
    refine reached.invariant (motive := fun state => state.1.InLoops ∧
      state.1.dispatched nCooks state.2 = (first.balancer nCooks []).dispatch orders) ?_ ?_
    · refine ⟨.inr ⟨_, _, _, begins⟩, ?_⟩
      simp only [dispatched, loops, Machine.startingAt, begins, LoadBalancer.dispatch_eq]
    · intro state next label _ kept busy taken
      obtain ⟨after, stepped, rfl⟩ := Option.map_eq_some_iff.mp taken
      obtain idle | ⟨todo, origin, spawned, running⟩ := kept.1
      · exact absurd idle busy
      · obtain ⟨inside, same⟩ := dispatched_step (transition_of_step stepped) running state.2
        exact ⟨inside, same.trans kept.2⟩
  have result := whole.2
  rwa [dispatched, ends] at result

/-- Every call of `dispatch` of a reachable reception serves its orders after `updateKitchens`. -/
theorem served_of_reachable (contract : P.Contract) {before first : Pizzeria P}
    (reached : (machine P nCooks limit).Reachable before) (positive : 0 < 2 * nCooks % 2 ^ 64)
    {orders : List PizzaOrder} {origin : Int}
    (chosen : before.next = some (.erase, .dispatching (expand orders) origin false))
    (updates : before.step nCooks limit .reception = some first)
    {state : Pizzeria P × List (Nat × Packet)}
    (ran : (loops P nCooks limit first).ReachableUnder (fun state _ => state.1.call ≠ .idle) state)
    (ends : state.1.call = .idle) :
    ∃ sends, LoadBalancer.Served (first.balancer nCooks []) (state.1.balancer nCooks state.2)
      orders sends := by
  obtain ⟨call, performed, rfl⟩ : ∃ call, call = .dispatching (expand orders) origin false ∧
      first = { before with kitchens := before.kitchens.filter KitchenHandle.alive, call } := by
    simp only [step, chosen, perform, Option.bind_eq_bind, Option.bind_some, Option.pure_def] at updates
    exact ⟨_, rfl, (Option.some.inj updates).symm⟩
  have accounts := (balanced_of_reachable contract reached).accounts
  rw [dispatch_of_loops performed ran ends]
  have updated : (balancer nCooks { before with
      kitchens := before.kitchens.filter KitchenHandle.alive, call } []).Updated := by
    intro kitchen member
    obtain ⟨listed, alive⟩ := List.mem_filter.mp member
    exact ⟨alive, (accounts kitchen listed).capacity⟩
  refine LoadBalancer.served_dispatch updated positive ?_ orders
  intro kitchen member
  obtain ⟨listed, _⟩ := List.mem_filter.mp member
  have bounded := (accounts kitchen listed).bounded
  rw [(accounts kitchen listed).capacity] at bounded
  exact bounded.trans (Nat.max_le.mpr ⟨positive, le_rfl⟩)

end Pizzeria

end Plazza
