import Plazza.Construction.SharedStock
import Plazza.Proof.Stock.Consumption

namespace Plazza
open Plazza.Foundation

namespace Stock

/-- Every listed ingredient gets a key. -/
theorem isSome_initial (initialStock : Nat) (ingredient : Ingredient) :
    (initial initialStock ingredient).isSome := by
  have listed : ingredient ∈ Ingredient.kAllIngredients.toList.map Prod.snd := by
    cases ingredient <;> decide
  rw [initial, if_pos listed]
  rfl

/-- A list that is not available lacks a unit of one of its ingredients. -/
theorem exists_missing {stock : Stock} (keys : ∀ ingredient, (stock ingredient).isSome)
    {needed : List Ingredient} (unavailable : stock.allAvailable needed = false) :
    ∃ ingredient ∈ needed, stock ingredient = some 0 := by
  by_contra all
  push Not at all
  have available : stock.allAvailable needed = true := by
    refine allAvailable_iff.mpr fun ingredient member => ?_
    obtain ⟨count, found⟩ := Option.isSome_iff_exists.mp (keys ingredient)
    have nonzero : count ≠ 0 := by
      rintro rfl
      exact all ingredient member found
    rw [units, found]
    exact Nat.pos_of_ne_zero nonzero
  rw [available] at unavailable
  cases unavailable

/-- The consumption leaves an ingredient alone that the list does not name. -/
theorem consume_of_notMem {stock : Stock} {needed : List Ingredient} {ingredient : Ingredient}
    (other : ingredient ∉ needed) : stock.consume needed ingredient = stock ingredient := by
  induction needed generalizing stock with
  | nil => rfl
  | cons taken rest ih =>
      rw [List.mem_cons, not_or] at other
      change (stock.takeUnit taken).consume rest ingredient = _
      rw [ih other.2, takeUnit, Function.update_of_ne other.1]

/-- An available list names no ingredient without a unit. -/
theorem notMem_of_available {stock : Stock} {needed : List Ingredient}
    (available : stock.allAvailable needed = true) {ingredient : Ingredient}
    (missing : stock ingredient = some 0) : ingredient ∉ needed := by
  intro member
  have enough := allAvailable_iff.mp available ingredient member
  rw [units, missing] at enough
  exact Nat.lt_irrefl 0 enough

end Stock

namespace IngredientStock

/-- A section goes on to wait on a running stock that does not cover the list. -/
theorem waits_cases {room : IngredientStock} {needed : List Ingredient}
    (waits : room.waitAndConsumeIngredients needed = none) :
    room.running = true ∧ room.stock.allAvailable needed = false := by
  unfold waitAndConsumeIngredients at waits
  split at waits
  · rename_i blocked
    simpa using blocked
  · split at waits <;> cases waits

/-- A section under the mutex stops nothing. -/
theorem running_of_returned {room next : IngredientStock} {needed : List Ingredient}
    {consumed : Bool} (returned : room.waitAndConsumeIngredients needed = some (consumed, next)) :
    next.running = room.running := by
  unfold waitAndConsumeIngredients at returned
  split at returned
  · cases returned
  · split at returned <;> cases returned <;> rfl

end IngredientStock

namespace SharedStock

variable {nCooks : Nat}

/-- Each waiting cook lacks a unit, and the stopped stock has no waiting cook. -/
structure Adequate (shared : SharedStock nCooks) : Prop where
  keys : ∀ ingredient, (shared.room.stock ingredient).isSome
  running : shared.room.running = true ↔ shared.phase = .serving
  missing : ∀ index needed, shared.cooks index = .waiting needed →
    ∃ ingredient ∈ needed, shared.room.stock ingredient = some 0
  awake : shared.phase = .stopped → ∀ index needed, shared.cooks index ≠ .waiting needed

/-- A broadcast leaves nobody waiting. -/
theorem wake_ne_waiting (point : StockPoint) (needed : List Ingredient) :
    point.wake ≠ .waiting needed := by
  cases point <;> simp [StockPoint.wake]

@[simp] theorem cooks_moveTo (shared : SharedStock nCooks) (index : Fin nCooks) (point : StockPoint) :
    (shared.moveTo index point).cooks = Function.update shared.cooks index point := rfl

@[simp] theorem phase_moveTo (shared : SharedStock nCooks) (index : Fin nCooks) (point : StockPoint) :
    (shared.moveTo index point).phase = shared.phase := rfl

/-- A move to a point without a wait keeps the waiting cooks. -/
theorem waiting_of_moveTo {shared : SharedStock nCooks} {index other : Fin nCooks}
    {point : StockPoint} {needed : List Ingredient} (moves : ∀ needed, point ≠ .waiting needed)
    (waits : (shared.moveTo index point).cooks other = .waiting needed) :
    shared.cooks other = .waiting needed := by
  by_cases same : other = index
  · subst same
    rw [cooks_moveTo, Function.update_self] at waits
    exact absurd waits (moves needed)
  · rwa [cooks_moveTo, Function.update_of_ne same] at waits

/-- A move to a point without a wait keeps the sleepers short of a unit. -/
theorem Adequate.moveTo {shared : SharedStock nCooks} (adequate : shared.Adequate)
    (index : Fin nCooks) {point : StockPoint} (moves : ∀ needed, point ≠ .waiting needed) :
    (shared.moveTo index point).Adequate where
  keys := adequate.keys
  running := adequate.running
  missing other needed waits := adequate.missing other needed (waiting_of_moveTo moves waits)
  awake stopped other needed waits :=
    adequate.awake stopped other needed (waiting_of_moveTo moves waits)

/-- A cook goes to sleep only when it lacks a unit. -/
theorem Adequate.wait {shared : SharedStock nCooks} (adequate : shared.Adequate)
    (index : Fin nCooks) {needed : List Ingredient}
    (waits : shared.room.waitAndConsumeIngredients needed = none) :
    (shared.moveTo index (.waiting needed)).Adequate := by
  obtain ⟨running, unavailable⟩ := IngredientStock.waits_cases waits
  refine ⟨adequate.keys, adequate.running, fun other listed sleeps => ?_, fun stopped => ?_⟩
  · by_cases same : other = index
    · subst same
      rw [cooks_moveTo, Function.update_self] at sleeps
      cases sleeps
      exact Stock.exists_missing adequate.keys unavailable
    · rw [cooks_moveTo, Function.update_of_ne same] at sleeps
      exact adequate.missing other listed sleeps
  · have serving := adequate.running.mp running
    rw [phase_moveTo, serving] at stopped
    cases stopped

/-- A consumption takes no unit of an ingredient that a sleeper lacks. -/
theorem Adequate.consume {shared : SharedStock nCooks} (adequate : shared.Adequate)
    (index : Fin nCooks) {needed : List Ingredient} {consumed : Bool} {room : IngredientStock}
    (returned : shared.room.waitAndConsumeIngredients needed = some (consumed, room)) :
    Adequate { shared.moveTo index .outside with room } := by
  have leaves : ∀ listed, StockPoint.outside ≠ .waiting listed := by simp
  have moved := adequate.moveTo index leaves
  have flag := IngredientStock.running_of_returned returned
  rcases IngredientStock.waitAndConsumeIngredients_cases returned with
    ⟨_, rfl⟩ | ⟨_, available, taken⟩
  · exact moved
  · refine ⟨fun ingredient => ?_, by rw [flag]; exact moved.running, fun other listed waits => ?_,
      moved.awake⟩
    · rw [taken, Stock.isSome_consume fun ingredient _ => adequate.keys ingredient]
      exact adequate.keys ingredient
    · obtain ⟨ingredient, member, missing⟩ := moved.missing other listed waits
      refine ⟨ingredient, member, ?_⟩
      rw [taken, Stock.consume_of_notMem (Stock.notMem_of_available available missing)]
      exact missing

/-- Each step keeps the sleepers short of a unit. -/
theorem Adequate.step {shared next : SharedStock nCooks} {label : SharedStockLabel nCooks}
    (adequate : shared.Adequate) (taken : shared.step label = some next) : next.Adequate := by
  cases label with
  | call index needed =>
      simp only [SharedStock.step] at taken
      split at taken <;> cases taken
      exact adequate.moveTo index (by simp)
  | consume index =>
      simp only [SharedStock.step] at taken
      split at taken
      · split at taken <;> cases taken
        · exact adequate.wait index ‹_›
        · exact adequate.consume index ‹_›
      · cases taken
      · cases taken
  | wakeSpuriously index =>
      simp only [SharedStock.step] at taken
      split at taken <;> cases taken
      exact adequate.moveTo index (by simp)
  | regenerate =>
      obtain ⟨room, ticked, rfl⟩ := Option.map_eq_some_iff.mp taken
      unfold IngredientStock.regenLoop at ticked
      split at ticked <;> cases ticked
      refine ⟨fun ingredient => ?_, adequate.running, fun index needed waits => ?_,
        fun _ index needed => wake_ne_waiting _ _⟩
      · simpa [Stock.regenerate] using adequate.keys ingredient
      · exact absurd waits (wake_ne_waiting _ _)
  | stop =>
      simp only [SharedStock.step] at taken
      split at taken <;> cases taken
      exact ⟨adequate.keys, by simp [IngredientStock.stop], adequate.missing, by simp⟩
  | notifyAll =>
      simp only [SharedStock.step] at taken
      split at taken <;> cases taken
      rename_i stopping
      refine ⟨adequate.keys, ?_, fun index needed waits => ?_,
        fun _ index needed => wake_ne_waiting _ _⟩
      · rw [adequate.running, stopping]
        simp
      · exact absurd waits (wake_ne_waiting _ _)

/-- Every run keeps the sleepers short of a unit. -/
theorem adequate_of_reachable {initialStock : UInt64} {shared : SharedStock nCooks}
    (reached : (machine nCooks initialStock).Reachable shared) : shared.Adequate := by
  have fresh : Adequate (machine nCooks initialStock).initial :=
    ⟨Stock.isSome_initial _, by simp [machine, IngredientStock.filled], by simp [machine],
      by simp [machine]⟩
  exact reached.invariant fresh fun _ adequate _ taken => adequate.step taken

end SharedStock

namespace CallPoint

/-- The list that the call asks for. -/
def needed (recipe : PizzaRecipe) : List Ingredient := (toIngredients recipe.ingredients).getD []

/-- A call for a recipe is a call for its ingredients. -/
def point : CallPoint → StockPoint
  | outside => .outside
  | locking recipe | woken recipe => .locking (needed recipe)
  | waiting recipe => .waiting (needed recipe)

@[simp] theorem point_wake (point : CallPoint) : point.wake.point = point.point.wake := by
  cases point <;> rfl

end CallPoint

namespace StockClient

variable {nCooks : Nat}

/-- The calls of the cooks of one kitchen. -/
def shared (client : StockClient nCooks) : SharedStock nCooks where
  room := client.room
  cooks index := (client.cooks index).point
  phase := client.phase

/-- A cook calls for the ingredients of the recipe that it prepares. -/
def observe : StockLabel nCooks → SharedStockLabel nCooks
  | .prepare index type size =>
      .call index (((PizzaFactory.create type size).map CallPoint.needed).getD [])
  | .consume index => .consume index
  | .wakeSpuriously index => .wakeSpuriously index
  | .regenerate => .regenerate
  | .stop => .stop
  | .notifyAll => .notifyAll

/-- A move of one cook is a move of its call. -/
theorem shared_moveTo (client : StockClient nCooks) (index : Fin nCooks) (point : CallPoint)
    (room : IngredientStock) :
    shared { client.moveTo index point with room } =
      { client.shared.moveTo index point.point with room } := by
  have cooks : (fun other => (Function.update client.cooks index point other).point) =
      Function.update (fun other => (client.cooks other).point) index point.point := by
    funext other
    exact Function.apply_update (fun _ => CallPoint.point) _ _ _ _
  simp only [shared, moveTo, SharedStock.moveTo, cooks]

/-- A call that holds the mutex asks for the ingredients of its recipe. -/
theorem shared_consume {client next : StockClient nCooks} {index : Fin nCooks}
    {recipe : PizzaRecipe}
    (stands : (client.cooks index).point = .locking (CallPoint.needed recipe))
    (taken : client.consume index recipe = some next) :
    client.shared.step (.consume index) = some next.shared := by
  unfold StockClient.consume at taken
  obtain ⟨needed, listed, taken⟩ := Option.bind_eq_some_iff.mp taken
  have asked : CallPoint.needed recipe = needed := by
    rw [CallPoint.needed, listed]
    rfl
  have locking : client.shared.cooks index = .locking needed := by
    rw [← asked]
    exact stands
  simp only [SharedStock.step, locking]
  split at taken
  · rename_i waits
    obtain rfl := Option.some.inj taken
    rw [show client.shared.room.waitAndConsumeIngredients needed = none from waits]
    refine congrArg some (Eq.trans ?_ (shared_moveTo client index _ client.room).symm)
    rw [CallPoint.point, asked]
    rfl
  · rename_i consumed room returned
    obtain rfl := Option.some.inj taken
    rw [show client.shared.room.waitAndConsumeIngredients needed = some (consumed, room)
      from returned]
    exact congrArg some (shared_moveTo client index .outside room).symm

/-- The stock of a kitchen with its recipes is a shared stock. -/
theorem refines_sharedStock (nCooks : Nat) :
    Machine.Refinement (machine nCooks) (SharedStock.machine nCooks 5) shared
      fun _ label => some (observe label) := by
  refine .of_follows rfl fun {client next label} _ taken => ?_
  change client.step label = some next at taken
  change client.shared.step (observe label) = some next.shared
  cases label with
  | prepare index type size =>
      simp only [step] at taken
      split at taken
      · rename_i outside
        obtain ⟨recipe, created, rfl⟩ := Option.map_eq_some_iff.mp taken
        have free : client.shared.cooks index = .outside := congrArg CallPoint.point outside
        simp only [observe, created, SharedStock.step, if_pos free]
        exact congrArg some (shared_moveTo client index (.locking recipe) client.room).symm
      · cases taken
  | consume index =>
      simp only [step] at taken
      split at taken
      · rename_i recipe stands
        exact shared_consume (congrArg CallPoint.point stands) taken
      · rename_i recipe stands
        exact shared_consume (congrArg CallPoint.point stands) taken
      · cases taken
      · cases taken
  | wakeSpuriously index =>
      simp only [step] at taken
      split at taken <;> cases taken
      rename_i recipe waits
      have sleeps : client.shared.cooks index = .waiting (CallPoint.needed recipe) :=
        congrArg CallPoint.point waits
      simp only [observe, SharedStock.step, sleeps]
      exact congrArg some (shared_moveTo client index (.woken recipe) client.room).symm
  | regenerate =>
      obtain ⟨room, ticked, rfl⟩ := Option.map_eq_some_iff.mp taken
      simp [observe, SharedStock.step, shared, ticked]
  | stop =>
      simp only [step] at taken
      split at taken <;> cases taken
      rename_i serving
      simp [observe, SharedStock.step, shared, serving]
  | notifyAll =>
      simp only [step] at taken
      split at taken <;> cases taken
      rename_i stopping
      simp [observe, SharedStock.step, shared, stopping]

/-- No cook of a kitchen sleeps on a stock that has its ingredients. -/
theorem adequate_of_reachable {client : StockClient nCooks}
    (reached : (machine nCooks).Reachable client) : client.shared.Adequate :=
  SharedStock.adequate_of_reachable
    ((refines_sharedStock nCooks).reachable (fun _ _ => trivial) reached)

end StockClient

end Plazza
