import Plazza.Proof.Stock.Consumption

namespace Plazza
open Plazza.Foundation

/-- The recipe names the ingredient. -/
def PizzaRecipe.contains (recipe : PizzaRecipe) (ingredient : Ingredient) : Bool :=
  recipe.ingredients.any fun name => toIngredient name = some ingredient

/-- The converted list has the ingredients that the names name. -/
theorem mem_toIngredients {names : List String} {needed : List Ingredient}
    (listed : toIngredients names = some needed) (ingredient : Ingredient) :
    ingredient ∈ needed ↔ names.any (fun name => toIngredient name = some ingredient) = true := by
  induction names generalizing needed with
  | nil =>
      cases listed
      simp
  | cons name rest ih =>
      rw [toIngredients, List.mapM_cons] at listed
      obtain ⟨first, named, listed⟩ := Option.bind_eq_some_iff.mp listed
      obtain ⟨others, tail, listed⟩ := Option.bind_eq_some_iff.mp listed
      obtain rfl := Option.some.inj listed
      rw [List.mem_cons, ih tail, List.any_cons, named, Bool.or_eq_true, decide_eq_true_eq,
        Option.some_inj]
      exact or_congr_left eq_comm

/-- A built-in recipe lists each of its ingredients once. -/
theorem PizzaFactory.listed_of_create {type : PizzaType} {size : PizzaSize} {recipe : PizzaRecipe}
    (created : create type size = some recipe) :
    ∃ needed, toIngredients recipe.ingredients = some needed ∧ needed.Nodup := by
  have builtin : ∀ type : PizzaType, ∀ entry ∈ registry.find? (fun entry => entry.1 = type),
      (toIngredients entry.2.ingredients).any fun needed => decide needed.Nodup := by
    intro type
    cases type <;> decide
  obtain ⟨entry, found, rfl⟩ := Option.map_eq_some_iff.mp created
  obtain ⟨needed, listed, nodup⟩ := (Option.any_eq_true _ _).mp (builtin type entry found)
  exact ⟨needed, listed, of_decide_eq_true nodup⟩

/-- The recipe of a call in progress. -/
def CallPoint.recipe : CallPoint → Option PizzaRecipe
  | .outside => none
  | .locking recipe | .waiting recipe | .woken recipe => some recipe

/-- The history of the shared stock: its completed ticks and the started pizzas. -/
structure Usage where
  ticks : Nat
  started : List PizzaRecipe

namespace StockClient

variable {nCooks : Nat}

/-- A call of `consume` that returns true starts its pizza. -/
def record (before : StockClient nCooks) (label : StockLabel nCooks) (_next : StockClient nCooks)
    (usage : Usage) : Usage :=
  match label with
  | .regenerate => { usage with ticks := usage.ticks + 1 }
  | .consume index =>
      match before.cooks index with
      | .locking recipe | .woken recipe =>
          match (toIngredients recipe.ingredients).bind before.room.waitAndConsumeIngredients with
          | some (true, _) => { usage with started := usage.started ++ [recipe] }
          | _ => usage
      | _ => usage
  | _ => usage

/-- The units of each ingredient and the started pizzas with it make up the ticks and the initial
units, as long as the ticks fit. -/
structure Balanced (client : StockClient nCooks) (usage : Usage) : Prop where
  created : ∀ index, ∀ recipe ∈ (client.cooks index).recipe,
    ∃ needed, toIngredients recipe.ingredients = some needed ∧ needed.Nodup
  units : usage.ticks < 2 ^ 64 - 5 → ∀ ingredient, ∃ units,
    client.room.stock ingredient = some units ∧
      units + usage.started.countP (·.contains ingredient) = 5 + usage.ticks

/-- Only the cook that moves changes its call. -/
theorem Balanced.created_moveTo {client : StockClient nCooks} {usage : Usage}
    (balanced : client.Balanced usage) {index : Fin nCooks} {point : CallPoint}
    (known : ∀ recipe ∈ point.recipe,
      ∃ needed, toIngredients recipe.ingredients = some needed ∧ needed.Nodup) (other : Fin nCooks) :
    ∀ recipe ∈ ((client.moveTo index point).cooks other).recipe,
      ∃ needed, toIngredients recipe.ingredients = some needed ∧ needed.Nodup := by
  intro recipe member
  by_cases same : other = index
  · subst same
    simp only [moveTo, Function.update_self] at member
    exact known recipe member
  · simp only [moveTo, Function.update_of_ne same] at member
    exact balanced.created other recipe member

theorem recipe_wake (point : CallPoint) : point.wake.recipe = point.recipe := by
  cases point <;> rfl

/-- A consumed list takes one unit of each ingredient of the recipe. -/
theorem units_consume {stock : Stock} {recipe : PizzaRecipe} {needed : List Ingredient}
    (fits : ∀ ingredient units, stock ingredient = some units → units < 2 ^ 64)
    (listed : toIngredients recipe.ingredients = some needed) (nodup : needed.Nodup)
    (available : stock.allAvailable needed = true) {ingredient : Ingredient} {units : Nat}
    (found : stock ingredient = some units) :
    ∃ left, stock.consume needed ingredient = some left ∧
      left + (if recipe.contains ingredient then 1 else 0) = units := by
  have all := Stock.allAvailable_iff.mp available
  have once := List.nodup_iff_count_le_one.mp nodup
  have taken := Stock.units_consume fits
    (fun other member => le_trans (once other) (all other member)) ingredient
  have present : ∀ other ∈ needed, (stock other).isSome := by
    intro other member
    have enough := all other member
    cases key : stock other with
    | none => simp [Stock.units, key] at enough
    | some _ => rfl
  have keys := Stock.isSome_consume present ingredient
  rw [found] at keys
  obtain ⟨left, key⟩ := Option.isSome_iff_exists.mp keys
  refine ⟨left, key, ?_⟩
  have count : needed.count ingredient = if recipe.contains ingredient then 1 else 0 := by
    have member := mem_toIngredients listed ingredient
    split
    · rename_i inside
      exact List.count_eq_one_of_mem nodup (member.mpr inside)
    · rename_i outside
      exact List.count_eq_zero.mpr fun inside => outside (member.mp inside)
  simp only [Stock.units, key, found, Option.getD_some, count] at taken
  exact taken

/-- A section of a call keeps the balance. -/
theorem Balanced.consume {client next : StockClient nCooks} {usage : Usage}
    (balanced : client.Balanced usage) {index : Fin nCooks} {recipe : PizzaRecipe}
    (calling : (client.cooks index).recipe = some recipe)
    (taken : client.consume index recipe = some next) :
    next.Balanced (match (toIngredients recipe.ingredients).bind
        client.room.waitAndConsumeIngredients with
      | some (true, _) => { usage with started := usage.started ++ [recipe] }
      | _ => usage) := by
  have known := balanced.created index recipe calling
  obtain ⟨needed, listed, nodup⟩ := known
  obtain ⟨other, same, taken⟩ := Option.bind_eq_some_iff.mp taken
  obtain rfl : needed = other := Option.some.inj (listed.symm.trans same)
  rw [listed, Option.bind_some]
  split at taken
  · rename_i waits
    cases taken
    rw [waits]
    refine ⟨balanced.created_moveTo fun _ member => ?_, balanced.units⟩
    cases member
    exact ⟨needed, listed, nodup⟩
  · rename_i consumed room returned
    cases taken
    rw [returned]
    rcases IngredientStock.waitAndConsumeIngredients_cases returned with
      ⟨rfl, rfl⟩ | ⟨rfl, available, stock⟩
    · exact ⟨balanced.created_moveTo nofun, balanced.units⟩
    · refine ⟨balanced.created_moveTo nofun, fun ticks ingredient => ?_⟩
      obtain ⟨units, found, balance⟩ := balanced.units ticks ingredient
      obtain ⟨left, key, taken⟩ := units_consume client.room.fits listed nodup available found
      refine ⟨left, stock ▸ key, ?_⟩
      simp only [List.countP_append, List.countP_singleton]
      omega

/-- Every step keeps the balance. -/
theorem Balanced.step {client next : StockClient nCooks} {label : StockLabel nCooks} {usage : Usage}
    (balanced : client.Balanced usage) (taken : client.step label = some next) :
    next.Balanced (record client label next usage) := by
  cases label with
  | prepare index type size =>
      simp only [StockClient.step] at taken
      split at taken
      · obtain ⟨recipe, created, rfl⟩ := Option.map_eq_some_iff.mp taken
        refine ⟨balanced.created_moveTo fun _ member => ?_, balanced.units⟩
        cases member
        exact PizzaFactory.listed_of_create created
      · cases taken
  | consume index =>
      simp only [StockClient.step] at taken
      split at taken
      · rename_i recipe position
        simp only [record, position]
        exact balanced.consume (by rw [position]; rfl) taken
      · rename_i recipe position
        simp only [record, position]
        exact balanced.consume (by rw [position]; rfl) taken
      · cases taken
      · cases taken
  | wakeSpuriously index =>
      simp only [StockClient.step] at taken
      split at taken
      · rename_i recipe position
        cases taken
        refine ⟨balanced.created_moveTo fun other member => ?_, balanced.units⟩
        exact balanced.created index other (by rw [position]; exact member)
      · cases taken
  | regenerate =>
      obtain ⟨room, ticked, rfl⟩ := Option.map_eq_some_iff.mp taken
      unfold IngredientStock.regenLoop at ticked
      split at ticked <;> cases ticked
      refine ⟨fun index => recipe_wake (client.cooks index) ▸ balanced.created index, ?_⟩
      intro ticks ingredient
      simp only [record] at ticks ⊢
      obtain ⟨units, found, balance⟩ := balanced.units (by omega) ingredient
      have small : (units + 1) % 2 ^ 64 = units + 1 := by omega
      refine ⟨units + 1, ?_, by omega⟩
      rw [Stock.regenerate, found, Option.map_some, small]
  | stop =>
      simp only [StockClient.step] at taken
      split at taken <;> cases taken
      exact ⟨balanced.created, balanced.units⟩
  | notifyAll =>
      simp only [StockClient.step] at taken
      split at taken <;> cases taken
      exact ⟨fun index => recipe_wake (client.cooks index) ▸ balanced.created index, balanced.units⟩

/-- Every run keeps the balance. -/
theorem balanced_of_reachable {state : StockClient nCooks × Usage}
    (reached : ((machine nCooks).withHistory record ⟨0, []⟩).Reachable state) :
    state.1.Balanced state.2 :=
  reached.invariant (motive := fun state => state.1.Balanced state.2) ⟨nofun, fun _ ingredient =>
    ⟨5, by cases ingredient <;> rfl, rfl⟩⟩ fun _ balanced _ taken => by
      obtain ⟨stepped, recorded⟩ := Foundation.Machine.withHistory_step.mp taken
      rw [recorded]
      exact balanced.step stepped

/-- The stock of every ingredient is the initial quantity with the completed ticks and without the
started pizzas that contain it, and it never wraps while the ticks fit. -/
theorem stock_of_reachable {state : StockClient nCooks × Usage}
    (reached : ((machine nCooks).withHistory record ⟨0, []⟩).Reachable state)
    (ticks : state.2.ticks < 2 ^ 64 - 5) (ingredient : Ingredient) :
    ∃ units : Nat, state.1.room.stock ingredient = some units ∧
      (units : Int) = 5 + state.2.ticks -
        state.2.started.countP fun recipe => recipe.contains ingredient := by
  obtain ⟨units, found, balance⟩ := (balanced_of_reachable reached).units ticks ingredient
  exact ⟨units, found, by omega⟩

/-- A cook takes a margarita and a tick gives its dough back. -/
theorem stock_after_tick :
    ∃ state, ((machine 1).withHistory record ⟨0, []⟩).Reachable state ∧
      (state.2.ticks = 1 ∧ state.2.started.length = 1) ∧
      ∃ units : Nat, state.1.room.stock .dough = some units ∧ (units : Int) = 5 + state.2.ticks -
        state.2.started.countP fun recipe => recipe.contains .dough := by
  obtain ⟨state, reached, checked⟩ := ((machine 1).withHistory record ⟨0, []⟩).exists_reachable
    [.prepare 0 .margarita .s, .consume 0, .regenerate]
    (fun state => state.2.ticks = 1 ∧ state.2.started.length = 1) (by decide)
  have counts : state.2.ticks = 1 ∧ state.2.started.length = 1 := of_decide_eq_true checked
  exact ⟨state, reached, counts, stock_of_reachable reached (by rw [counts.1]; decide) .dough⟩

end StockClient

end Plazza
