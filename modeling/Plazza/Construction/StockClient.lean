import Plazza.Construction.IngredientStock
import Plazza.Construction.Pizza
import Plazza.Construction.PoolClient

namespace Plazza
open Plazza.Foundation

/-- The quantities of the stock are unsigned 64-bit values. -/
structure IngredientStock where
  stock : Stock
  running : Bool
  fits : ∀ ingredient units, stock ingredient = some units → units < 2 ^ 64

theorem Stock.initial_fits {initialStock : Nat} (small : initialStock < 2 ^ 64)
    (ingredient : Ingredient) (units : Nat)
    (found : Stock.initial initialStock ingredient = some units) : units < 2 ^ 64 := by
  unfold Stock.initial at found
  split at found <;> cases found
  exact small

theorem Stock.takeUnit_fits {stock : Stock}
    (fits : ∀ ingredient units, stock ingredient = some units → units < 2 ^ 64) (taken : Ingredient)
    (ingredient : Ingredient) (units : Nat)
    (found : stock.takeUnit taken ingredient = some units) : units < 2 ^ 64 := by
  unfold Stock.takeUnit at found
  by_cases same : ingredient = taken
  · subst same
    rw [Function.update_self] at found
    rw [← Option.some.inj found]
    exact Nat.mod_lt _ (Nat.two_pow_pos 64)
  · rw [Function.update_of_ne same] at found
    exact fits ingredient units found

theorem Stock.consume_fits {stock : Stock}
    (fits : ∀ ingredient units, stock ingredient = some units → units < 2 ^ 64)
    (needed : List Ingredient) (ingredient : Ingredient) (units : Nat)
    (found : stock.consume needed ingredient = some units) : units < 2 ^ 64 := by
  induction needed generalizing stock with
  | nil => exact fits ingredient units found
  | cons taken rest ih => exact ih (Stock.takeUnit_fits fits taken) found

theorem Stock.regenerate_fits (stock : Stock) (ingredient : Ingredient) (units : Nat)
    (found : stock.regenerate ingredient = some units) : units < 2 ^ 64 := by
  obtain ⟨before, _, rfl⟩ := Option.map_eq_some_iff.mp found
  exact Nat.mod_lt _ (Nat.two_pow_pos 64)

namespace IngredientStock

/-- The constructor starts with the default quantity of each ingredient. -/
def new : IngredientStock where
  stock := Stock.initial 5
  running := true
  fits := Stock.initial_fits (by decide)

/-- The section under the mutex has no result when it goes on to wait. -/
def waitAndConsumeIngredients (room : IngredientStock) (needed : List Ingredient) :
    Option (Bool × IngredientStock) :=
  if room.running && !room.stock.allAvailable needed then none
  else if !room.running then some (false, room)
  else some (true, { room with
    stock := room.stock.consume needed
    fits := Stock.consume_fits room.fits needed })

/-- The section of the regeneration loop ends the loop of a stopped stock. -/
def regenLoop (room : IngredientStock) : Option IngredientStock :=
  if room.running then
    some { room with stock := room.stock.regenerate, fits := Stock.regenerate_fits room.stock }
  else none

/-- The destructor clears the flag under the mutex and then notifies. -/
def stop (room : IngredientStock) : IngredientStock := { room with running := false }

end IngredientStock

/-- A cook stands at one of these points of a call of `waitAndConsumeIngredients`. -/
inductive CallPoint where
  | outside
  | locking (recipe : PizzaRecipe)
  | waiting (recipe : PizzaRecipe)
  | woken (recipe : PizzaRecipe)
  deriving DecidableEq

/-- A broadcast wakes every waiting cook. -/
def CallPoint.wake : CallPoint → CallPoint
  | waiting recipe => woken recipe
  | point => point

/-- The cooks of one kitchen share its stock. -/
structure StockClient (nCooks : Nat) where
  room : IngredientStock
  cooks : Fin nCooks → CallPoint
  phase : Phase

/-- The labels interleave the calls of the cooks, the regeneration and the destruction. -/
inductive StockLabel (nCooks : Nat) where
  | prepare (index : Fin nCooks) (type : PizzaType) (size : PizzaSize)
  | consume (index : Fin nCooks)
  | wakeSpuriously (index : Fin nCooks)
  | regenerate
  | stop
  | notifyAll

namespace StockClient

variable {nCooks : Nat}

def moveTo (client : StockClient nCooks) (index : Fin nCooks) (point : CallPoint) :
    StockClient nCooks :=
  { client with cooks := Function.update client.cooks index point }

/-- A cook that holds the mutex consumes, gives up or waits. -/
def consume (client : StockClient nCooks) (index : Fin nCooks) (recipe : PizzaRecipe) :
    Option (StockClient nCooks) := do
  let needed ← toIngredients recipe.ingredients
  match client.room.waitAndConsumeIngredients needed with
  | none => return client.moveTo index (.waiting recipe)
  | some (_, room) => return { client.moveTo index .outside with room }

def step (client : StockClient nCooks) : StockLabel nCooks → Option (StockClient nCooks)
  | .prepare index type size =>
      if client.cooks index = .outside then
        (PizzaFactory.create type size).map fun recipe => client.moveTo index (.locking recipe)
      else none
  | .consume index =>
      match client.cooks index with
      | .locking recipe | .woken recipe => client.consume index recipe
      | .outside | .waiting _ => none
  | .wakeSpuriously index =>
      match client.cooks index with
      | .waiting recipe => some (client.moveTo index (.woken recipe))
      | _ => none
  | .regenerate => client.room.regenLoop.map fun room =>
      { client with room, cooks := fun index => (client.cooks index).wake }
  | .stop =>
      if client.phase = .serving then some { client with room := client.room.stop, phase := .stopping }
      else none
  | .notifyAll =>
      if client.phase = .stopping then
        some { client with cooks := fun index => (client.cooks index).wake, phase := .stopped }
      else none

/-- The stock machine starts with the constructor. -/
def machine (nCooks : Nat) : Machine (StockClient nCooks) (StockLabel nCooks) where
  initial := ⟨IngredientStock.new, fun _ => .outside, .serving⟩
  step := step

end StockClient

end Plazza
