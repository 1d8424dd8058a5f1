import Mathlib.Logic.Function.Basic
import Mathlib.Algebra.Group.Nat.Defs

namespace Plazza

inductive Ingredient where
  | dough
  | tomato
  | gruyere
  | ham
  | mushrooms
  | steak
  | eggplant
  | goatCheese
  | chiefLove
  deriving DecidableEq, Repr

namespace Ingredient

/-- The table states the names in the order of the enumeration. -/
def kAllIngredients : Vector (String × Ingredient) 9 :=
  #v[("dough", dough), ("tomato", tomato), ("gruyere", gruyere), ("ham", ham),
    ("mushrooms", mushrooms), ("steak", steak), ("eggplant", eggplant),
    ("goat cheese", goatCheese), ("chief love", chiefLove)]

/-- The underlying value is the position in the enumeration. -/
def ofIndex (index : Fin 9) : Ingredient :=
  match index with
  | 0 => dough
  | 1 => tomato
  | 2 => gruyere
  | 3 => ham
  | 4 => mushrooms
  | 5 => steak
  | 6 => eggplant
  | 7 => goatCheese
  | 8 => chiefLove

/-- The table entry at each position is the enumerator with that value. -/
theorem kAllIngredients_ofIndex (index : Fin 9) :
    (kAllIngredients.get index).2 = ofIndex index := by
  revert index
  decide

/-- Every ingredient has a position. -/
theorem exists_index (ingredient : Ingredient) : ∃ index, ofIndex index = ingredient := by
  cases ingredient <;> decide

end Ingredient

/-- An unknown name has no ingredient. -/
def toIngredient (ingredientName : String) : Option Ingredient :=
  (Ingredient.kAllIngredients.toList.find? fun entry => entry.1 = ingredientName).map Prod.snd

def toIngredients (ingredientNames : List String) : Option (List Ingredient) :=
  ingredientNames.mapM toIngredient

/-- The map holds the units of each ingredient that it has a key for. -/
abbrev Stock := Ingredient → Option Nat

namespace Stock

/-- The constructor gives each listed ingredient the initial units. -/
def initial (initialStock : Nat) : Stock := fun ingredient =>
  if ingredient ∈ Ingredient.kAllIngredients.toList.map Prod.snd then some initialStock else none

def allAvailable (stock : Stock) (ingredients : List Ingredient) : Bool :=
  ingredients.all fun ingredient =>
    match stock ingredient with
    | none => false
    | some units => 0 < units

/-- The decrement inserts a missing key with zero units and wraps below zero. -/
def takeUnit (stock : Stock) (ingredient : Ingredient) : Stock :=
  Function.update stock ingredient (some (((stock ingredient).getD 0 + (2 ^ 64 - 1)) % 2 ^ 64))

def consume (stock : Stock) (needed : List Ingredient) : Stock := needed.foldl takeUnit stock

/-- One tick of the regeneration loop adds a unit to each key. -/
def regenerate (stock : Stock) : Stock := fun ingredient =>
  (stock ingredient).map fun units => (units + 1) % 2 ^ 64

end Stock

end Plazza
