import Plazza.Construction.Pizza

namespace Plazza

inductive CookState where
  | idle
  | cooking
  deriving DecidableEq, Repr

def CookState.value : CookState → UInt8
  | idle => 0
  | cooking => 1

/-- A byte that names no enumerator has no cook state. -/
def CookState.ofValue (byte : UInt8) : Option CookState :=
  if byte = 0 then some idle else if byte = 1 then some cooking else none

@[simp] theorem CookState.ofValue_value (state : CookState) : ofValue state.value = some state := by
  cases state <;> rfl

structure CookStatus where
  id : Int
  state : CookState
  currentPizza : String
  type : PizzaType
  size : PizzaSize
  deriving DecidableEq

/-- The name of the current pizza agrees with the state and the type. -/
structure Cook where
  id : Int
  state : CookState
  currentPizzaName : String
  currentPizzaType : PizzaType
  currentPizzaSize : PizzaSize
  named : state = .cooking → currentPizzaName = currentPizzaType.name
  cleared : state = .idle → currentPizzaName = ""

namespace Cook

/-- A new cook is idle and shows the default pizza. -/
def new (cookId : Int) : Cook where
  id := cookId
  state := .idle
  currentPizzaName := ""
  currentPizzaType := .margarita
  currentPizzaSize := .m
  named := nofun
  cleared _ := rfl

def status (cook : Cook) : CookStatus where
  id := cook.id
  state := cook.state
  currentPizza := cook.currentPizzaName
  type := cook.currentPizzaType
  size := cook.currentPizzaSize

/-- The first block of `cookPizza` shows the pizza. -/
def start (cook : Cook) (pizza : PizzaRecipe) : Cook where
  id := cook.id
  state := .cooking
  currentPizzaName := pizza.getName
  currentPizzaType := pizza.type
  currentPizzaSize := pizza.size
  named _ := rfl
  cleared := nofun

/-- The last block of `cookPizza` clears the name and keeps the type and the size. -/
def finish (cook : Cook) : Cook where
  id := cook.id
  state := .idle
  currentPizzaName := ""
  currentPizzaType := cook.currentPizzaType
  currentPizzaSize := cook.currentPizzaSize
  named := nofun
  cleared _ := rfl

end Cook

end Plazza
