import Plazza.Construction.StockClient

namespace Plazza
open Plazza.Foundation

namespace IngredientStock

/-- The constructor takes the initial quantity as an unsigned 64-bit value. -/
def filled (initialStock : UInt64) : IngredientStock where
  stock := Stock.initial initialStock.toNat
  running := true
  fits := Stock.initial_fits initialStock.toNat_lt

end IngredientStock

/-- A woken cook locks the mutex like a cook that has just called. -/
inductive StockPoint where
  | outside
  | locking (needed : List Ingredient)
  | waiting (needed : List Ingredient)
  deriving DecidableEq

def StockPoint.wake : StockPoint → StockPoint
  | waiting needed => locking needed
  | point => point

/-- Any number of cooks ask for any ingredients, and each section under the mutex is one step. -/
structure SharedStock (nCooks : Nat) where
  room : IngredientStock
  cooks : Fin nCooks → StockPoint
  phase : Phase

inductive SharedStockLabel (nCooks : Nat) where
  | call (index : Fin nCooks) (needed : List Ingredient)
  | consume (index : Fin nCooks)
  | wakeSpuriously (index : Fin nCooks)
  | regenerate
  | stop
  | notifyAll

namespace SharedStock

variable {nCooks : Nat}

def moveTo (shared : SharedStock nCooks) (index : Fin nCooks) (point : StockPoint) :
    SharedStock nCooks :=
  { shared with cooks := Function.update shared.cooks index point }

/-- The calls keep to no order and go on after the destructor has begun. -/
def step (shared : SharedStock nCooks) : SharedStockLabel nCooks → Option (SharedStock nCooks)
  | .call index needed =>
      if shared.cooks index = .outside then some (shared.moveTo index (.locking needed)) else none
  | .consume index =>
      match shared.cooks index with
      | .locking needed =>
          match shared.room.waitAndConsumeIngredients needed with
          | none => some (shared.moveTo index (.waiting needed))
          | some (_, room) => some { shared.moveTo index .outside with room }
      | .outside | .waiting _ => none
  | .wakeSpuriously index =>
      match shared.cooks index with
      | .waiting needed => some (shared.moveTo index (.locking needed))
      | .outside | .locking _ => none
  | .regenerate => shared.room.regenLoop.map fun room =>
      { shared with room, cooks := fun index => (shared.cooks index).wake }
  | .stop =>
      if shared.phase = .serving then some { shared with room := shared.room.stop, phase := .stopping }
      else none
  | .notifyAll =>
      if shared.phase = .stopping then
        some { shared with cooks := fun index => (shared.cooks index).wake, phase := .stopped }
      else none

def machine (nCooks : Nat) (initialStock : UInt64) :
    Machine (SharedStock nCooks) (SharedStockLabel nCooks) where
  initial := ⟨IngredientStock.filled initialStock, fun _ => .outside, .serving⟩
  step := step

end SharedStock

/-- The threads that lock the mutex of the stock. -/
inductive StockThread (nCooks : Nat) where
  | cook (index : Fin nCooks)
  | regenerator
  | destructor
  deriving DecidableEq

/-- A cook tests the condition of the loop and leaves the call with the mutex locked. -/
inductive StockPosition where
  | outside
  | locking (needed : List Ingredient)
  | testing (needed : List Ingredient)
  | waiting (needed : List Ingredient)
  | unlocking
  deriving DecidableEq

def StockPosition.wake : StockPosition → StockPosition
  | waiting needed => locking needed
  | position => position

/-- The regeneration loop notifies before its guard unlocks the mutex. -/
inductive RegenPosition where
  | sleeping
  | testing
  | notifying
  | unlocking (again : Bool)
  | ended
  deriving DecidableEq

/-- The destructor notifies after its guard has unlocked the mutex. -/
inductive DestructorPosition where
  | alive
  | clearing
  | unlocking
  | notifying
  | done
  deriving DecidableEq

/-- The threads of the stock take one statement at a time. -/
structure LockedStock (nCooks : Nat) where
  room : IngredientStock
  holder : Option (StockThread nCooks)
  cooks : Fin nCooks → StockPosition
  regenerator : RegenPosition
  destructor : DestructorPosition

inductive LockedStockLabel (nCooks : Nat) where
  | call (index : Fin nCooks) (needed : List Ingredient)
  | thread (thread : StockThread nCooks)
  | wakeSpuriously (index : Fin nCooks)

namespace LockedStock

variable {nCooks : Nat}

def moveTo (state : LockedStock nCooks) (index : Fin nCooks) (position : StockPosition) :
    LockedStock nCooks :=
  { state with cooks := Function.update state.cooks index position }

def notifyAll (state : LockedStock nCooks) : LockedStock nCooks :=
  { state with cooks := fun index => (state.cooks index).wake }

/-- The wait unlocks the mutex and blocks in one step. -/
def waitAndConsumeIngredients (state : LockedStock nCooks) (index : Fin nCooks) :
    Option (LockedStock nCooks) :=
  match state.cooks index with
  | .outside | .waiting _ => none
  | .locking needed =>
      if state.holder = none then
        some { state.moveTo index (.testing needed) with holder := some (.cook index) }
      else none
  | .testing needed =>
      match state.room.waitAndConsumeIngredients needed with
      | none => some { state.moveTo index (.waiting needed) with holder := none }
      | some (_, room) => some { state.moveTo index .unlocking with room }
  | .unlocking => some { state.moveTo index .outside with holder := none }

def regenLoop (state : LockedStock nCooks) : Option (LockedStock nCooks) :=
  match state.regenerator with
  | .sleeping =>
      if state.holder = none then
        some { state with holder := some .regenerator, regenerator := .testing }
      else none
  | .testing =>
      match state.room.regenLoop with
      | none => some { state with regenerator := .unlocking false }
      | some room => some { state with room, regenerator := .notifying }
  | .notifying => some { state.notifyAll with regenerator := .unlocking true }
  | .unlocking again =>
      some { state with holder := none, regenerator := if again then .sleeping else .ended }
  | .ended => none

def destroy (state : LockedStock nCooks) : Option (LockedStock nCooks) :=
  match state.destructor with
  | .alive =>
      if state.holder = none then
        some { state with holder := some .destructor, destructor := .clearing }
      else none
  | .clearing => some { state with room := state.room.stop, destructor := .unlocking }
  | .unlocking => some { state with holder := none, destructor := .notifying }
  | .notifying => some { state.notifyAll with destructor := .done }
  | .done => none

def step (state : LockedStock nCooks) : LockedStockLabel nCooks → Option (LockedStock nCooks)
  | .call index needed =>
      if state.cooks index = .outside then some (state.moveTo index (.locking needed)) else none
  | .thread (.cook index) => state.waitAndConsumeIngredients index
  | .thread .regenerator => state.regenLoop
  | .thread .destructor => state.destroy
  | .wakeSpuriously index =>
      match state.cooks index with
      | .waiting needed => some (state.moveTo index (.locking needed))
      | _ => none

def machine (nCooks : Nat) (initialStock : UInt64) :
    Machine (LockedStock nCooks) (LockedStockLabel nCooks) where
  initial := ⟨IngredientStock.filled initialStock, none, fun _ => .outside, .sleeping, .alive⟩
  step := step

end LockedStock

end Plazza
