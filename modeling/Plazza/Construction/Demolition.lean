import Plazza.Construction.Kitchen
import Plazza.Construction.PoolClient

namespace Plazza
open Plazza.Foundation

/-- One kitchen whose main thread begins the reset of its pool at any time after `stop`. The remaining
members of the pool still live, and a failed lock has aborted the process. -/
structure Demolition (nCooks : Nat) where
  kitchen : Kitchen nCooks
  remaining : List Member
  aborted : Bool

namespace Demolition

variable {nCooks : Nat}

def pool (state : Demolition nCooks) : ThreadPool nCooks := state.kitchen.site.process.pool

/-- The reset destroys one member in each step and is over when none is left. -/
def resetPool (state : Demolition nCooks) : Option (Demolition nCooks) :=
  match state.remaining with
  | [] =>
      let site := state.kitchen.site
      some { state with
        kitchen := { state.kitchen with site := { site with process := site.process.goto .closing } } }
  | remaining => (state.pool.destroyMember remaining).map fun remaining => { state with remaining }

/-- A step of the kitchen outside of the reset. -/
def work (limit : Option Nat) (state : Demolition nCooks) (label : KitchenLabel nCooks) :
    Option (Demolition nCooks) :=
  (state.kitchen.step limit label).map fun kitchen => { state with kitchen }

/-- The threads of an aborted process take no step. -/
def step (limit : Option Nat) (state : Demolition nCooks) (label : KitchenLabel nCooks) :
    Option (Demolition nCooks) :=
  match label with
  | .process moved =>
      if state.aborted then none
      else match moved with
      | .main _ =>
          match state.kitchen.site.process.control with
          | .joining => state.resetPool
          | _ => state.work limit label
      | .cook index =>
          if state.pool.LockFails state.remaining index then some { state with aborted := true }
          else state.work limit label
      | .wakeSpuriously _ | .regenerate => state.work limit label
  | .deliver _ | .collect | .elapse _ => state.work limit label

/-- The process has returned from `run` or is aborted. -/
def hasEnded (state : Demolition nCooks) : Bool :=
  state.aborted || state.kitchen.site.process.hasExited

def machine (nCooks : Nat) (limit : Option Nat) :
    Machine (Demolition nCooks) (KitchenLabel nCooks) where
  initial := ⟨(Kitchen.machine nCooks limit).initial, Member.destructionOrder, false⟩
  step := step limit

end Demolition

end Plazza
