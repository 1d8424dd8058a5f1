import Plazza.Construction.ThreadPool
import Plazza.Foundation.Machine

namespace Plazza
open Plazza.Foundation

/-- The owner serves, then clears the flag, then notifies all workers. -/
inductive Phase where
  | serving
  | stopping
  | stopped
  deriving DecidableEq

structure PoolClient (nCooks : Nat) where
  pool : ThreadPool nCooks
  phase : Phase

/-- The labels interleave the calls of the owner with the steps of the workers. -/
inductive PoolLabel (nCooks : Nat) where
  | addPizza (pizza : Ticket) (wake : Fin nCooks → Bool)
  | stop
  | notifyAll
  | worker (index : Fin nCooks)
  | giveUp (index : Fin nCooks)
  | wakeSpuriously (index : Fin nCooks)

namespace PoolClient

variable {nCooks : Nat}

def step (client : PoolClient nCooks) : PoolLabel nCooks → Option (PoolClient nCooks)
  | .addPizza pizza wake =>
      if client.phase = .serving ∧ ThreadPool.NotifiesOne client.pool.threads wake then
        some { client with pool := (client.pool.addPizza pizza wake).2 }
      else none
  | .stop => if client.phase = .serving then some ⟨client.pool.stop, .stopping⟩ else none
  | .notifyAll => if client.phase = .stopping then some ⟨client.pool.notifyAll, .stopped⟩ else none
  | .worker index => (client.pool.workerLoop index).map fun pool => { client with pool }
  | .giveUp index => (client.pool.giveUp index).map fun pool => { client with pool }
  | .wakeSpuriously index => (client.pool.wakeSpuriously index).map fun pool => { client with pool }

/-- The pool machine starts after `start` and ends after one `stop`. -/
def machine (nCooks : Nat) : Machine (PoolClient nCooks) (PoolLabel nCooks) where
  initial := ⟨ThreadPool.start nCooks, .serving⟩
  step := step

end PoolClient

/-- The data members of the pool. -/
inductive Member where
  | maxCapacity
  | cooks
  | threads
  | queue
  | queueMutex
  | conditionVariable
  | running
  | load
  | stock
  | ipc
  deriving DecidableEq

namespace Member

def declarationOrder : List Member :=
  [maxCapacity, cooks, threads, queue, queueMutex, conditionVariable, running, load, stock, ipc]

/-- The defaulted destructor destroys the members in reverse order of declaration. -/
def destructionOrder : List Member := declarationOrder.reverse

/-- A worker in its loop uses these members. -/
def usedByWorkers : List Member := [conditionVariable, queueMutex, queue, running, load]

end Member

namespace ThreadPool

variable {nCooks : Nat}

/-- The destructor destroys the first member that still lives, and the destruction of the threads
joins the workers. A section under the mutex is one step, so no worker holds the mutex that is destroyed. -/
def destroyMember (pool : ThreadPool nCooks) : List Member → Option (List Member)
  | [] => none
  | first :: rest =>
      if first = .threads → ∀ index, pool.threads index = .exited then some rest else none

/-- The lock of the destroyed mutex fails, and the exception that leaves the thread ends the process.
The flag and the counters have no destructor, so a worker reads and writes them as before. -/
def LockFails (pool : ThreadPool nCooks) (remaining : List Member) (index : Fin nCooks) : Prop :=
  .queueMutex ∉ remaining ∧ (pool.threads index).testing = true

instance (pool : ThreadPool nCooks) (remaining : List Member) (index : Fin nCooks) :
    Decidable (pool.LockFails remaining index) := inferInstanceAs (Decidable (_ ∧ _))

end ThreadPool

/-- The remaining members still live and the first of them is destroyed next. A failed lock has
aborted the process. -/
structure Teardown (nCooks : Nat) where
  client : PoolClient nCooks
  remaining : List Member
  aborted : Bool

inductive TeardownLabel (nCooks : Nat) where
  | pool (label : PoolLabel nCooks)
  | destroy

namespace Teardown

variable {nCooks : Nat}

/-- An aborted process takes no step. -/
def step (state : Teardown nCooks) (label : TeardownLabel nCooks) : Option (Teardown nCooks) :=
  if state.aborted then none
  else match label with
  | .pool (.worker index) =>
      if state.client.pool.LockFails state.remaining index then some { state with aborted := true }
      else (state.client.step (.worker index)).map fun client => { state with client }
  | .pool label => (state.client.step label).map fun client => { state with client }
  | .destroy =>
      if state.client.phase = .stopped then
        (state.client.pool.destroyMember state.remaining).map fun remaining =>
          { state with remaining }
      else none

/-- The teardown machine runs the pool, stops it and then destroys its members. -/
def machine (nCooks : Nat) : Machine (Teardown nCooks) (TeardownLabel nCooks) where
  initial := ⟨(PoolClient.machine nCooks).initial, Member.destructionOrder, false⟩
  step := step

end Teardown

end Plazza
