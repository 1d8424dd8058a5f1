import Plazza.Construction.PoolClient

namespace Plazza
open Plazza.Foundation

/-- Any number of callers share the pool. The number counts the calls of `stop` that have cleared the
flag and not notified yet, and the flag tells whether a call of `stop` has returned. -/
structure SharedPool (nCooks : Nat) where
  pool : ThreadPool nCooks
  notifying : Nat
  stopped : Bool

namespace SharedPool

variable {nCooks : Nat}

/-- No caller keeps to an order: `addPizza` and `stop` are called at any time. -/
def step (shared : SharedPool nCooks) : PoolLabel nCooks → Option (SharedPool nCooks)
  | .addPizza pizza wake =>
      if ThreadPool.NotifiesOne shared.pool.threads wake then
        some { shared with pool := (shared.pool.addPizza pizza wake).2 }
      else none
  | .stop => some { shared with pool := shared.pool.stop, notifying := shared.notifying + 1 }
  | .notifyAll =>
      match shared.notifying with
      | 0 => none
      | notifying + 1 => some ⟨shared.pool.notifyAll, notifying, true⟩
  | .worker index => (shared.pool.workerLoop index).map fun pool => { shared with pool }
  | .giveUp index => (shared.pool.giveUp index).map fun pool => { shared with pool }
  | .wakeSpuriously index => (shared.pool.wakeSpuriously index).map fun pool => { shared with pool }

def machine (nCooks : Nat) : Machine (SharedPool nCooks) (PoolLabel nCooks) where
  initial := ⟨ThreadPool.start nCooks, 0, false⟩
  step := step

end SharedPool

end Plazza
