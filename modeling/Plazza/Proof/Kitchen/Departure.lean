import Plazza.Proof.Kitchen.Idle
import Plazza.Proof.Kitchen.Liveness

namespace Plazza
open Plazza.Foundation

namespace ThreadPool

variable {nCooks : Nat}

end ThreadPool

namespace KitchenWorker

variable {nCooks : Nat} {limit : Option Nat} {now : Nat}

/-- A process that closes goes on to its exit. -/
theorem Transition.closes {site next : Site (KitchenWorker nCooks)} {wake : Fin nCooks → Bool}
    (moved : Transition limit now site (.main wake) next)
    (joined : site.process.control.joined = true) : next.process.control.joined = true := by
  cases moved with
  | close | join => rfl
  | advance _ process moves =>
      cases moves with
      | start control | accepted control | readStock _ control | readCook _ _ _ control
      | build _ _ _ _ control | responded control | sample _ control | timeOut _ _ control
      | idle _ _ control | busy _ _ control | wake _ _ control =>
          rw [control] at joined
          cases joined
  | pollEmpty _ control | pollShutdown _ _ _ control | poll _ _ _ control
  | accept _ _ _ _ control | refuse _ _ control | request _ _ control | ignore _ _ control
  | sendFull _ _ control | respond _ _ _ control | stop _ control | notify _ control =>
      rw [control] at joined
      cases joined

end KitchenWorker

namespace Kitchen

variable {nCooks : Nat} {limit : Option Nat}

end Kitchen

end Plazza
