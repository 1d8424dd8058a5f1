import Plazza.Proof.Kitchen.Liveness

namespace Plazza
open Plazza.Foundation

/-- The loop polls, reads the clock and sleeps, and it has nothing in hand. -/
def Control.loops : Control → Bool
  | sampling running | checking running _ | sleeping running _ => running
  | starting | receiving => true
  | _ => false

namespace ThreadPool

variable {nCooks : Nat}

end ThreadPool

namespace KitchenWorker

variable {nCooks : Nat} {limit : Option Nat} {now : Nat}

/-- The statements and the time that are left until the loop notices the idle timeout. -/
def patience (now : Nat) (worker : KitchenWorker nCooks) : Nat :=
  let deadline := worker.lastActiveTime + kIdleTimeout
  match worker.control with
  | .starting => 5 * kIdleTimeout + 3
  | .receiving => 5 * (deadline - now) + 2
  | .sampling _ => 5 * (deadline - now) + 1
  | .checking _ sampled => if deadline ≤ sampled then 0 else 5 * (deadline - (now + kPollInterval)) + 4
  | .sleeping _ wakeTime => 5 * (deadline - max now wakeTime) + 3
  | _ => 0

/-- A main step of a loop without packets goes on with the loop, and an idle one loses patience. -/
theorem Transition.loops {site next : Site (KitchenWorker nCooks)} {wake : Fin nCooks → Bool}
    (moved : Transition limit now site (.main wake) next) (loops : site.process.control.loops = true)
    (unread : site.orderQueue.pending = []) :
    next.process.control.leaves = true ∨ next.process.control.loops = true ∧
      next.process.pool = site.process.pool ∧
      (site.process.isIdle = true → next.process.patience now < site.process.patience now) := by
  have interval : 0 < kPollInterval := by decide
  cases moved with
  | advance _ process moves =>
      cases moves with
      | start control =>
          refine .inr ⟨rfl, rfl, fun _ => ?_⟩
          simp only [patience, control]
          omega
      | sample running control =>
          rw [control] at loops
          refine .inr ⟨loops, rfl, fun _ => ?_⟩
          by_cases elapsed : site.process.lastActiveTime + kIdleTimeout ≤ now
          · simp [patience, goto, control, elapsed]
          · simp only [patience, goto, control, elapsed, if_false]
            omega
      | timeOut => exact .inl rfl
      | idle running sampled control _ early =>
          rw [control] at loops
          refine .inr ⟨loops, rfl, fun _ => ?_⟩
          simp only [patience, goto, control, if_neg (Nat.not_le.mpr early)]
          omega
      | busy running sampled control busy =>
          rw [control] at loops
          exact .inr ⟨loops, rfl, fun idle => by rw [busy] at idle; cases idle⟩
      | wake running wakeTime control elapsed =>
          rw [control] at loops
          obtain rfl : running = true := loops
          refine .inr ⟨rfl, rfl, fun _ => ?_⟩
          simp only [patience, goto, control, if_true]
          omega
      | accepted control | readStock _ control | readCook _ _ _ control | build _ _ _ _ control
      | responded control =>
          rw [control] at loops
          cases loops
  | pollEmpty _ control =>
      refine .inr ⟨rfl, rfl, fun _ => ?_⟩
      simp only [patience, goto, control]
      omega
  | pollShutdown _ _ _ _ received | poll _ _ _ _ received =>
      rw [(Fifo.receive_eq_some_iff.mp received).1] at unread
      cases unread
  | accept _ _ _ _ control | refuse _ _ control | request _ _ control | ignore _ _ control
  | sendFull _ _ control | respond _ _ _ control | stop _ control | notify _ control
  | join _ control | close _ control =>
      rw [control] at loops
      cases loops

/-- A main step outside of the loop comes back to it, ends it or comes closer to its next round. -/
theorem Transition.returns {site next : Site (KitchenWorker nCooks)} {wake : Fin nCooks → Bool}
    (moved : Transition limit now site (.main wake) next)
    (busy : site.process.control.loops = false ∧ site.process.control.leaves = false) :
    ¬(next.process.control.loops = false ∧ next.process.control.leaves = false) ∨
      next.process.control.distance nCooks < site.process.control.distance nCooks := by
  cases moved with
  | advance _ process moves =>
      rcases moves.closer busy.2 with left | closer
      · exact .inl fun still => by rw [left] at still; cases still.2
      · exact .inr closer
  | pollEmpty _ control | pollShutdown _ _ _ control | poll _ _ _ control =>
      rw [control] at busy
      cases busy.1
  | accept _ _ _ _ control | refuse _ _ control | request _ _ control | respond _ _ _ control =>
      right
      rw [control]
      simp [goto, Control.distance] <;> omega
  | ignore | sendFull => exact .inl fun still => by cases still.1
  | stop _ control | notify _ control | join _ control | close _ control =>
      rw [control] at busy
      cases busy.2

end KitchenWorker

namespace Kitchen

variable {nCooks : Nat} {limit : Option Nat}

/-- A process that has exited stays so. -/
theorem exited_stable :
    (machine nCooks limit).Stable fun kitchen => kitchen.site.process.hasExited = true := by
  intro kitchen next label reached exits taken
  rcases step_cases taken with ⟨moved, _, own, _⟩ | ⟨_, same, _⟩
  · exact absurd ⟨label, next, rfl, taken⟩
      (disabled_of_exited reached exits (· = label) fun _ same => ⟨moved, same.trans own⟩)
  · rw [same]
    exact exits

section Scheduled

variable {execution : (machine nCooks limit).Execution} (scheduled : Scheduled execution)
include scheduled

end Scheduled

end Kitchen

end Plazza
