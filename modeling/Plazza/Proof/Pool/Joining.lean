import Plazza.Proof.Pool.Progress
import Plazza.Proof.Pool.Teardown

namespace Plazza
open Plazza.Foundation

namespace TeardownLabel

variable {nCooks : Nat}

/-- The thread of a worker. -/
def Of (index : Fin nCooks) : TeardownLabel nCooks → Prop
  | .pool label => label.Of index
  | .destroy => False

end TeardownLabel

namespace PoolClient

variable {nCooks : Nat}

end PoolClient

namespace ThreadPool

variable {nCooks : Nat}

/-- A worker whose lock fails is in its loop. -/
theorem LockFails.active {pool : ThreadPool nCooks} {remaining : List Member} {index : Fin nCooks}
    (fails : pool.LockFails remaining index) : pool.threads index ≠ .exited := by
  intro left
  have tests := fails.2
  rw [left] at tests
  cases tests

/-- A destruction shortens the list of the living members. -/
theorem destroyMember_eq_some {pool : ThreadPool nCooks} {remaining rest : List Member}
    (destroyed : pool.destroyMember remaining = some rest) :
    ∃ first, remaining = first :: rest ∧ (first = .threads → ∀ index, pool.threads index = .exited) := by
  unfold destroyMember at destroyed
  split at destroyed
  · cases destroyed
  · split at destroyed <;> cases destroyed
    exact ⟨_, rfl, ‹_›⟩

/-- The destructor does not wait for workers that have left. -/
theorem exists_destroyMember {pool : ThreadPool nCooks} {remaining : List Member}
    (living : remaining ≠ []) (left : ∀ index, pool.threads index = .exited) :
    ∃ rest, pool.destroyMember remaining = some rest := by
  cases remaining with
  | nil => exact absurd rfl living
  | cons first rest => exact ⟨rest, if_pos fun _ => left⟩

end ThreadPool

namespace Teardown

variable {nCooks : Nat}

/-- The process aborts with a failed lock. -/
theorem fails_of_reachable {state : Teardown nCooks} (reached : (machine nCooks).Reachable state) :
    state.aborted = true → ∃ index, state.client.pool.LockFails state.remaining index := by
  refine reached.invariant (motive := fun state => state.aborted = true →
    ∃ index, state.client.pool.LockFails state.remaining index) (fun aborted => by cases aborted) ?_
  intro state next label _ _ _ taken aborted
  obtain ⟨runs, moved⟩ := transition_of_step taken
  cases moved with
  | fail index fails => exact ⟨index, fails⟩
  | pool | destroy =>
      rw [runs] at aborted
      cases aborted

/-- The workers are joined with the destruction of the threads. -/
theorem joined_of_reachable {state : Teardown nCooks} (reached : (machine nCooks).Reachable state) :
    .threads ∉ state.remaining → ∀ index, state.client.pool.threads index = .exited := by
  have fresh : Member.threads ∈ Member.destructionOrder := by decide
  refine reached.invariant (motive := fun state => .threads ∉ state.remaining →
    ∀ index, state.client.pool.threads index = .exited) (fun gone => absurd fresh gone) ?_
  intro state next label before joined _ taken gone index
  cases (transition_of_step taken).2 with
  | pool label client _ moved =>
      exact PoolClient.exited_stable index
        ((refines_poolClient nCooks).reachable (fun _ _ => trivial) before) (joined gone index) moved
  | fail => exact joined gone index
  | destroy remaining _ destroyed =>
      obtain ⟨first, living, joins⟩ := ThreadPool.destroyMember_eq_some destroyed
      by_cases threads : first = .threads
      · exact joins threads index
      · refine joined (fun member => ?_) index
        rw [living] at member
        rcases List.mem_cons.mp member with same | inside
        · exact threads same.symm
        · exact gone inside

section Fairness

variable {execution : (machine nCooks).Execution}
  (workers : ∀ index, execution.Fair (TeardownLabel.Of index))

include workers in
/-- The workers of a pool that is never aborted get their turns. -/
theorem pool_fair (runs : ∀ moment, (execution.state moment).aborted = false) (index : Fin nCooks) :
    (execution.map (refines_poolClient nCooks)).Fair (PoolLabel.Of index) := by
  refine (workers index).map_measured (refines_poolClient nCooks) (fun _ => 0) (fun _ => le_rfl) ?_ ?_
  · intro moment label labelled own
    have taken := execution.taken labelled
    have stays := runs (moment + 1)
    generalize execution.state (moment + 1) = next at taken stays
    cases (transition_of_step taken).2 with
    | pool label client locks moved => exact .inl ⟨label, observe_pool locks, own⟩
    | fail => cases stays
    | destroy => cases own
  · intro moment _ again
    obtain ⟨later, late, label, client, own, moved⟩ := again moment
    refine ⟨later, late, ?_⟩
    have moved : (execution.state later).client.step label = some client := moved
    by_cases fails : ∃ other, label = .worker other ∧
        (execution.state later).client.pool.LockFails (execution.state later).remaining other
    · obtain ⟨other, rfl, fails⟩ := fails
      exact ⟨.pool (.worker other), _, own, step_fail (runs later) fails⟩
    · have locks := fun other same fails' => fails ⟨other, same, fails'⟩
      exact ⟨.pool label, _, own, step_pool (runs later) locks moved⟩

/-- A worker that has left takes no step. -/
theorem not_enables_worker {state : Teardown nCooks} {index : Fin nCooks}
    (left : state.client.pool.threads index = .exited) :
    ¬(machine nCooks).Enables (TeardownLabel.Of index) state := by
  rintro ⟨label, next, own, taken⟩
  cases (transition_of_step taken).2 with
  | pool label client _ moved =>
      refine PoolClient.not_enables_worker ?_ ⟨label, client, own, moved⟩
      rw [left]
      rfl
  | fail other fails =>
      obtain rfl : other = index := own
      exact fails.active left
  | destroy => cases own

end Fairness

/-- A cook that serves its pizza after the destruction of the mutex aborts the process. -/
example : ((machine 1).run (fun _ _ => true) (machine 1).initial
    (.pool (.addPizza ⟨⟨.regina, .s, [], 2⟩, 1⟩ fun _ => false) ::
      .pool (.worker (Fin.last 0)) :: .pool .stop :: .pool .notifyAll :: List.replicate 7 .destroy ++
        List.replicate 6 (.pool (.worker (Fin.last 0))))).any (fun state => state.aborted) = true := by
  decide

end Teardown

end Plazza
