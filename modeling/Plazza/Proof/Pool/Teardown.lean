import Plazza.Construction.PoolClient
import Plazza.Proof.Pool.Conservation
import Mathlib.Data.List.Infix

namespace Plazza.Teardown
open Plazza.Foundation

variable {nCooks : Nat}

/-- A member that a worker uses is destroyed. -/
def UsedGone (remaining : List Member) : Prop :=
  ∃ member ∈ Member.usedByWorkers, member ∉ remaining

instance (remaining : List Member) : Decidable (UsedGone remaining) :=
  inferInstanceAs (Decidable (∃ member ∈ _, _))

/-- Every worker has left its loop once a member that it uses is destroyed. -/
def LeftBeforeDestruction (state : Teardown nCooks) : Prop :=
  UsedGone state.remaining → ∀ index, state.client.pool.threads index = .exited

instance (state : Teardown nCooks) : Decidable state.LeftBeforeDestruction :=
  inferInstanceAs (Decidable (_ → _))

/-- The pool moves, a lock of the destroyed mutex fails, or the destructor destroys a member. -/
inductive Transition (state : Teardown nCooks) : TeardownLabel nCooks → Teardown nCooks → Prop
  | pool (label : PoolLabel nCooks) (client : PoolClient nCooks)
      (locks : ∀ index, label = .worker index → ¬state.client.pool.LockFails state.remaining index)
      (moved : state.client.step label = some client) :
      Transition state (.pool label) { state with client }
  | fail (index : Fin nCooks) (fails : state.client.pool.LockFails state.remaining index) :
      Transition state (.pool (.worker index)) { state with aborted := true }
  | destroy (remaining : List Member) (stopped : state.client.phase = .stopped)
      (destroyed : state.client.pool.destroyMember state.remaining = some remaining) :
      Transition state .destroy { state with remaining }

/-- Every proof about a step is by cases on these transitions. -/
theorem transition_of_step {state next : Teardown nCooks} {label : TeardownLabel nCooks}
    (taken : state.step label = some next) :
    state.aborted = false ∧ state.Transition label next := by
  unfold step at taken
  split at taken
  · cases taken
  rename_i runs
  refine ⟨Bool.eq_false_of_not_eq_true runs, ?_⟩
  split at taken
  · rename_i index
    split at taken
    · cases taken
      exact .fail index ‹_›
    · rename_i locks
      obtain ⟨client, moved, rfl⟩ := Option.map_eq_some_iff.mp taken
      refine .pool (.worker index) client (fun other same => ?_) moved
      cases same
      exact locks
  · rename_i label other
    obtain ⟨client, moved, rfl⟩ := Option.map_eq_some_iff.mp taken
    exact .pool label client (fun index same => absurd same (other index)) moved
  · split at taken
    · obtain ⟨remaining, destroyed, rfl⟩ := Option.map_eq_some_iff.mp taken
      exact .destroy remaining ‹_› destroyed
    · cases taken

/-- The pool moves when no lock fails. -/
theorem step_pool {state : Teardown nCooks} {client : PoolClient nCooks} {label : PoolLabel nCooks}
    (runs : state.aborted = false)
    (locks : ∀ index, label = .worker index → ¬state.client.pool.LockFails state.remaining index)
    (moved : state.client.step label = some client) :
    state.step (.pool label) = some { state with client } := by
  cases label with
  | worker index => simp [step, runs, locks index rfl, moved]
  | addPizza | stop | notifyAll | giveUp | wakeSpuriously => simp [step, runs, moved]

/-- A failed lock aborts the process. -/
theorem step_fail {state : Teardown nCooks} {index : Fin nCooks} (runs : state.aborted = false)
    (fails : state.client.pool.LockFails state.remaining index) :
    state.step (.pool (.worker index)) = some { state with aborted := true } := by
  simp [step, runs, fails]

/-- The destructor of a stopped pool destroys a member. -/
theorem step_destroy {state : Teardown nCooks} {remaining : List Member}
    (runs : state.aborted = false) (stopped : state.client.phase = .stopped)
    (destroyed : state.client.pool.destroyMember state.remaining = some remaining) :
    state.step .destroy = some { state with remaining } := by
  simp [step, runs, stopped, destroyed]

/-- The pool takes the steps of a teardown that neither fail nor destroy. -/
def observe (state : Teardown nCooks) : TeardownLabel nCooks → Option (PoolLabel nCooks)
  | .pool (.worker index) =>
      if state.client.pool.LockFails state.remaining index then none else some (.worker index)
  | .pool label => some label
  | .destroy => none

theorem observe_pool {state : Teardown nCooks} {label : PoolLabel nCooks}
    (locks : ∀ index, label = .worker index → ¬state.client.pool.LockFails state.remaining index) :
    state.observe (.pool label) = some label := by
  cases label with
  | worker index => exact if_neg (locks index rfl)
  | addPizza | stop | notifyAll | giveUp | wakeSpuriously => rfl

/-- A teardown runs the pool. -/
theorem refines_poolClient (nCooks : Nat) :
    Machine.Refinement (machine nCooks) (PoolClient.machine nCooks) Teardown.client observe := by
  refine .of_follows rfl fun {state next label} _ taken => ?_
  cases (transition_of_step taken).2 with
  | pool label client locks moved =>
      rw [observe_pool locks]
      exact moved
  | fail index fails =>
      rw [observe, if_pos fails]
      rfl
  | destroy => rfl

/-- The owner does not come back from `stop`. -/
theorem stopped_step {client next : PoolClient nCooks} {label : PoolLabel nCooks}
    (taken : client.step label = some next) (stopped : client.phase = .stopped) :
    next.phase = .stopped := by
  cases label with
  | addPizza | stop | notifyAll => simp [PoolClient.step, stopped] at taken
  | worker | giveUp | wakeSpuriously =>
      obtain ⟨pool, _, rfl⟩ := Option.map_eq_some_iff.mp taken
      exact stopped

/-- Every member lives until the owner has stopped the pool. -/
theorem whole_of_reachable {state : Teardown nCooks} (reached : (machine nCooks).Reachable state) :
    state.client.phase ≠ .stopped →
      state.remaining = Member.destructionOrder ∧ state.aborted = false := by
  refine reached.invariant (motive := fun state => state.client.phase ≠ .stopped →
    state.remaining = Member.destructionOrder ∧ state.aborted = false) (fun _ => ⟨rfl, rfl⟩) ?_
  intro state next label _ whole _ taken serves
  cases (transition_of_step taken).2 with
  | pool label client _ moved => exact whole fun stopped => serves (stopped_step moved stopped)
  | fail index fails =>
      have lives : Member.queueMutex ∈ state.remaining := by
        rw [(whole serves).1]
        decide
      exact absurd lives fails.1
  | destroy _ stopped => exact absurd stopped serves

/-- No worker leaves its loop while the owner serves. -/
theorem active_of_serving {state : Teardown nCooks} (reached : (machine nCooks).Reachable state)
    (serving : state.client.phase = .serving) (index : Fin nCooks) :
    state.client.pool.threads index ≠ .exited := by
  intro left
  have inv := PoolClient.invariant_of_reachable
    ((refines_poolClient nCooks).reachable (fun _ _ => trivial) reached)
  have stopped := (inv.pool.exited index left).1
  rw [inv.running.mpr serving] at stopped
  cases stopped

/-- The destructor of a stopped pool does not wait for a worker before it destroys the load counter. -/
theorem exists_usedGone {start : Teardown nCooks} (reached : (machine nCooks).Reachable start)
    (serving : start.client.phase = .serving) :
    ∃ state, ((machine nCooks).startingAt start).Reachable state ∧ UsedGone state.remaining ∧
      ∀ index, state.client.pool.threads index ≠ .exited := by
  obtain ⟨whole, runs⟩ := whole_of_reachable reached (by simp [serving])
  let stopped : PoolClient nCooks := ⟨start.client.pool.stop.notifyAll, .stopped⟩
  have ran : ((machine nCooks).startingAt start).run (fun _ _ => true) start
      [.pool .stop, .pool .notifyAll, .destroy, .destroy, .destroy] =
        some ⟨stopped, Member.destructionOrder.drop 3, false⟩ := by
    obtain ⟨client, remaining, aborted⟩ := start
    cases runs
    cases whole
    simp [Machine.run, Machine.startingAt, machine, step, PoolClient.step,
      ThreadPool.destroyMember, Member.destructionOrder, Member.declarationOrder, stopped] at serving ⊢
    simp [serving]
  have later : ((machine nCooks).startingAt start).Reachable
      ⟨stopped, Member.destructionOrder.drop 3, false⟩ :=
    (Machine.ReachableUnder.run .initial ran).mono fun _ _ _ => trivial
  have gone : UsedGone (Member.destructionOrder.drop 3) := by decide
  refine ⟨_, later, gone, fun index left => ?_⟩
  have woken : ThreadPool.wakeThreads start.client.pool.threads (fun _ => true) index = .exited := left
  exact active_of_serving reached serving index (ThreadPool.wakeThreads_eq_exited.mp woken)

/-- The workers stay ahead of the destructor exactly in a kitchen without cooks, in all runs and in all
runs from any state in which the owner serves. -/
theorem leftBeforeDestruction_iff (nCooks : Nat) :
    ((∀ state, (machine nCooks).Reachable state → state.LeftBeforeDestruction) ↔ nCooks = 0) ∧
      ∀ start, (machine nCooks).Reachable start → start.client.phase = .serving →
        ((∀ state, ((machine nCooks).startingAt start).Reachable state →
          state.LeftBeforeDestruction) ↔ nCooks = 0) := by
  have serving : ∀ start, (machine nCooks).Reachable start → start.client.phase = .serving →
      ((∀ state, ((machine nCooks).startingAt start).Reachable state →
        state.LeftBeforeDestruction) ↔ nCooks = 0) := by
    intro start reached serving
    constructor
    · intro safe
      by_contra cooks
      obtain ⟨state, later, gone, active⟩ := exists_usedGone reached serving
      exact active ⟨0, Nat.pos_of_ne_zero cooks⟩ (safe state later gone _)
    · rintro rfl state _ _ index
      exact index.elim0
  exact ⟨serving _ .initial rfl, serving⟩

/-- A woken worker has not yet locked the mutex when the destructor destroys it. -/
theorem not_leftBeforeDestruction :
    ¬∀ (nCooks : Nat) (state : Teardown nCooks), (machine nCooks).Reachable state →
      state.LeftBeforeDestruction := by
  intro safe
  obtain ⟨state, reached, checked⟩ := (machine 1).exists_reachable
    [.pool (.worker 0), .pool .stop, .pool .notifyAll, .destroy, .destroy, .destroy, .destroy,
      .destroy, .destroy]
    (fun state => state.client.pool.threads 0 = .woken ∧ UsedGone state.remaining) (by decide)
  have checked := of_decide_eq_true checked
  have left := safe 1 state reached checked.2 0
  rw [checked.1] at left
  cases left

end Plazza.Teardown
