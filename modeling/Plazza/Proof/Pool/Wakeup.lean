import Plazza.Construction.SharedPool
import Plazza.Proof.Pool.Conservation
import Mathlib.Algebra.Order.BigOperators.Group.Finset

namespace Plazza
open Plazza.Foundation

/-- A position counts a worker that will test the queue. -/
def Position.tests (position : Position) : Nat := if position.testing then 1 else 0

namespace ThreadPool

variable {nCooks : Nat}

/-- A sleeper leaves no more pizzas in the queue than workers that will test it. -/
def Watched (pool : ThreadPool nCooks) : Prop :=
  (∃ index, pool.threads index = .waiting) →
    pool.queue.length ≤ ∑ index, (pool.threads index).tests

/-- A worker that moves elsewhere than to sleep takes at most its own pizza. -/
theorem Watched.move {pool next : ThreadPool nCooks} {index : Fin nCooks} {position : Position}
    (watched : pool.Watched) (threads : next.threads = Function.update pool.threads index position)
    (awake : position ≠ .waiting)
    (queue : next.queue.length + (pool.threads index).tests ≤ pool.queue.length + position.tests) :
    next.Watched := by
  rintro ⟨sleeper, asleep⟩
  rw [threads] at asleep ⊢
  have other : sleeper ≠ index := by
    rintro rfl
    rw [Function.update_self] at asleep
    exact awake asleep
  rw [Function.update_of_ne other] at asleep
  have enough := watched ⟨sleeper, asleep⟩
  have exchanged := sum_update Position.tests pool.threads index position
  omega

/-- Nothing is left unwatched in an empty queue. -/
theorem Watched.of_empty {pool : ThreadPool nCooks} (empty : pool.queue = []) : pool.Watched := by
  intro _
  rw [empty]
  exact Nat.zero_le _

/-- A notification makes no worker forget the queue. -/
theorem tests_wakeThreads (threads : Fin nCooks → Position) (wake : Fin nCooks → Bool)
    (index : Fin nCooks) : (threads index).tests ≤ (wakeThreads threads wake index).tests := by
  unfold wakeThreads
  split
  · rename_i woken
    rw [woken.1]
    exact Nat.zero_le _
  · exact le_rfl

/-- A notification sends no worker to sleep. -/
theorem asleep_wakeThreads {threads : Fin nCooks → Position} {wake : Fin nCooks → Bool}
    {sleeper : Fin nCooks} (asleep : wakeThreads threads wake sleeper = .waiting) :
    threads sleeper = .waiting := by
  unfold wakeThreads at asleep
  split at asleep
  · cases asleep
  · exact asleep

/-- The woken worker makes up for the new pizza. -/
theorem Watched.addPizza {pool : ThreadPool nCooks} (watched : pool.Watched) (pizza : Ticket)
    {wake : Fin nCooks → Bool} (notifies : NotifiesOne pool.threads wake) :
    (pool.addPizza pizza wake).2.Watched := by
  unfold ThreadPool.addPizza
  split
  · exact watched
  · rintro ⟨sleeper, asleep⟩
    simp only [List.length_append, List.length_singleton] at asleep ⊢
    have before : pool.threads sleeper = .waiting := asleep_wakeThreads asleep
    obtain ⟨index, waits, woken⟩ := notifies ⟨sleeper, before⟩
    have enough := watched ⟨sleeper, before⟩
    have more : ∑ other, (pool.threads other).tests <
        ∑ other, (wakeThreads pool.threads wake other).tests := by
      refine Finset.sum_lt_sum (fun other _ => tests_wakeThreads pool.threads wake other)
        ⟨index, Finset.mem_univ _, ?_⟩
      rw [wakeThreads, if_pos ⟨waits, woken⟩, waits]
      exact Nat.one_pos
    omega

/-- A broadcast leaves no sleeper. -/
theorem notifyAll_threads (pool : ThreadPool nCooks) (index : Fin nCooks) :
    pool.notifyAll.threads index ≠ .waiting := by
  simp only [notifyAll, wakeThreads]
  split
  · simp
  · rename_i awake
    exact fun asleep => awake ⟨asleep, trivial⟩

/-- Each step of a worker leaves the queue watched. -/
theorem Watched.workerLoop {pool next : ThreadPool nCooks} (watched : pool.Watched)
    {index : Fin nCooks} (taken : pool.workerLoop index = some next) : next.Watched := by
  cases step_of_workerLoop taken with
  | sleep tests empty runs => exact Watched.of_empty empty
  | leave tests empty stopped => exact Watched.of_empty empty
  | pop pizza rest tests front =>
      refine watched.move rfl (by simp) ?_
      have tested : (pool.threads index).tests = 1 := view_of_tests Position.tests rfl tests
      rw [tested, front, List.length_cons]
      exact Nat.le_add_right _ _
  -- every other step leads a worker that held a pizza to a waking position
  | prepare pizza stands | bake pizza stands | serve pizza stands | release pizza stands
  | finish pizza stands =>
      refine watched.move rfl (by simp) ?_
      rw [stands]
      exact Nat.le_add_right _ _

/-- A cook that gives up leaves the queue watched. -/
theorem Watched.giveUp {pool next : ThreadPool nCooks} (watched : pool.Watched)
    {index : Fin nCooks} (taken : pool.giveUp index = some next) : next.Watched := by
  unfold ThreadPool.giveUp at taken
  split at taken <;> cases taken
  rename_i stands
  refine watched.move rfl (by simp) ?_
  rw [stands]
  exact Nat.le_add_right _ _

/-- A spurious wake-up adds a worker that tests the queue. -/
theorem Watched.wakeSpuriously {pool next : ThreadPool nCooks} (watched : pool.Watched)
    {index : Fin nCooks} (taken : pool.wakeSpuriously index = some next) : next.Watched := by
  unfold ThreadPool.wakeSpuriously at taken
  split at taken <;> cases taken
  rename_i stands
  refine watched.move rfl (by simp) ?_
  rw [stands]
  exact Nat.le_add_right _ _

/-- A moved worker is the only one that may have gone to sleep. -/
theorem asleep_of_move {pool next : ThreadPool nCooks} {index sleeper : Fin nCooks}
    {position : Position} (threads : next.threads = Function.update pool.threads index position)
    (awake : position ≠ .waiting) (asleep : next.threads sleeper = .waiting) :
    pool.threads sleeper = .waiting := by
  rw [threads] at asleep
  by_cases same : sleeper = index
  · subst same
    rw [Function.update_self] at asleep
    exact absurd asleep awake
  · rwa [Function.update_of_ne same] at asleep

/-- A worker goes to sleep only while the pool runs. -/
theorem asleep_workerLoop {pool next : ThreadPool nCooks} {index sleeper : Fin nCooks}
    (taken : pool.workerLoop index = some next) (stopped : pool.running = false)
    (asleep : next.threads sleeper = .waiting) : pool.threads sleeper = .waiting := by
  cases step_of_workerLoop taken
  case sleep tests empty runs =>
    rw [stopped] at runs
    cases runs
  all_goals exact asleep_of_move rfl (by simp) asleep

theorem asleep_giveUp {pool next : ThreadPool nCooks} {index sleeper : Fin nCooks}
    (taken : pool.giveUp index = some next) (asleep : next.threads sleeper = .waiting) :
    pool.threads sleeper = .waiting := by
  unfold giveUp at taken
  split at taken <;> cases taken
  exact asleep_of_move rfl (by simp) asleep

theorem asleep_wakeSpuriously {pool next : ThreadPool nCooks} {index sleeper : Fin nCooks}
    (taken : pool.wakeSpuriously index = some next) (asleep : next.threads sleeper = .waiting) :
    pool.threads sleeper = .waiting := by
  unfold wakeSpuriously at taken
  split at taken <;> cases taken
  exact asleep_of_move rfl (by simp) asleep

theorem asleep_addPizza {pool : ThreadPool nCooks} {pizza : Ticket} {wake : Fin nCooks → Bool}
    {sleeper : Fin nCooks} (asleep : (pool.addPizza pizza wake).2.threads sleeper = .waiting) :
    pool.threads sleeper = .waiting := by
  unfold addPizza at asleep
  split at asleep
  · exact asleep
  · exact asleep_wakeThreads asleep

end ThreadPool

namespace SharedPool

variable {nCooks : Nat}

/-- No wake-up is lost: the sleepers leave no unwatched pizza and none of them outlasts `stop`. -/
structure Wakeful (shared : SharedPool nCooks) : Prop where
  watched : shared.pool.Watched
  cleared : 0 < shared.notifying ∨ shared.stopped = true → shared.pool.running = false
  awake : shared.stopped = true → ∀ index, shared.pool.threads index ≠ .waiting

/-- A step that leaves the flag and sends no worker to sleep after `stop` keeps the property. -/
theorem Wakeful.replace {shared : SharedPool nCooks} (wakeful : shared.Wakeful)
    {pool : ThreadPool nCooks} (watched : pool.Watched) (running : pool.running = shared.pool.running)
    (asleep : shared.pool.running = false → ∀ index, pool.threads index = .waiting →
      shared.pool.threads index = .waiting) :
    ({ shared with pool } : SharedPool nCooks).Wakeful where
  watched := watched
  cleared ended := running.trans (wakeful.cleared ended)
  awake ended index sleeps :=
    wakeful.awake ended index (asleep (wakeful.cleared (.inr ended)) index sleeps)

/-- Each step of a caller or of a worker keeps the property. -/
theorem Wakeful.step {shared next : SharedPool nCooks} {label : PoolLabel nCooks}
    (wakeful : shared.Wakeful) (taken : shared.step label = some next) : next.Wakeful := by
  cases label with
  | addPizza pizza wake =>
      simp only [SharedPool.step] at taken
      split at taken <;> cases taken
      rename_i notifies
      exact wakeful.replace (wakeful.watched.addPizza pizza notifies)
        (PoolClient.running_addPizza _ _ _) fun _ _ => ThreadPool.asleep_addPizza
  | stop =>
      cases taken
      exact ⟨wakeful.watched, fun _ => rfl, wakeful.awake⟩
  | notifyAll =>
      simp only [SharedPool.step] at taken
      split at taken <;> cases taken
      rename_i pending
      have awake := ThreadPool.notifyAll_threads shared.pool
      have cleared := wakeful.cleared (.inl (by omega))
      exact ⟨fun ⟨index, asleep⟩ => absurd asleep (awake index), fun _ => cleared, fun _ => awake⟩
  | worker index =>
      obtain ⟨pool, moved, rfl⟩ := Option.map_eq_some_iff.mp taken
      exact wakeful.replace (wakeful.watched.workerLoop moved) (PoolClient.running_workerLoop moved)
        fun stopped _ => ThreadPool.asleep_workerLoop moved stopped
  | giveUp index =>
      obtain ⟨pool, moved, rfl⟩ := Option.map_eq_some_iff.mp taken
      exact wakeful.replace (wakeful.watched.giveUp moved) (PoolClient.running_giveUp moved)
        fun _ _ => ThreadPool.asleep_giveUp moved
  | wakeSpuriously index =>
      obtain ⟨pool, moved, rfl⟩ := Option.map_eq_some_iff.mp taken
      exact wakeful.replace (wakeful.watched.wakeSpuriously moved)
        (PoolClient.running_wakeSpuriously moved) fun _ _ => ThreadPool.asleep_wakeSpuriously moved

/-- The property holds in every reachable state. -/
theorem wakeful_of_reachable {shared : SharedPool nCooks}
    (reached : (machine nCooks).Reachable shared) : shared.Wakeful := by
  refine reached.invariant ⟨?_, ?_, ?_⟩ fun _ wakeful _ taken => wakeful.step taken
  · exact ThreadPool.Watched.of_empty rfl
  · rintro (pending | ended)
    · cases pending
    · cases ended
  · intro ended
    cases ended

/-- The number of the workers that test the queue is the sum of their counts. -/
theorem sum_tests (threads : Fin nCooks → Position) :
    ∑ index, (threads index).tests =
      (Finset.univ.filter fun index => (threads index).testing = true).card := by
  rw [Finset.card_filter]
  rfl

/-- No wake-up is lost, whoever adds pizzas and stops the pool. -/
theorem sleepers_of_reachable {shared : SharedPool nCooks}
    (reached : (machine nCooks).Reachable shared) :
    ((∃ index, shared.pool.threads index = .waiting) →
      shared.pool.queue.length ≤
          (Finset.univ.filter fun index => (shared.pool.threads index).testing = true).card ∧
        shared.stopped = false) ∧
    (shared.pool.queue ≠ [] → (∃ index, shared.pool.threads index = .waiting) →
      ∃ index, (shared.pool.threads index).testing = true) ∧
    (shared.stopped = true → ∀ index, shared.pool.threads index ≠ .waiting) := by
  have wakeful := wakeful_of_reachable reached
  have enough (asleep : ∃ index, shared.pool.threads index = .waiting) :
      shared.pool.queue.length ≤
        (Finset.univ.filter fun index => (shared.pool.threads index).testing = true).card := by
    rw [← sum_tests]
    exact wakeful.watched asleep
  refine ⟨fun asleep => ⟨enough asleep, ?_⟩, fun filled asleep => ?_, wakeful.awake⟩
  · obtain ⟨index, sleeps⟩ := asleep
    cases ended : shared.stopped with
    | false => rfl
    | true => exact absurd sleeps (wakeful.awake ended index)
  · have some_pizza : 0 < shared.pool.queue.length := List.length_pos_of_ne_nil filled
    obtain ⟨index, tests⟩ := Finset.card_pos.mp (some_pizza.trans_le (enough asleep))
    exact ⟨index, (Finset.mem_filter.mp tests).2⟩

/-- One worker is on its way to the only pizza and the other one still sleeps. -/
theorem sleepers_after_addPizza :
    ∃ shared, (machine 2).Reachable shared ∧
      (shared.pool.threads 1 = .waiting ∧ shared.pool.queue.length = 1) ∧
      ((∃ index, shared.pool.threads index = .waiting) →
        shared.pool.queue.length ≤
            (Finset.univ.filter fun index => (shared.pool.threads index).testing = true).card ∧
          shared.stopped = false) ∧
      (shared.pool.queue ≠ [] → (∃ index, shared.pool.threads index = .waiting) →
        ∃ index, (shared.pool.threads index).testing = true) ∧
      (shared.stopped = true → ∀ index, shared.pool.threads index ≠ .waiting) := by
  obtain ⟨shared, reached, checked⟩ := (machine 2).exists_reachable
    [.worker 0, .worker 1, .addPizza ⟨⟨.regina, .s, [], 2⟩, 1⟩ fun index => index = 0]
    (fun shared => shared.pool.threads 1 = .waiting ∧ shared.pool.queue.length = 1) (by decide)
  exact ⟨shared, reached, of_decide_eq_true checked, sleepers_of_reachable reached⟩

end SharedPool

namespace PoolClient

variable {nCooks : Nat}

/-- The owner of the kitchen is one of the callers. -/
def shared (client : PoolClient nCooks) : SharedPool nCooks :=
  match client.phase with
  | .serving => ⟨client.pool, 0, false⟩
  | .stopping => ⟨client.pool, 1, false⟩
  | .stopped => ⟨client.pool, 0, true⟩

@[simp] theorem shared_pool (client : PoolClient nCooks) : client.shared.pool = client.pool := by
  unfold shared
  split <;> rfl

/-- A step of the pool alone does not depend on the phase of the owner. -/
theorem shared_replace (client : PoolClient nCooks) (pool : ThreadPool nCooks) :
    ({ client with pool } : PoolClient nCooks).shared = { client.shared with pool } := by
  unfold shared
  cases client.phase <;> rfl

/-- The pool with one orderly owner is a shared pool. -/
theorem refines_sharedPool (nCooks : Nat) :
    Machine.Refinement (machine nCooks) (SharedPool.machine nCooks) shared
      fun _ label => some label where
  initial := rfl
  silent _ _ unseen := by cases unseen
  visible {client next label event} _ taken seen := by
    obtain rfl : label = event := Option.some.inj seen
    change PoolClient.step client label = some next at taken
    change client.shared.step label = some next.shared
    cases label with
    | addPizza pizza wake =>
        simp only [PoolClient.step] at taken
        split at taken <;> cases taken
        rename_i allowed
        simp only [SharedPool.step, shared_pool, if_pos allowed.2, shared_replace]
    | stop =>
        simp only [PoolClient.step] at taken
        split at taken <;> cases taken
        rename_i serving
        simp only [SharedPool.step, shared, serving]
    | notifyAll =>
        simp only [PoolClient.step] at taken
        split at taken <;> cases taken
        rename_i stopping
        simp only [SharedPool.step, shared, stopping]
    | worker index =>
        obtain ⟨pool, moved, rfl⟩ := Option.map_eq_some_iff.mp taken
        simp only [SharedPool.step, shared_pool, moved, Option.map_some, shared_replace]
    | giveUp index =>
        obtain ⟨pool, moved, rfl⟩ := Option.map_eq_some_iff.mp taken
        simp only [SharedPool.step, shared_pool, moved, Option.map_some, shared_replace]
    | wakeSpuriously index =>
        obtain ⟨pool, moved, rfl⟩ := Option.map_eq_some_iff.mp taken
        simp only [SharedPool.step, shared_pool, moved, Option.map_some, shared_replace]

/-- The pool of a kitchen loses no wake-up. -/
theorem wakeful_of_reachable {client : PoolClient nCooks}
    (reached : (machine nCooks).Reachable client) : client.shared.Wakeful :=
  SharedPool.wakeful_of_reachable
    ((refines_sharedPool nCooks).reachable (fun _ _ => trivial) reached)

end PoolClient

end Plazza
