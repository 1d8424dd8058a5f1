import Plazza.Proof.Pool.Progress

namespace Plazza
open Plazza.Foundation

/-- A worker that has left the loop counts as one before its first lock. -/
def Position.reopened : Position → Position
  | exited => locking
  | position => position

@[simp] theorem Position.held_reopened (position : Position) :
    position.reopened.held = position.held := by
  cases position <;> rfl

namespace ThreadPool

variable {nCooks : Nat}

/-- The pool as if it ran and no worker had left. -/
def reopened (pool : ThreadPool nCooks) : ThreadPool nCooks :=
  { pool with running := true, threads := fun index => (pool.threads index).reopened }

/-- The counter, the queue and the histories agree, also when pizzas arrive after `stop`. -/
def Accounted (pool : ThreadPool nCooks) : Prop := pool.reopened.Invariant

/-- A notification wakes the same sleepers of the reopened pool. -/
theorem reopened_wakeThreads (threads : Fin nCooks → Position) (wake : Fin nCooks → Bool) :
    (fun index => (wakeThreads threads wake index).reopened) =
      wakeThreads (fun index => (threads index).reopened) wake := by
  funext index
  simp only [wakeThreads]
  generalize threads index = position
  cases position <;> cases wake index <;> simp [Position.reopened]

/-- A move of a worker is a move in the reopened pool. -/
theorem reopened_move (pool : ThreadPool nCooks) (index : Fin nCooks) (position : Position) :
    (pool.move index position).reopened = pool.reopened.move index position.reopened := by
  have moved : (fun other => (Function.update pool.threads index position other).reopened) =
      Function.update (fun other => (pool.threads other).reopened) index position.reopened := by
    funext other
    exact Function.apply_update (fun _ => Position.reopened) pool.threads index position other
  simp only [reopened, move, moved]

theorem Accounted.addPizza {pool : ThreadPool nCooks} (accounted : pool.Accounted) (pizza : Ticket)
    (wake : Fin nCooks → Bool) : (pool.addPizza pizza wake).2.Accounted := by
  have added := ThreadPool.Invariant.addPizza accounted rfl pizza wake
  have same : (pool.addPizza pizza wake).2.reopened = (pool.reopened.addPizza pizza wake).2 := by
    have full : pool.reopened.isFull = pool.isFull := rfl
    unfold ThreadPool.addPizza
    rw [full]
    split
    · rfl
    · simp only [reopened, reopened_wakeThreads]
  unfold Accounted
  rwa [same]

theorem Accounted.notifyAll {pool : ThreadPool nCooks} (accounted : pool.Accounted) :
    pool.notifyAll.Accounted := by
  have woken := ThreadPool.Invariant.woken accounted fun _ => true
  unfold Accounted
  simp only [reopened, ThreadPool.notifyAll, reopened_wakeThreads]
  exact woken

/-- A worker that keeps its pizza keeps the accounts. -/
theorem Accounted.move {pool : ThreadPool nCooks} (accounted : pool.Accounted) (index : Fin nCooks)
    (position : Position) (same : position.held = (pool.threads index).held) :
    (pool.move index position).Accounted := by
  unfold Accounted
  rw [reopened_move]
  refine ThreadPool.Invariant.move accounted index position.reopened ?_ fun left => ?_
  · rw [Position.held_reopened, same]
    exact (Position.held_reopened _).symm
  · cases position <;> cases left

/-- Each step of a worker is one of the reopened pool, where no worker leaves. -/
theorem Accounted.workerLoop {pool next : ThreadPool nCooks} (accounted : pool.Accounted)
    {index : Fin nCooks} (taken : pool.workerLoop index = some next) : next.Accounted := by
  cases step_of_workerLoop taken with
  | sleep tests empty runs =>
      exact accounted.move index .waiting (view_of_tests Position.held rfl tests).symm
  | leave tests empty stopped =>
      exact accounted.move index .exited (view_of_tests Position.held rfl tests).symm
  | pop pizza rest tests front =>
      have free : (pool.reopened.threads index).held = none :=
        (Position.held_reopened _).trans (view_of_tests Position.held rfl tests)
      have popped := ThreadPool.Invariant.pop accounted free front
      have moved : pool.reopened.move index (.popped pizza) =
          (pool.move index (.popped pizza)).reopened :=
        (reopened_move pool index (.popped pizza)).symm
      rw [moved] at popped
      exact popped
  | prepare pizza stands =>
      have moved := accounted.move index (.preparing pizza) (by rw [stands]; rfl)
      exact ThreadPool.Invariant.setCook moved _ _
  | bake pizza stands => exact accounted.move index (.baking pizza) (by rw [stands]; rfl)
  | serve pizza stands => exact accounted.move index (.served pizza) (by rw [stands]; rfl)
  | release pizza stands =>
      have moved := accounted.move index (.cooked pizza) (by rw [stands]; rfl)
      exact ThreadPool.Invariant.setCook moved _ _
  | finish pizza stands =>
      have held : (pool.reopened.threads index).held = some pizza :=
        (Position.held_reopened _).trans (by rw [stands]; rfl)
      have finished := ThreadPool.Invariant.finishPizza accounted held
      have moved : pool.reopened.move index .locking = (pool.move index .locking).reopened :=
        (reopened_move pool index .locking).symm
      rw [ThreadPool.finishPizza, moved] at finished
      exact finished

theorem Accounted.giveUp {pool next : ThreadPool nCooks} (accounted : pool.Accounted)
    {index : Fin nCooks} (taken : pool.giveUp index = some next) : next.Accounted := by
  obtain ⟨pizza, stands, rfl⟩ := giveUp_cases taken
  exact ThreadPool.Invariant.setCook (accounted.move index (.cooked pizza) (by rw [stands]; rfl)) _ _

theorem Accounted.wakeSpuriously {pool next : ThreadPool nCooks} (accounted : pool.Accounted)
    {index : Fin nCooks} (taken : pool.wakeSpuriously index = some next) : next.Accounted := by
  obtain ⟨asleep, rfl⟩ := wakeSpuriously_cases taken
  exact accounted.move index .woken (by rw [asleep]; rfl)

/-- The load counts the pizza of each worker. -/
theorem Accounted.load_pos {pool : ThreadPool nCooks} (accounted : pool.Accounted)
    {index : Fin nCooks} {pizza : Ticket} (held : (pool.threads index).held = some pizza) :
    0 < pool.load := by
  have counted : pool.reopened.Invariant := accounted
  exact counted.load_pos ((Position.held_reopened _).trans held)

/-- The load counts the queued pizzas and the ones that the workers hold. -/
theorem Accounted.load_eq {pool : ThreadPool nCooks} (accounted : pool.Accounted) :
    pool.load = pool.queue.length +
      (Finset.univ.filter fun index => (pool.threads index).held.isSome).card := by
  have counted : pool.reopened.Invariant := accounted
  have holding := PoolClient.sum_holding pool.reopened.threads
  simp only [reopened, Position.held_reopened] at holding
  rw [← holding]
  exact counted.load_eq

theorem Accounted.load_le {pool : ThreadPool nCooks} (accounted : pool.Accounted) :
    pool.load ≤ pool.getCapacity := by
  have counted : pool.reopened.Invariant := accounted
  exact counted.load_le

theorem Accounted.order {pool : ThreadPool nCooks} (accounted : pool.Accounted) :
    pool.accepted = pool.handed.map Prod.snd ++ pool.queue := by
  have counted : pool.reopened.Invariant := accounted
  exact counted.order

theorem Accounted.holds {pool : ThreadPool nCooks} (accounted : pool.Accounted)
    (index : Fin nCooks) : pool.handed.filter (·.1 = index) =
      pool.finished.filter (·.1 = index) ++ (pool.threads index).held.toList.map (index, ·) := by
  have counted : pool.reopened.Invariant := accounted
  rw [← Position.held_reopened]
  exact counted.holds index

end ThreadPool

namespace SharedPool

variable {nCooks : Nat}

/-- Every run with any number of callers keeps the accounts. -/
theorem accounted_of_reachable {shared : SharedPool nCooks}
    (reached : (machine nCooks).Reachable shared) : shared.pool.Accounted := by
  refine reached.invariant (motive := fun shared => shared.pool.Accounted)
    (ThreadPool.start_invariant nCooks) ?_
  intro shared next label _ accounted _ taken
  cases label with
  | addPizza pizza wake =>
      simp only [machine, step] at taken
      split at taken <;> cases taken
      exact accounted.addPizza pizza wake
  | stop =>
      cases taken
      exact accounted
  | notifyAll =>
      simp only [machine, step] at taken
      split at taken <;> cases taken
      exact accounted.notifyAll
  | worker index =>
      obtain ⟨pool, worked, rfl⟩ := Option.map_eq_some_iff.mp taken
      exact accounted.workerLoop worked
  | giveUp index =>
      obtain ⟨pool, gave, rfl⟩ := Option.map_eq_some_iff.mp taken
      exact accounted.giveUp gave
  | wakeSpuriously index =>
      obtain ⟨pool, woken, rfl⟩ := Option.map_eq_some_iff.mp taken
      exact accounted.wakeSpuriously woken

end SharedPool

end Plazza
