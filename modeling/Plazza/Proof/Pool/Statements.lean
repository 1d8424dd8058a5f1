import Plazza.Proof.Pool.Guard

namespace Plazza
open Plazza.Foundation

/-- The caller has cleared the flag and not notified yet. -/
def CallerPosition.announces : CallerPosition → Nat
  | releasing | broadcasting => 1
  | outside | adding _ | checking _ | pushing _ | counting _ | notifying _ | unlocking _ | stopping
  | clearing => 0

/-- The pizza that the caller has pushed and not announced yet. -/
def CallerPosition.pushed : CallerPosition → List Ticket
  | counting pizza | notifying pizza => [pizza]
  | outside | adding _ | checking _ | pushing _ | unlocking _ | stopping | clearing | releasing
  | broadcasting => []

/-- The caller has pushed a pizza that the load does not count yet. -/
def CallerPosition.uncounted : CallerPosition → Nat
  | counting _ => 1
  | outside | adding _ | checking _ | pushing _ | notifying _ | unlocking _ | stopping | clearing
  | releasing | broadcasting => 0

theorem CallerPosition.counted_le (position : CallerPosition) (load : Nat) :
    position.counted load ≤ load := by
  unfold counted
  split
  · exact Nat.sub_le _ _
  · exact le_rfl

namespace LockedPool

variable {nCooks nCallers : Nat}

/-- Each critical section shows as a single step. -/
def shared (state : LockedPool nCooks nCallers) : SharedPool nCooks where
  pool := state.pool
  notifying := ∑ id, (state.callers id).announces
  stopped := state.stopped

/-- A worker shows its sleep, its exit, its pop and the statements outside of the mutex. -/
def shows (state : LockedPool nCooks nCallers) : WorkerPosition → Bool
  | .testing _ => state.queue = [] ∧ state.running = true
  | .deciding _ => state.running = false ∧ state.queue = []
  | .popping _ _ | .popped _ | .preparing _ | .baking _ | .served _ | .cooked _ => true
  | .locking | .waiting | .woken | .fetching _ | .unlocking _ | .leaving | .exited => false

/-- A call shows the refusal at the test, the pizza at the notification, the clearing of the flag and
the notification of all workers. -/
def observe (state : LockedPool nCooks nCallers) :
    LockedPoolLabel nCooks nCallers → Option (PoolLabel nCooks)
  | .callAddPizza _ _ | .callStop _ => none
  | .addPizza id wake =>
      match state.callers id with
      | .checking pizza => if state.isFull then some (.addPizza pizza fun _ => true) else none
      | .notifying pizza => some (.addPizza pizza wake)
      | _ => none
  | .stop id =>
      match state.callers id with
      | .clearing => some .stop
      | .broadcasting => some .notifyAll
      | _ => none
  | .worker index => if state.shows (state.workers index) then some (.worker index) else none
  | .giveUp index => some (.giveUp index)
  | .wakeSpuriously index => some (.wakeSpuriously index)

/-- No caller is inside while the mutex is free. -/
theorem current_of_free {state : LockedPool nCooks nCallers} (free : state.holder = none) :
    state.current = .outside := by
  simp only [current, free]

/-- No caller is inside while a worker is. -/
theorem Guarded.current_of_worker {state : LockedPool nCooks nCallers} (guarded : state.Guarded)
    {index : Fin nCooks} (entered : (state.workers index).inside = true) :
    state.current = .outside := by
  have holds := (guarded.owned (.worker index)).mp entered
  simp only [current, holds]

theorem point_update (workers : Fin nCooks → WorkerPosition) (index : Fin nCooks)
    (position : WorkerPosition) :
    (fun other => (Function.update workers index position other).point) =
      Function.update (fun other => (workers other).point) index position.point := by
  funext other
  exact Function.apply_update (fun _ => WorkerPosition.point) workers index position other

theorem pool_of_outside {state : LockedPool nCooks nCallers} (outside : state.current = .outside) :
    state.pool = state.settled := by
  rw [pool, outside]
  rfl

/-- The pool moves the worker when the worker moves itself. -/
theorem settled_moveTo (state : LockedPool nCooks nCallers) (index : Fin nCooks)
    (position : WorkerPosition) :
    (state.moveTo index position).settled = state.settled.move index position.point := by
  simp only [settled, moveTo, ThreadPool.move, point_update]

/-- A move to a statement of the same step changes nothing. -/
theorem settled_moveTo_same (state : LockedPool nCooks nCallers) {index : Fin nCooks}
    {position : WorkerPosition} (same : state.settled.threads index = position.point) :
    (state.moveTo index position).settled = state.settled := by
  have kept : Function.update state.settled.threads index (state.settled.threads index) =
      state.settled.threads := Function.update_eq_self index state.settled.threads
  rw [settled_moveTo, ← same, ThreadPool.move, kept]

theorem pool_moveTo (state : LockedPool nCooks nCallers) (index : Fin nCooks)
    (position : WorkerPosition) :
    (state.moveTo index position).pool = state.pool.move index position.point := by
  rw [pool, settled_moveTo]
  rfl

theorem pool_moveTo_same (state : LockedPool nCooks nCallers) {index : Fin nCooks}
    {position : WorkerPosition} (same : state.settled.threads index = position.point) :
    (state.moveTo index position).pool = state.pool := by
  rw [pool, settled_moveTo_same state same]
  rfl

theorem pool_setCook (state : LockedPool nCooks nCallers) (index : Fin nCooks) (cook : Cook) :
    (state.setCook index cook).pool = state.pool.setCook index cook := rfl

/-- The caller that has the mutex relies on what it has checked. -/
theorem Guarded.offers_current {state : LockedPool nCooks nCallers} (guarded : state.Guarded) :
    state.Offers state.current := by
  unfold current
  split
  · rename_i id _
    exact guarded.fits (.caller id)
  · trivial
  · trivial

/-- The decrement of a load that counts a pizza shows as a decrement. -/
theorem Offers.counted_decrement {state : LockedPool nCooks nCallers} {position : CallerPosition}
    (offers : state.Offers position) (counted : 0 < position.counted state.load) :
    position.counted ((state.load + (2 ^ 64 - 1)) % 2 ^ 64) =
      (position.counted state.load + (2 ^ 64 - 1)) % 2 ^ 64 := by
  have bounded : state.getCapacity < 2 ^ 64 := Nat.mod_lt _ (by decide)
  by_cases notifies : ∃ pizza, position = .notifying pizza
  · obtain ⟨pizza, rfl⟩ := notifies
    simp only [Offers, CallerPosition.counted] at offers counted ⊢
    rw [ThreadPool.load_pred offers.1 (by omega), ThreadPool.load_pred counted (by omega)]
  · have whole : ∀ load, position.counted load = load := by
      intro load
      unfold CallerPosition.counted
      split
      · exact absurd ⟨_, rfl⟩ notifies
      · rfl
    rw [whole, whole]

/-- A worker that has finished a pizza changes the load as its callers count it. -/
theorem pool_finish (state : LockedPool nCooks nCallers) (index : Fin nCooks) (load : Nat)
    (finished : List (Fin nCooks × Ticket)) :
    ({ state.moveTo index .locking with load, finished } : LockedPool nCooks nCallers).pool =
      { state.pool.move index .locking with load := state.current.counted load, finished } :=
  congrArg (fun pool : ThreadPool nCooks =>
    { pool with load := state.current.counted load, finished }) (pool_moveTo state index .locking)

/-- A worker that is about to test the queue sleeps, leaves the loop or pops in its next step. -/
theorem workerLoop_of_tested {pool : ThreadPool nCooks} {index : Fin nCooks} {waited : Bool}
    (stands : pool.threads index = .tested waited) :
    pool.workerLoop index = some (pool.takePizza index) := by
  obtain locking | woken := Position.tested_cases waited
  · simp only [ThreadPool.workerLoop, stands, locking]
  · simp only [ThreadPool.workerLoop, stands, woken]

/-- A statement of a worker is a step of the pool where it shows, and nothing elsewhere. -/
theorem Guarded.pool_workerLoop {state next : LockedPool nCooks nCallers} (guarded : state.Guarded)
    (accounted : state.pool.Accounted) {index : Fin nCooks}
    (worked : state.workerLoop index = some next) :
    if state.shows (state.workers index) then state.pool.workerLoop index = some next.pool
    else next.pool = state.pool := by
  have sees := guarded.fits (.worker index)
  have outside := @Guarded.current_of_worker _ _ _ guarded index
  have point : state.settled.threads index = (state.workers index).point := rfl
  have moved := settled_moveTo state index
  simp only [Fits] at sees
  unfold LockedPool.workerLoop at worked
  split at worked <;> rename_i stands <;> rw [stands] at sees point outside ⊢
  case h_1 | h_2 =>
    split at worked <;> cases worked
    rename_i free
    rw [if_neg (by simp [shows]), pool_of_outside (current_of_free free), pool_of_outside rfl]
    exact settled_moveTo_same state point
  case h_3 waited =>
    split at worked <;> cases worked
    · rename_i sleeps
      rw [if_pos (by simp [shows, sleeps]), pool_of_outside (outside rfl), pool_of_outside rfl,
        workerLoop_of_tested point]
      have asleep : state.settled.takePizza index = state.settled.move index .waiting := by
        simp only [ThreadPool.takePizza, settled, sleeps.1, sleeps.2, if_true]
      rw [asleep]
      exact congrArg some (moved .waiting).symm
    · rename_i leaves
      rw [if_neg (by simpa [shows] using leaves)]
      exact pool_moveTo_same state point
  case h_4 waited =>
    split at worked <;> cases worked
    · rename_i leaves
      rw [if_pos (by simp [shows, leaves]), pool_moveTo, pool_of_outside (outside rfl),
        workerLoop_of_tested point]
      have left : state.settled.takePizza index = state.settled.move index .exited := by
        simp [ThreadPool.takePizza, settled, leaves.1, leaves.2]
      exact congrArg some left
    · rename_i stays
      rw [if_neg (by simpa [shows] using stays)]
      exact pool_moveTo_same state point
  case h_5 waited =>
    split at worked <;> cases worked
    rw [if_neg (by simp [shows])]
    exact pool_moveTo_same state point
  case h_6 waited pizza =>
    cases worked
    obtain ⟨rest, front⟩ := List.head?_eq_some_iff.mp sees
    have popped : state.settled.takePizza index =
        { state.settled.move index (.popped pizza) with
          queue := state.queue.tail
          handed := state.handed ++ [(index, pizza)] } := by
      have filled : state.settled.queue = pizza :: rest := front
      simp only [ThreadPool.takePizza, filled, front, List.tail_cons]
      rfl
    have after : ({ state.moveTo index (.unlocking pizza) with
        queue := state.queue.tail
        handed := state.handed ++ [(index, pizza)] } : LockedPool nCooks nCallers).current =
          .outside := outside rfl
    simp only [shows, if_true]
    rw [pool_of_outside (outside rfl), pool_of_outside after, workerLoop_of_tested point, popped]
    exact congrArg (fun pool : ThreadPool nCooks =>
      some { pool with queue := state.queue.tail, handed := state.handed ++ [(index, pizza)] })
      (moved (.unlocking pizza)).symm
  case h_7 | h_8 =>
    cases worked
    rw [if_neg (by simp [shows]), pool_of_outside (outside rfl), pool_of_outside rfl]
    exact settled_moveTo_same state point
  case h_9 pizza =>
    have stood : state.pool.threads index = .popped pizza := point
    cases worked
    simp only [shows, if_true, ThreadPool.workerLoop, stood, pool_setCook, pool_moveTo]
    rfl
  case h_10 pizza =>
    have stood : state.pool.threads index = .preparing pizza := point
    cases worked
    simp only [shows, if_true, ThreadPool.workerLoop, stood, pool_moveTo]
    rfl
  case h_11 pizza =>
    have stood : state.pool.threads index = .baking pizza := point
    cases worked
    simp only [shows, if_true, ThreadPool.workerLoop, stood, pool_moveTo]
    rfl
  case h_12 pizza =>
    have stood : state.pool.threads index = .served pizza := point
    cases worked
    simp only [shows, if_true, ThreadPool.workerLoop, stood, pool_setCook, pool_moveTo]
    rfl
  case h_13 pizza =>
    have stood : state.pool.threads index = .cooked pizza := point
    have counted := counted_pos accounted (show (state.workers index).point.held = some pizza by
      rw [stands]; rfl)
    have shown := guarded.offers_current.counted_decrement counted
    cases worked
    simp only [shows, if_true, ThreadPool.workerLoop, stood, ThreadPool.finishPizza]
    rw [pool_finish, shown]
    rfl
  all_goals cases worked

theorem shared_pool (state : LockedPool nCooks nCallers) : state.shared.pool = state.pool := rfl

/-- A step of the pool alone is one of the shared pool. -/
theorem shared_of_pool {state next : LockedPool nCooks nCallers} {pool : ThreadPool nCooks}
    (pools : next.pool = pool) (callers : next.callers = state.callers)
    (stopped : next.stopped = state.stopped) : next.shared = { state.shared with pool } := by
  simp only [shared, pools, callers, stopped]

theorem Guarded.follows_workerLoop {state next : LockedPool nCooks nCallers}
    (guarded : state.Guarded) (accounted : state.pool.Accounted) {index : Fin nCooks}
    (worked : state.workerLoop index = some next) :
    (SharedPool.machine nCooks).Follows state.shared (state.observe (.worker index)) next.shared := by
  have callers : next.callers = state.callers ∧ next.stopped = state.stopped := by
    unfold LockedPool.workerLoop at worked
    split at worked <;> try split at worked
    all_goals cases worked
    all_goals exact ⟨rfl, rfl⟩
  have moved := guarded.pool_workerLoop accounted worked
  simp only [observe]
  split at moved
  · rename_i visible
    rw [if_pos visible]
    change SharedPool.step state.shared (.worker index) = some next.shared
    simp only [SharedPool.step]
    rw [shared_of_pool rfl callers.1 callers.2]
    exact congrArg (Option.map _) moved
  · rename_i silent
    rw [if_neg silent]
    exact shared_of_pool moved callers.1 callers.2

/-- A worker sleeps in the pool exactly while it waits. -/
theorem point_eq_waiting {position : WorkerPosition} :
    position.point = .waiting ↔ position = .waiting := by
  cases position with
  | testing waited | deciding waited | fetching waited | popping waited =>
      cases waited <;> simp [WorkerPosition.point, Position.tested]
  | locking | waiting | woken | unlocking | leaving | popped | preparing | baking | served | cooked
  | exited => simp [WorkerPosition.point]

/-- A notification wakes the same workers of the pool. -/
theorem point_wakeWorkers (workers : Fin nCooks → WorkerPosition) (wake : Fin nCooks → Bool) :
    (fun index => (wakeWorkers workers wake index).point) =
      ThreadPool.wakeThreads (fun index => (workers index).point) wake := by
  funext index
  simp only [wakeWorkers, ThreadPool.wakeThreads, point_eq_waiting]
  split <;> rfl

theorem notifiesOne_point {workers : Fin nCooks → WorkerPosition} {wake : Fin nCooks → Bool}
    (notifies : NotifiesOne workers wake) :
    ThreadPool.NotifiesOne (fun index => (workers index).point) wake := by
  simpa only [NotifiesOne, ThreadPool.NotifiesOne, point_eq_waiting] using notifies

/-- The caller that has the mutex is the current one. -/
theorem current_of_place {state : LockedPool nCooks nCallers}
    {callers : Fin nCallers → CallerPosition} {id : Fin nCallers} {position : CallerPosition}
    (holds : state.holder = some (.caller id))
    (place : state.callers = Function.update callers id position) : state.current = position := by
  simp only [current, holds, place, Function.update_self]

/-- A caller outside of the mutex is not the current one. -/
theorem Guarded.current_place_outside {state : LockedPool nCooks nCallers} (guarded : state.Guarded)
    {id : Fin nCallers} (outside : (state.callers id).inside = false) (position : CallerPosition) :
    (state.place id position).current = state.current := by
  have absent : state.holder ≠ some (.caller id) := fun holds => by
    have entered := (guarded.owned (.caller id)).mpr holds
    simp only [inside, outside] at entered
    cases entered
  cases holds : state.holder with
  | none => simp only [current, place, holds]
  | some thread =>
      cases thread with
      | worker index => simp only [current, place, holds]
      | caller other =>
          have apart : other ≠ id := fun same => absent (same ▸ holds)
          simp only [current, place, holds, Function.update_of_ne apart]

/-- The pool with its current caller at a known position. -/
theorem pool_of_current {state : LockedPool nCooks nCallers} {position : CallerPosition}
    (stands : state.current = position) :
    state.pool =
      { state.settled with
        queue := position.queued state.queue
        load := position.counted state.load } := by
  rw [pool, stands]

/-- A statement of a caller that neither clears the flag nor notifies shows at most in the pool. -/
theorem shared_of_place {state next : LockedPool nCooks nCallers} {pool : ThreadPool nCooks}
    {id : Fin nCallers} {position : CallerPosition} (pools : next.pool = pool)
    (callers : next.callers = Function.update state.callers id position)
    (same : position.announces = (state.callers id).announces)
    (stopped : next.stopped = state.stopped) : next.shared = { state.shared with pool } := by
  have counted := sum_update_same CallerPosition.announces state.callers id position same
  simp only [shared, pools, callers, stopped, counted]

/-- A statement of a caller shows nothing where its position makes up for the queue and the load. -/
theorem shared_same {state next : LockedPool nCooks nCallers} {id : Fin nCallers}
    {position first second : CallerPosition} (before : state.current = first)
    (after : next.current = second)
    (queue : second.queued next.queue = first.queued state.queue)
    (load : second.counted next.load = first.counted state.load)
    (rest : { next.settled with queue := state.queue, load := state.load } = state.settled)
    (callers : next.callers = Function.update state.callers id position)
    (same : position.announces = (state.callers id).announces)
    (stopped : next.stopped = state.stopped) : next.shared = state.shared := by
  have pools : next.pool = state.pool := by
    rw [pool_of_current before, pool_of_current after, queue, load, ← rest]
  exact shared_of_place pools callers same stopped

/-- The pool is full where the test of the caller finds it full. -/
theorem pool_refuses {state : LockedPool nCooks nCallers} {pizza : Ticket}
    (stands : state.current = .checking pizza) (full : state.isFull = true)
    (wake : Fin nCooks → Bool) : (state.pool.addPizza pizza wake).2 = state.pool := by
  have refused : state.pool.isFull = true := by
    rw [pool_of_current stands]
    exact full
  rw [ThreadPool.addPizza, if_pos refused]

/-- The pool accepts the pizza of a caller that has pushed it and is about to notify. -/
theorem pool_accepts {state : LockedPool nCooks nCallers} {pizza : Ticket}
    (stands : state.current = .notifying pizza) (offers : state.Offers (.notifying pizza))
    (wake : Fin nCooks → Bool) : (state.pool.addPizza pizza wake).2 =
      { state.settled with
        threads := ThreadPool.wakeThreads state.settled.threads wake
        accepted := state.accepted ++ [pizza] } := by
  obtain ⟨positive, room, pushed⟩ := offers
  have bounded : state.getCapacity < 2 ^ 64 := Nat.mod_lt _ (by decide)
  have queue : state.queue.dropLast ++ [pizza] = state.queue :=
    List.dropLast_append_getLast? pizza pushed
  have load : (state.load - 1 + 1) % 2 ^ 64 = state.load := by
    rw [Nat.sub_add_cancel positive, Nat.mod_eq_of_lt (by omega)]
  have before : state.pool =
      { state.settled with queue := state.queue.dropLast, load := state.load - 1 } :=
    pool_of_current stands
  -- the decrements since the test of the caller leave the room that it has found
  have accepts : state.pool.isFull = false := by
    rw [before]
    change state.load ≤ 2 * nCooks % 2 ^ 64 at room
    exact decide_eq_false (show ¬2 * nCooks % 2 ^ 64 ≤ state.load - 1 by omega)
  rw [ThreadPool.addPizza, if_neg (by rw [accepts]; decide), before]
  simp only [queue, load]
  rfl

/-- A call shows its pizza at the notification and its refusal at the test. -/
theorem Guarded.follows_addPizza {state next : LockedPool nCooks nCallers} (guarded : state.Guarded)
    {id : Fin nCallers} {wake : Fin nCooks → Bool} (called : state.addPizza id wake = some next) :
    (SharedPool.machine nCooks).Follows state.shared (state.observe (.addPizza id wake))
      next.shared := by
  have bounded : state.getCapacity < 2 ^ 64 := Nat.mod_lt _ (by decide)
  have offers := guarded.fits (.caller id)
  have holder := guarded.owned (.caller id)
  have now := @Guarded.current_of_inside _ _ _ guarded id
  simp only [Fits] at offers
  simp only [inside] at holder
  unfold LockedPool.addPizza at called
  simp only [observe]
  split at called <;> rename_i stands <;> rw [stands] at offers holder now ⊢
  case h_1 pizza =>
    split at called <;> cases called
    rename_i free
    exact shared_same (current_of_free free) (current_of_place rfl rfl) rfl rfl rfl rfl
      (by rw [stands]; rfl) rfl
  case h_2 pizza =>
    have holds := holder.mp rfl
    split at called <;> cases called
    · rename_i full
      have same : (state.place id (.unlocking false)).shared = state.shared :=
        shared_same (now rfl) (current_of_place holds rfl) rfl rfl rfl rfl (by rw [stands]; rfl) rfl
      have notifies := ThreadPool.notifiesOne_all state.shared.pool.threads
      simp only [if_pos full]
      change SharedPool.step state.shared (.addPizza pizza fun _ => true) =
        some (state.place id (.unlocking false)).shared
      simp only [SharedPool.step]
      rw [if_pos notifies, same, shared_pool, pool_refuses (now rfl) full]
      rfl
    · rename_i room
      simp only [if_neg room]
      exact shared_same (now rfl) (current_of_place holds rfl) rfl rfl rfl rfl (by rw [stands]; rfl)
        rfl
  case h_3 pizza =>
    cases called
    exact shared_same (now rfl) (current_of_place (holder.mp rfl) rfl) List.dropLast_concat rfl rfl
      rfl (by rw [stands]; rfl) rfl
  case h_4 pizza =>
    cases called
    have room : state.load < state.getCapacity := offers.1
    have load : (state.load + 1) % 2 ^ 64 - 1 = state.load := by
      rw [Nat.mod_eq_of_lt (by omega), Nat.add_sub_cancel]
    exact shared_same (now rfl) (current_of_place (holder.mp rfl) rfl) rfl load rfl rfl
      (by rw [stands]; rfl) rfl
  case h_5 pizza =>
    have holds := holder.mp rfl
    split at called <;> cases called
    rename_i notifies
    have notified : ThreadPool.NotifiesOne state.shared.pool.threads wake :=
      notifiesOne_point notifies
    change SharedPool.step state.shared (.addPizza pizza wake) = some _
    simp only [SharedPool.step, if_pos notified]
    refine congrArg some (Eq.symm ?_)
    refine @shared_of_place _ _ state _ _ id (.unlocking true) ?_ rfl (by rw [stands]; rfl) rfl
    rw [shared_pool, pool_accepts (now rfl) offers]
    refine Eq.trans (pool_of_current (current_of_place holds rfl)) ?_
    simp only [settled, point_wakeWorkers]
    rfl
  case h_6 =>
    cases called
    exact shared_same (now rfl) (current_of_free rfl) rfl rfl rfl rfl (by rw [stands]; rfl) rfl
  all_goals cases called

/-- The number of the calls of `stop` that have not notified yet follows each caller. -/
theorem sum_announces (callers : Fin nCallers → CallerPosition) (id : Fin nCallers)
    (position : CallerPosition) :
    (∑ other, (Function.update callers id position other).announces) + (callers id).announces =
      (∑ other, (callers other).announces) + position.announces :=
  sum_update CallerPosition.announces callers id position

/-- A call of `stop` shows where it clears the flag and where it notifies all workers. -/
theorem Guarded.follows_stop {state next : LockedPool nCooks nCallers} (guarded : state.Guarded)
    {id : Fin nCallers} (called : state.stop id = some next) :
    (SharedPool.machine nCooks).Follows state.shared (state.observe (.stop id)) next.shared := by
  have holder := guarded.owned (.caller id)
  have now := @Guarded.current_of_inside _ _ _ guarded id
  have count := sum_announces state.callers id
  simp only [inside] at holder
  unfold LockedPool.stop at called
  simp only [observe]
  split at called <;> rename_i stands <;> rw [stands] at holder now count ⊢
  case h_1 =>
    split at called <;> cases called
    rename_i free
    exact shared_same (current_of_free free) (current_of_place rfl rfl) rfl rfl rfl rfl
      (by rw [stands]; rfl) rfl
  case h_2 =>
    cases called
    have pools : ({ state.place id .releasing with running := false } :
        LockedPool nCooks nCallers).pool = state.pool.stop := by
      rw [pool_of_current (now rfl)]
      exact Eq.trans (pool_of_current (current_of_place (holder.mp rfl) rfl)) rfl
    have more : ∑ other, (Function.update state.callers id .releasing other).announces =
        (∑ other, (state.callers other).announces) + 1 := count .releasing
    change SharedPool.step state.shared .stop = some _
    simp only [SharedPool.step, shared, pools]
    simp only [place, more]
  case h_3 =>
    cases called
    exact shared_same (now rfl) (current_of_free rfl) rfl rfl rfl rfl (by rw [stands]; rfl) rfl
  case h_4 =>
    have outside : (state.callers id).inside = false := by rw [stands]; rfl
    cases called
    have fewer : (∑ other, (Function.update state.callers id .outside other).announces) + 1 =
        ∑ other, (state.callers other).announces := count .outside
    have pools : ({ state.place id .outside with
        workers := wakeWorkers state.workers fun _ => true
        stopped := true } : LockedPool nCooks nCallers).pool = state.pool.notifyAll := by
      refine Eq.trans (pool_of_current (guarded.current_place_outside outside .outside)) ?_
      simp only [settled, point_wakeWorkers]
      rfl
    change SharedPool.step state.shared .notifyAll = some _
    simp only [SharedPool.step, shared, pools]
    simp only [place, ← fewer]
  all_goals cases called

/-- Each statement is a step of the shared pool where it shows, and nothing elsewhere. -/
theorem Guarded.follows {state next : LockedPool nCooks nCallers} (guarded : state.Guarded)
    (accounted : state.pool.Accounted) {label : LockedPoolLabel nCooks nCallers}
    (taken : state.step label = some next) :
    (SharedPool.machine nCooks).Follows state.shared (state.observe label) next.shared := by
  cases label with
  | callAddPizza id pizza | callStop id =>
      simp only [LockedPool.step] at taken
      split at taken <;> cases taken
      rename_i stands
      have outside : (state.callers id).inside = false := by rw [stands]; rfl
      exact shared_same rfl (guarded.current_place_outside outside _) rfl rfl rfl rfl
        (by rw [stands]; rfl) rfl
  | addPizza id wake => exact guarded.follows_addPizza taken
  | stop id => exact guarded.follows_stop taken
  | worker index => exact guarded.follows_workerLoop accounted taken
  | giveUp index =>
      simp only [LockedPool.step, LockedPool.giveUp] at taken
      split at taken <;> cases taken
      rename_i pizza stands
      have stood : state.pool.threads index = .preparing pizza := congrArg WorkerPosition.point stands
      change SharedPool.step state.shared (.giveUp index) = some _
      simp only [SharedPool.step, shared_pool, ThreadPool.giveUp, stood, Option.map_some]
      refine congrArg some (Eq.symm ?_)
      refine shared_of_pool ?_ rfl rfl
      rw [pool_setCook, pool_moveTo]
      rfl
  | wakeSpuriously index =>
      simp only [LockedPool.step] at taken
      split at taken <;> cases taken
      rename_i stands
      have asleep : state.pool.threads index = .waiting := congrArg WorkerPosition.point stands
      change SharedPool.step state.shared (.wakeSpuriously index) = some _
      simp only [SharedPool.step, shared_pool, ThreadPool.wakeSpuriously, asleep, if_true,
        Option.map_some]
      exact congrArg some (shared_of_pool (pool_moveTo state index .woken) rfl rfl).symm

theorem initial_shared (nCooks nCallers : Nat) :
    (machine nCooks nCallers).initial.shared = (SharedPool.machine nCooks).initial := by
  simp only [shared, machine, CallerPosition.announces, Finset.sum_const_zero]
  rfl

theorem initial_guarded (nCooks nCallers : Nat) : (machine nCooks nCallers).initial.Guarded where
  owned thread := by
    cases thread <;> exact iff_of_false Bool.false_ne_true nofun
  fits thread := by
    cases thread <;> exact trivial

/-- In every run one thread at most is inside, and the sections are steps of the shared pool. -/
theorem guarded_of_reachable {state : LockedPool nCooks nCallers}
    (reached : (machine nCooks nCallers).Reachable state) :
    state.Guarded ∧ (SharedPool.machine nCooks).Reachable state.shared := by
  refine reached.invariant
    (motive := fun state => state.Guarded ∧ (SharedPool.machine nCooks).Reachable state.shared)
    ⟨initial_guarded nCooks nCallers, initial_shared nCooks nCallers ▸ .initial⟩ ?_
  intro state next label _ kept _ taken
  have accounted : state.pool.Accounted := SharedPool.accounted_of_reachable kept.2
  exact ⟨kept.1.step accounted taken, (kept.1.follows accounted taken).reachable kept.2⟩

/-- The pool with its mutex refines the pool whose critical sections are single steps. -/
theorem refines_sections (nCooks nCallers : Nat) :
    Machine.Refinement (machine nCooks nCallers) (SharedPool.machine nCooks) shared observe := by
  refine .of_follows (initial_shared nCooks nCallers) fun reached taken => ?_
  obtain ⟨guarded, above⟩ := guarded_of_reachable reached
  exact guarded.follows (SharedPool.accounted_of_reachable above) taken

/-- The pool accounts for its pizzas between any two statements of its threads. -/
structure Consistent (state : LockedPool nCooks nCallers) : Prop where
  alone : ∀ first second, state.inside first = true → state.inside second = true → first = second
  front : ∀ index waited, state.workers index = .fetching waited → state.queue ≠ []
  load_eq : state.load + state.current.uncounted = state.queue.length +
    (Finset.univ.filter fun index => (state.workers index).point.held.isSome).card
  load_le : state.load ≤ state.getCapacity
  no_wrap : ∀ index pizza, state.workers index = .cooked pizza → 0 < state.load
  one_each : ∀ index, state.handed.filter (·.1 = index) =
    state.finished.filter (·.1 = index) ++ (state.workers index).point.held.toList.map (index, ·)
  order : state.accepted ++ state.current.pushed = state.handed.map Prod.snd ++ state.queue
  watched : (∃ index, state.workers index = .waiting) → state.queue.length ≤
    (Finset.univ.filter fun index => (state.workers index).point.testing = true).card +
      state.current.pushed.length
  awake : state.stopped = true → ∀ index, state.workers index ≠ .waiting

/-- The pushed pizza is the last one of the queue. -/
theorem Offers.queued_append {state : LockedPool nCooks nCallers} {position : CallerPosition}
    (offers : state.Offers position) :
    position.queued state.queue ++ position.pushed = state.queue := by
  cases position with
  | counting pizza => exact List.dropLast_append_getLast? pizza offers.2
  | notifying pizza => exact List.dropLast_append_getLast? pizza offers.2.2
  | outside | adding | checking | pushing | unlocking | stopping | clearing | releasing
  | broadcasting => exact List.append_nil _

theorem Offers.counted_add {state : LockedPool nCooks nCallers} {position : CallerPosition}
    (offers : state.Offers position) :
    position.counted state.load + position.pushed.length = state.load + position.uncounted := by
  cases position with
  | notifying pizza => exact Nat.sub_add_cancel offers.1
  | outside | adding | checking | pushing | counting | unlocking | stopping | clearing | releasing
  | broadcasting => rfl

theorem Offers.load_le {state : LockedPool nCooks nCallers} {position : CallerPosition}
    (offers : state.Offers position) (counted : position.counted state.load ≤ state.getCapacity) :
    state.load ≤ state.getCapacity := by
  cases position with
  | notifying pizza => exact offers.2.1
  | outside | adding | checking | pushing | counting | unlocking | stopping | clearing | releasing
  | broadcasting => exact counted

/-- In every run the pool accounts for its pizzas, whoever has the mutex. -/
theorem consistent_of_reachable {state : LockedPool nCooks nCallers}
    (reached : (machine nCooks nCallers).Reachable state) : state.Consistent := by
  obtain ⟨guarded, above⟩ := guarded_of_reachable reached
  have accounted : state.pool.Accounted := SharedPool.accounted_of_reachable above
  have wakeful := SharedPool.wakeful_of_reachable above
  have offers := guarded.offers_current
  have queue := offers.queued_append
  have length : (state.current.queued state.queue).length + state.current.pushed.length =
      state.queue.length := by rw [← List.length_append, queue]
  refine ⟨fun first second => guarded.owned.unique, ?_, ?_, ?_, ?_, accounted.holds, ?_, ?_, ?_⟩
  · intro index waited stands
    have sees := guarded.fits (.worker index)
    simp only [Fits, stands] at sees
    exact sees
  · have counted : state.current.counted state.load = (state.current.queued state.queue).length +
        (Finset.univ.filter fun index => (state.workers index).point.held.isSome).card :=
      accounted.load_eq
    have added := offers.counted_add
    omega
  · exact offers.load_le accounted.load_le
  · intro index pizza stands
    have counted := counted_pos accounted (show (state.workers index).point.held = some pizza by
      rw [stands]; rfl)
    exact counted.trans_le (state.current.counted_le state.load)
  · have order : state.accepted =
        state.handed.map Prod.snd ++ state.current.queued state.queue := accounted.order
    rw [order, List.append_assoc, queue]
  · rintro ⟨index, waits⟩
    have asleep : ∃ index, state.pool.threads index = .waiting :=
      ⟨index, congrArg WorkerPosition.point waits⟩
    have enough : (state.current.queued state.queue).length ≤
        ∑ index, ((state.workers index).point).tests := wakeful.watched asleep
    have same := SharedPool.sum_tests fun index => (state.workers index).point
    omega
  · intro ended index waits
    exact wakeful.awake ended index (congrArg WorkerPosition.point waits)

/-- The cook is about to decrement the load while the second caller is about to notify. -/
theorem consistent_after_push :
    ∃ state, (machine 1 2).Reachable state ∧
      (∃ pizza, state.workers 0 = .cooked pizza) ∧ state.current.pushed.length = 1 ∧
      state.Consistent := by
  obtain ⟨state, reached, checked⟩ := (machine 1 2).exists_reachable
    (.callAddPizza 0 ⟨⟨.regina, .s, [], 2⟩, 1⟩ :: .callAddPizza 1 ⟨⟨.regina, .s, [], 2⟩, 2⟩ ::
      List.replicate 6 (.addPizza 0 fun _ => true) ++ List.replicate 10 (.worker 0) ++
        List.replicate 4 (.addPizza 1 fun _ => true))
    (fun state => state.workers 0 = .cooked ⟨⟨.regina, .s, [], 2⟩, 1⟩ ∧
      state.current.pushed.length = 1) (by decide)
  obtain ⟨stands, pushed⟩ := of_decide_eq_true checked
  exact ⟨state, reached, ⟨_, stands⟩, pushed, consistent_of_reachable reached⟩

end LockedPool

end Plazza
