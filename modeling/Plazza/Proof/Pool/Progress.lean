import Plazza.Foundation.Fairness
import Plazza.Proof.Pool.Wakeup
import Mathlib.Data.List.Perm.Subperm
import Mathlib.Data.Multiset.Count

namespace Plazza
open Plazza.Foundation

/-- A bound on the statements of a worker up to its next sleep, exit or pizza. -/
def Position.remaining : Position → Nat
  | popped _ => 6
  | preparing _ => 5
  | baking _ => 4
  | served _ => 3
  | cooked _ => 2
  | locking | woken => 1
  | waiting | exited => 0

theorem Position.remaining_pos {position : Position} (awake : position ≠ .waiting)
    (active : position ≠ .exited) : 0 < position.remaining := by
  cases position with
  | waiting => exact absurd rfl awake
  | exited => exact absurd rfl active
  | locking | woken | popped | preparing | baking | served | cooked => simp [Position.remaining]

/-- The thread of a cook takes the steps of its worker. -/
def PoolLabel.Of {nCooks : Nat} (index : Fin nCooks) : PoolLabel nCooks → Prop
  | .worker other | .giveUp other => other = index
  | _ => False

namespace ThreadPool

variable {nCooks : Nat}

/-- The pizzas that one worker has taken from the queue. -/
def handedTo (pool : ThreadPool nCooks) (index : Fin nCooks) : List (Fin nCooks × Ticket) :=
  pool.handed.filter (·.1 = index)

/-- The pizzas that one worker has finished. -/
def finishedBy (pool : ThreadPool nCooks) (index : Fin nCooks) : List (Fin nCooks × Ticket) :=
  pool.finished.filter (·.1 = index)

/-- The histories only grow. -/
structure Extends (pool next : ThreadPool nCooks) : Prop where
  accepted : pool.accepted <+: next.accepted
  handed : pool.handed <+: next.handed
  finished : pool.finished <+: next.finished

theorem Extends.of_same {pool next : ThreadPool nCooks} (accepted : next.accepted = pool.accepted)
    (handed : next.handed = pool.handed) (finished : next.finished = pool.finished) :
    pool.Extends next :=
  ⟨accepted ▸ List.prefix_rfl, handed ▸ List.prefix_rfl, finished ▸ List.prefix_rfl⟩

theorem Extends.trans {first second third : ThreadPool nCooks} (before : first.Extends second)
    (after : second.Extends third) : first.Extends third :=
  ⟨before.accepted.trans after.accepted, before.handed.trans after.handed,
    before.finished.trans after.finished⟩

theorem extends_workerLoop {pool next : ThreadPool nCooks} {index : Fin nCooks}
    (worked : pool.workerLoop index = some next) : pool.Extends next := by
  cases step_of_workerLoop worked with
  | pop pizza => exact ⟨List.prefix_rfl, List.prefix_append _ _, List.prefix_rfl⟩
  | finish pizza => exact ⟨List.prefix_rfl, List.prefix_rfl, List.prefix_append _ _⟩
  | sleep | leave | prepare | bake | serve | release => exact .of_same rfl rfl rfl

theorem extends_addPizza (pool : ThreadPool nCooks) (pizza : Ticket) (wake : Fin nCooks → Bool) :
    pool.Extends (pool.addPizza pizza wake).2 := by
  unfold addPizza
  split
  · exact .of_same rfl rfl rfl
  · exact ⟨List.prefix_append _ _, List.prefix_rfl, List.prefix_rfl⟩

/-- A worker that neither sleeps nor has left the loop has a step. -/
theorem exists_workerLoop {pool : ThreadPool nCooks} {index : Fin nCooks}
    (active : 0 < (pool.threads index).remaining) : ∃ next, pool.workerLoop index = some next := by
  unfold workerLoop
  split <;> rename_i stands
  case h_3 | h_4 =>
    rw [stands] at active
    cases active
  all_goals exact ⟨_, rfl⟩

/-- A worker that does not find the queue empty takes a pizza or comes closer to its test. -/
theorem takes_workerLoop {pool next : ThreadPool nCooks} {index : Fin nCooks}
    (worked : pool.workerLoop index = some next) (filled : pool.queue ≠ []) :
    pool.handed.length < next.handed.length ∨
      0 < (next.threads index).remaining ∧
        (next.threads index).remaining < (pool.threads index).remaining := by
  cases step_of_workerLoop worked with
  | sleep _ empty | leave _ empty => exact absurd empty filled
  | pop pizza rest =>
      left
      rw [List.length_append]
      exact Nat.lt_succ_self _
  | prepare pizza stands | bake pizza stands | serve pizza stands | release pizza stands
  | finish pizza stands =>
      right
      rw [stands]
      simp [move, setCook, finishPizza, Position.remaining]

/-- A worker that holds a pizza finishes it or comes closer to the decrement. -/
theorem holds_workerLoop {pool next : ThreadPool nCooks} {index : Fin nCooks}
    (worked : pool.workerLoop index = some next) (held : (pool.threads index).held.isSome) :
    (pool.finishedBy index).length < (next.finishedBy index).length ∨
      (next.threads index).held.isSome ∧
        (next.threads index).remaining < (pool.threads index).remaining := by
  cases step_of_workerLoop worked with
  | sleep tests | leave tests | pop _ _ tests =>
      rw [view_of_tests Position.held rfl tests] at held
      cases held
  | finish pizza stands =>
      left
      simp [finishedBy, finishPizza]
  | prepare pizza stands | bake pizza stands | serve pizza stands | release pizza stands =>
      right
      rw [stands]
      simp [move, setCook, Position.remaining, Position.held]

/-- A worker of a stopped pool leaves the loop or has less left to do. -/
theorem leaves_workerLoop {pool next : ThreadPool nCooks} {index : Fin nCooks}
    (worked : pool.workerLoop index = some next) (stopped : pool.running = false) :
    next.threads index = .exited ∨
      7 * next.queue.length + (next.threads index).remaining <
        7 * pool.queue.length + (pool.threads index).remaining := by
  cases step_of_workerLoop worked with
  | sleep _ _ runs =>
      rw [stopped] at runs
      cases runs
  | leave => exact .inl (by simp [move])
  | pop pizza rest tests front =>
      right
      rw [view_of_tests Position.remaining rfl tests, front, List.length_cons]
      simp only [move, Function.update_self, Position.remaining]
      omega
  | prepare pizza stands | bake pizza stands | serve pizza stands | release pizza stands
  | finish pizza stands =>
      right
      rw [stands]
      simp [move, setCook, finishPizza, Position.remaining]

/-- A notification may wake every sleeper. -/
theorem notifiesOne_all (threads : Fin nCooks → Position) : NotifiesOne threads fun _ => true := by
  rintro ⟨index, asleep⟩
  exact ⟨index, asleep, rfl⟩

/-- A cook that gives up goes on to the decrement. -/
theorem giveUp_cases {pool next : ThreadPool nCooks} {index : Fin nCooks}
    (gave : pool.giveUp index = some next) :
    ∃ pizza, pool.threads index = .preparing pizza ∧
      next = (pool.move index (.cooked pizza)).setCook index (pool.cooks index).finish := by
  unfold giveUp at gave
  split at gave <;> cases gave
  exact ⟨_, ‹_›, rfl⟩

theorem wakeSpuriously_cases {pool next : ThreadPool nCooks} {index : Fin nCooks}
    (woken : pool.wakeSpuriously index = some next) :
    pool.threads index = .waiting ∧ next = pool.move index .woken := by
  unfold wakeSpuriously at woken
  split at woken <;> cases woken
  exact ⟨‹_›, rfl⟩

end ThreadPool

namespace PoolClient

variable {nCooks : Nat}

/-- Every step extends the histories. -/
theorem extends_step {client next : PoolClient nCooks} {label : PoolLabel nCooks}
    (taken : client.step label = some next) : client.pool.Extends next.pool := by
  cases label with
  | addPizza pizza wake =>
      simp only [PoolClient.step] at taken
      split at taken <;> cases taken
      exact ThreadPool.extends_addPizza _ _ _
  | stop | notifyAll =>
      simp only [PoolClient.step] at taken
      split at taken <;> cases taken
      exact .of_same rfl rfl rfl
  | worker index =>
      obtain ⟨pool, worked, rfl⟩ := Option.map_eq_some_iff.mp taken
      exact ThreadPool.extends_workerLoop worked
  | giveUp index =>
      obtain ⟨pool, gave, rfl⟩ := Option.map_eq_some_iff.mp taken
      obtain ⟨_, _, rfl⟩ := ThreadPool.giveUp_cases gave
      exact .of_same rfl rfl rfl
  | wakeSpuriously index =>
      obtain ⟨pool, woken, rfl⟩ := Option.map_eq_some_iff.mp taken
      obtain ⟨_, rfl⟩ := ThreadPool.wakeSpuriously_cases woken
      exact .of_same rfl rfl rfl

/-- The others leave a worker alone that does not sleep. -/
theorem threads_step {client next : PoolClient nCooks} {label : PoolLabel nCooks}
    {index : Fin nCooks} (taken : client.step label = some next) (other : ¬label.Of index)
    (awake : client.pool.threads index ≠ .waiting) :
    next.pool.threads index = client.pool.threads index := by
  have stays : ∀ wake, ThreadPool.wakeThreads client.pool.threads wake index =
      client.pool.threads index := fun wake => if_neg fun asleep => awake asleep.1
  cases label with
  | addPizza pizza wake =>
      simp only [PoolClient.step] at taken
      split at taken <;> cases taken
      simp only [ThreadPool.addPizza]
      split
      · rfl
      · exact stays wake
  | stop =>
      simp only [PoolClient.step] at taken
      split at taken <;> cases taken
      rfl
  | notifyAll =>
      simp only [PoolClient.step] at taken
      split at taken <;> cases taken
      exact stays fun _ => true
  | worker moved =>
      obtain ⟨pool, worked, rfl⟩ := Option.map_eq_some_iff.mp taken
      exact ThreadPool.threads_workerLoop worked fun same => other same.symm
  | giveUp moved =>
      obtain ⟨pool, gave, rfl⟩ := Option.map_eq_some_iff.mp taken
      obtain ⟨pizza, _, rfl⟩ := ThreadPool.giveUp_cases gave
      exact Function.update_of_ne (fun same => other same.symm) _ _
  | wakeSpuriously moved =>
      obtain ⟨pool, woken, rfl⟩ := Option.map_eq_some_iff.mp taken
      obtain ⟨asleep, rfl⟩ := ThreadPool.wakeSpuriously_cases woken
      refine Function.update_of_ne ?_ _ _
      rintro rfl
      exact awake asleep

/-- A step of the thread is a step of its worker, or the cook gives up. -/
theorem own_step {client next : PoolClient nCooks} {label : PoolLabel nCooks}
    {index : Fin nCooks} (taken : client.step label = some next) (own : label.Of index) :
    client.pool.workerLoop index = some next.pool ∧ next.phase = client.phase ∨
      ∃ pizza, client.pool.threads index = .preparing pizza ∧
        next = { client with
          pool := (client.pool.move index (.cooked pizza)).setCook index
            (client.pool.cooks index).finish } := by
  cases label with
  | worker moved =>
      obtain rfl : moved = index := own
      obtain ⟨pool, worked, rfl⟩ := Option.map_eq_some_iff.mp taken
      exact .inl ⟨worked, rfl⟩
  | giveUp moved =>
      obtain rfl : moved = index := own
      obtain ⟨pool, gave, rfl⟩ := Option.map_eq_some_iff.mp taken
      obtain ⟨pizza, stands, rfl⟩ := ThreadPool.giveUp_cases gave
      exact .inr ⟨pizza, stands, rfl⟩
  | addPizza | stop | notifyAll | wakeSpuriously => cases own

/-- The thread of a worker that neither sleeps nor has left is enabled. -/
theorem enables_worker {client : PoolClient nCooks} {index : Fin nCooks}
    (active : 0 < (client.pool.threads index).remaining) :
    (machine nCooks).Enables (PoolLabel.Of index) client := by
  obtain ⟨next, worked⟩ := ThreadPool.exists_workerLoop active
  exact ⟨.worker index, { client with pool := next }, rfl, Option.map_eq_some_iff.mpr ⟨_, worked, rfl⟩⟩

/-- The thread of a worker that sleeps or has left is disabled. -/
theorem not_enables_worker {client : PoolClient nCooks} {index : Fin nCooks}
    (rests : (client.pool.threads index).remaining = 0) :
    ¬(machine nCooks).Enables (PoolLabel.Of index) client := by
  rintro ⟨label, next, own, taken⟩
  rcases own_step taken own with ⟨worked, _⟩ | ⟨pizza, stands, _⟩
  · cases stands : client.pool.threads index <;>
      simp [stands, Position.remaining] at rests <;> simp [ThreadPool.workerLoop, stands] at worked
  · rw [stands] at rests
    cases rests

theorem awake_of_remaining {position : Position} (active : 0 < position.remaining) :
    position ≠ .waiting := by
  rintro rfl
  cases active

/-- The queue holds what is accepted and not handed to a worker. -/
theorem length_queue {pool : ThreadPool nCooks} (inv : pool.Invariant) :
    pool.accepted.length = pool.handed.length + pool.queue.length := by
  rw [inv.order, List.length_append, List.length_map]

/-- A queued pizza has a worker that does not sleep. -/
theorem exists_active {client : PoolClient nCooks} (reached : (machine nCooks).Reachable client)
    (filled : client.pool.queue ≠ []) : ∃ index, 0 < (client.pool.threads index).remaining := by
  have inv := (invariant_of_reachable reached).pool
  have queued : 0 < client.pool.queue.length := List.length_pos_of_ne_nil filled
  by_cases asleep : ∃ index, client.pool.threads index = .waiting
  · have enough := (wakeful_of_reachable reached).watched
    rw [shared_pool] at enough
    obtain ⟨index, _, tests⟩ := Finset.exists_ne_zero_of_sum_ne_zero
      (Nat.pos_iff_ne_zero.mp (queued.trans_le (enough asleep)))
    refine ⟨index, ?_⟩
    cases stands : client.pool.threads index <;>
      simp_all [Position.tests, Position.testing, Position.remaining]
  · have cooks : 0 < nCooks := by
      have counted := inv.load_eq
      have bounded := inv.load_le.trans client.pool.getCapacity_le
      omega
    refine ⟨⟨0, cooks⟩, ?_⟩
    cases stands : client.pool.threads ⟨0, cooks⟩ with
    | waiting => exact absurd ⟨_, stands⟩ asleep
    | exited => exact absurd (inv.exited _ stands).2 filled
    | _ => simp [Position.remaining]

/-- The histories of a later moment extend those of an earlier one. -/
theorem extends_later (execution : (machine nCooks).Execution) {start moment : Nat}
    (late : start ≤ moment) :
    (execution.state start).pool.Extends (execution.state moment).pool :=
  Machine.Execution.keeps
    (motive := fun client : PoolClient nCooks => (execution.state start).pool.Extends client.pool)
    (.of_same rfl rfl rfl) (fun _ _ _ before _ taken => before.trans (extends_step taken)) late

/-- A worker has finished everything that it has taken but for the pizza that it holds. -/
theorem length_handedTo {pool : ThreadPool nCooks} (inv : pool.Invariant) (index : Fin nCooks) :
    (pool.handedTo index).length =
      (pool.finishedBy index).length + if (pool.threads index).held.isSome then 1 else 0 := by
  have each := congrArg List.length (inv.holds index)
  rw [List.length_append, List.length_map] at each
  cases held : (pool.threads index).held <;> simpa [held, ThreadPool.handedTo, ThreadPool.finishedBy] using each

/-- A stopped pool accepts no pizza, so its queue does not grow. -/
theorem queue_step {client next : PoolClient nCooks} {label : PoolLabel nCooks}
    (after : next.pool.Invariant) (inv : client.pool.Invariant) (stopped : client.phase = .stopped)
    (taken : client.step label = some next) :
    next.phase = .stopped ∧ next.pool.queue.length ≤ client.pool.queue.length := by
  have kept : next.phase = .stopped ∧ next.pool.accepted = client.pool.accepted := by
    cases label with
    | addPizza | stop | notifyAll => simp [PoolClient.step, stopped] at taken
    | worker index =>
        obtain ⟨pool, worked, rfl⟩ := Option.map_eq_some_iff.mp taken
        exact ⟨stopped, by cases ThreadPool.step_of_workerLoop worked <;> rfl⟩
    | giveUp index =>
        obtain ⟨pool, gave, rfl⟩ := Option.map_eq_some_iff.mp taken
        obtain ⟨_, _, rfl⟩ := ThreadPool.giveUp_cases gave
        exact ⟨stopped, rfl⟩
    | wakeSpuriously index =>
        obtain ⟨pool, woken, rfl⟩ := Option.map_eq_some_iff.mp taken
        obtain ⟨_, rfl⟩ := ThreadPool.wakeSpuriously_cases woken
        exact ⟨stopped, rfl⟩
  have before := length_queue inv
  have now := length_queue after
  have grows := (extends_step taken).handed.length_le
  rw [kept.2] at now
  exact ⟨kept.1, by omega⟩

/-- No worker of a stopped pool sleeps. -/
theorem awake_of_stopped {client : PoolClient nCooks} (reached : (machine nCooks).Reachable client)
    (stopped : client.phase = .stopped) (index : Fin nCooks) :
    client.pool.threads index ≠ .waiting := by
  have awake := (wakeful_of_reachable reached).awake (by simp [shared, stopped]) index
  rwa [shared_pool] at awake

/-- A worker that has left the loop does not come back. -/
theorem exited_stable (index : Fin nCooks) :
    (machine nCooks).Stable fun client => client.pool.threads index = .exited := by
  intro client next label _ gone taken
  by_cases own : label.Of index
  · rcases own_step taken own with ⟨worked, _⟩ | ⟨pizza, stands, _⟩
    · simp [ThreadPool.workerLoop, gone] at worked
    · rw [gone] at stands
      cases stands
  · exact (threads_step taken own (by simp [gone])).trans gone

/-- The workers have finished all the earlier ones of their pizzas. -/
theorem subperm_finished {pool : ThreadPool nCooks} (inv : pool.Invariant)
    {earlier : List (Fin nCooks × Ticket)} (front : earlier <+: pool.handed)
    (finished : ∀ index, (earlier.filter (·.1 = index)).length ≤ (pool.finishedBy index).length) :
    earlier.Subperm pool.finished := by
  rw [List.subperm_ext_iff]
  rintro ⟨index, pizza⟩ -
  have part : earlier.filter (·.1 = index) <+: pool.finishedBy index := by
    refine List.prefix_of_prefix_length_le (front.filter _) ?_ (finished index)
    rw [inv.holds index]
    exact List.prefix_append _ _
  have counted : ∀ pizzas : List (Fin nCooks × Ticket),
      (pizzas.filter (·.1 = index)).count (index, pizza) = pizzas.count (index, pizza) :=
    fun pizzas => List.count_filter (by simp)
  rw [← counted earlier, ← counted pool.finished]
  exact part.sublist.count_le _

/-- An execution is fair to a single worker that has nothing left to do in the end. -/
theorem fair_of_asleep (labels : List (PoolLabel 1))
    (rests : ((machine 1).run (fun _ _ => true) (machine 1).initial labels).any
      (fun client => (client.pool.threads (Fin.last 0)).remaining = 0) = true) (index : Fin 1) :
    (Machine.Execution.resting (machine 1) labels).Fair (PoolLabel.Of index) := by
  obtain ⟨last, ran, rests⟩ := (Option.any_eq_true _ _).mp rests
  refine Machine.Execution.fair_resting ran (not_enables_worker ?_)
  rw [Subsingleton.elim index (Fin.last 0)]
  exact of_decide_eq_true rests

/-- The only cook sleeps until a pizza wakes it, serves the pizza and goes to sleep again. -/
def servedLabels : List (PoolLabel 1) :=
  .worker (Fin.last 0) :: .addPizza ⟨⟨.regina, .s, [], 2⟩, 1⟩ (fun _ => true) ::
    List.replicate 7 (.worker (Fin.last 0))

section Fairness

variable {execution : (machine nCooks).Execution}
  (fair : ∀ index, execution.Fair (PoolLabel.Of index))
include fair

/-- A worker that is awake takes a pizza, unless another one is faster. -/
theorem takes_of_active (count : Nat) (index : Fin nCooks) :
    execution.LeadsTo
      (fun client => (client.pool.handed.length = count ∧ count < client.pool.accepted.length) ∧
        0 < (client.pool.threads index).remaining)
      fun client => count < client.pool.handed.length := by
  refine Machine.Execution.leadsTo_of_rank (fair index)
    (fun client => (client.pool.threads index).remaining) ?_ ?_
  · rintro client next label reached ⟨⟨handed, waits⟩, active⟩ taken
    have longer := extends_step taken
    by_cases more : count < next.pool.handed.length
    · exact .inl more
    have still : next.pool.handed.length = count ∧ count < next.pool.accepted.length :=
      ⟨by have := longer.handed.length_le; omega, waits.trans_le longer.accepted.length_le⟩
    refine .inr ?_
    by_cases own : label.Of index
    · have filled : client.pool.queue ≠ [] := by
        have counted := length_queue (invariant_of_reachable reached).pool
        exact List.ne_nil_of_length_pos (by omega)
      rcases own_step taken own with ⟨worked, _⟩ | ⟨pizza, stands, rfl⟩
      · rcases ThreadPool.takes_workerLoop worked filled with took | ⟨awake, closer⟩
        · exact absurd (handed ▸ took) more
        · exact ⟨⟨still, awake⟩, .inl closer⟩
      · refine ⟨⟨still, ?_⟩, .inl ?_⟩
        · simp [ThreadPool.move, ThreadPool.setCook, Position.remaining]
        · rw [stands]
          simp [ThreadPool.move, ThreadPool.setCook, Position.remaining]
    · have same := threads_step taken own (awake_of_remaining active)
      rw [same]
      exact ⟨⟨still, active⟩, .inr ⟨rfl, own⟩⟩
  · intro moment rests
    exact ⟨moment, le_rfl, enables_worker (rests moment le_rfl).1.2⟩

/-- The queue does not keep its first pizza. -/
theorem taken_of_fair (count : Nat) :
    execution.LeadsTo
      (fun client => client.pool.handed.length = count ∧ count < client.pool.accepted.length)
      fun client => count < client.pool.handed.length := by
  refine .cases (takes_of_active fair count) fun reached waits => .inr ?_
  have counted := length_queue (invariant_of_reachable reached).pool
  obtain ⟨index, active⟩ := exists_active reached (List.ne_nil_of_length_pos (by omega))
  exact ⟨index, waits, active⟩

/-- Every accepted pizza is handed to a worker. -/
theorem handed_of_fair (count : Nat) :
    execution.LeadsTo (fun client => count < client.pool.accepted.length)
      fun client => count < client.pool.handed.length := by
  have grows : ∀ value, value ≤ count → execution.LeadsTo
      (fun client => count < client.pool.accepted.length ∧ client.pool.handed.length = value)
      fun client => False ∨ value < client.pool.handed.length := fun value less =>
    ((taken_of_fair fair value).mono fun _ => .inr).strengthen
      fun _ waits => ⟨waits.2, less.trans_lt waits.1⟩
  have passed := Machine.Execution.LeadsTo.of_counter
    (fun _ waits taken => waits.trans_le (extends_step taken).accepted.length_le) _ count grows
  exact passed.mono fun _ more => more.resolve_left id

/-- A worker that holds a pizza finishes it. -/
theorem finished_of_held (count : Nat) (index : Fin nCooks) :
    execution.LeadsTo
      (fun client => (client.pool.finishedBy index).length = count ∧
        (client.pool.threads index).held.isSome)
      fun client => count < (client.pool.finishedBy index).length := by
  refine Machine.Execution.leadsTo_of_rank (fair index)
    (fun client => (client.pool.threads index).remaining) ?_ ?_
  · rintro client next label reached ⟨finished, held⟩ taken
    have longer : (client.pool.finishedBy index).length ≤ (next.pool.finishedBy index).length :=
      ((extends_step taken).finished.filter _).length_le
    by_cases more : count < (next.pool.finishedBy index).length
    · exact .inl more
    have still : (next.pool.finishedBy index).length = count := by omega
    refine .inr ?_
    by_cases own : label.Of index
    · rcases own_step taken own with ⟨worked, _⟩ | ⟨pizza, stands, rfl⟩
      · rcases ThreadPool.holds_workerLoop worked held with done | ⟨holds, closer⟩
        · exact absurd (finished ▸ done) more
        · exact ⟨⟨still, holds⟩, .inl closer⟩
      · refine ⟨⟨still, ?_⟩, .inl ?_⟩
        · simp [ThreadPool.move, ThreadPool.setCook, Position.held]
        · rw [stands]
          simp [ThreadPool.move, ThreadPool.setCook, Position.remaining]
    · have same := threads_step taken own fun asleep => by simp [asleep, Position.held] at held
      rw [same]
      exact ⟨⟨still, held⟩, .inr ⟨rfl, own⟩⟩
  · intro moment rests
    refine ⟨moment, le_rfl, enables_worker ?_⟩
    have held := (rests moment le_rfl).1.2
    cases stands : (execution.state moment).pool.threads index <;>
      simp [stands, Position.held, Position.remaining] at held ⊢

/-- A worker finishes everything that it has taken. -/
theorem finished_of_fair (count : Nat) (index : Fin nCooks) :
    execution.LeadsTo (fun client => count ≤ (client.pool.handedTo index).length)
      fun client => count ≤ (client.pool.finishedBy index).length := by
  cases count with
  | zero => exact .of_imp fun _ _ => Nat.zero_le _
  | succ count =>
      refine .cases (fun _ : Unit => finished_of_held fair count index) fun reached taken => ?_
      have each := length_handedTo (invariant_of_reachable reached).pool index
      rename_i client
      by_cases more : count + 1 ≤ (client.pool.finishedBy index).length
      · exact .inl more
      refine .inr ⟨(), by split at each <;> omega, ?_⟩
      by_contra free
      rw [if_neg free] at each
      omega

/-- A stopped pool loses its workers one by one. -/
theorem exited_of_active (index : Fin nCooks) :
    execution.LeadsTo
      (fun client => client.phase = .stopped ∧ client.pool.threads index ≠ .exited)
      fun client => client.pool.threads index = .exited := by
  refine Machine.Execution.leadsTo_of_rank (fair index)
    (fun client => 7 * client.pool.queue.length + (client.pool.threads index).remaining) ?_ ?_
  · rintro client next label reached ⟨stopped, active⟩ taken
    have inv := invariant_of_reachable reached
    have idle : client.pool.running = false := by
      have same := inv.running
      simpa [stopped] using same
    have shorter := queue_step (invariant_of_reachable (.step reached trivial taken)).pool inv.pool
      stopped taken
    by_cases left : next.pool.threads index = .exited
    · exact .inl left
    refine .inr ⟨⟨shorter.1, left⟩, ?_⟩
    by_cases own : label.Of index
    · rcases own_step taken own with ⟨worked, _⟩ | ⟨pizza, stands, rfl⟩
      · exact (ThreadPool.leaves_workerLoop worked idle).elim (fun gone => absurd gone left) .inl
      · left
        rw [stands]
        simp [ThreadPool.move, ThreadPool.setCook, Position.remaining]
    · rw [threads_step taken own (awake_of_stopped reached stopped index)]
      have bound := shorter.2
      rcases Nat.lt_or_ge next.pool.queue.length client.pool.queue.length with less | more
      · exact .inl (by omega)
      · exact .inr ⟨by omega, own⟩
  · intro moment rests
    obtain ⟨⟨stopped, active⟩, _⟩ := rests moment le_rfl
    refine ⟨moment, le_rfl, enables_worker ?_⟩
    exact Position.remaining_pos (awake_of_stopped (execution.reachable moment) stopped index) active

/-- The pizzas that a pool has accepted are finished by its workers. -/
theorem leadsTo_finished (accepted : List Ticket) :
    execution.LeadsTo (fun client => client.pool.accepted = accepted)
      fun client => accepted.Subperm (client.pool.finished.map Prod.snd) := by
  rintro moment rfl
  obtain ⟨middle, late, taken⟩ : ∃ middle, moment ≤ middle ∧
      (execution.state moment).pool.accepted.length ≤ (execution.state middle).pool.handed.length := by
    cases length : (execution.state moment).pool.accepted.length with
    | zero => exact ⟨moment, le_rfl, Nat.zero_le _⟩
    | succ count => exact handed_of_fair fair count moment (by omega)
  have each : execution.LeadsTo
      (fun client => ∀ index, ((execution.state middle).pool.handedTo index).length ≤
        (client.pool.handedTo index).length)
      fun client => ∀ index, ((execution.state middle).pool.handedTo index).length ≤
        (client.pool.finishedBy index).length :=
    .all (fun index _ _ _ _ done taken =>
        done.trans ((extends_step taken).finished.filter _).length_le)
      fun index => (finished_of_fair fair _ index).strengthen fun _ taken => taken index
  obtain ⟨later, beyond, finished⟩ := each middle fun _ => le_rfl
  refine ⟨later, late.trans beyond, ?_⟩
  have inv := invariant_of_reachable (execution.reachable later)
  have front : (execution.state moment).pool.accepted <+:
      (execution.state middle).pool.handed.map Prod.snd := by
    have order := (invariant_of_reachable (execution.reachable middle)).pool.order
    refine List.prefix_of_prefix_length_le (extends_later execution late).accepted ?_ (by simpa using taken)
    rw [order]
    exact List.prefix_append _ _
  obtain ⟨part, same, sub⟩ :=
    subperm_finished inv.pool (extends_later execution beyond).handed finished
  exact front.sublist.subperm.trans ⟨part.map Prod.snd, same.map _, sub.map _⟩

/-- Every accepted pizza is finished by some worker. -/
theorem served_of_fair (moment : Nat) :
    ∃ later, moment ≤ later ∧
      (execution.state moment).pool.accepted.Subperm
        ((execution.state later).pool.finished.map Prod.snd) :=
  leadsTo_finished fair _ moment rfl

omit fair in
/-- The only cook serves the only pizza and goes to sleep. -/
theorem served_alone :
    ∃ execution : (machine 1).Execution, (∀ index, execution.Fair (PoolLabel.Of index)) ∧
      (execution.state 1).pool.threads (Fin.last 0) = .waiting ∧
      (execution.state 2).pool.accepted.length = 1 ∧
      ∃ later, 2 ≤ later ∧ (execution.state 2).pool.accepted.Subperm
        ((execution.state later).pool.finished.map Prod.snd) := by
  have fair := fair_of_asleep servedLabels (by decide)
  exact ⟨_, fair, by decide, by decide, served_of_fair fair 2⟩

/-- The workers of a stopped pool leave `workerLoop`. -/
theorem leadsTo_exited :
    execution.LeadsTo (fun client => client.phase = .stopped)
      fun client => ∀ index, client.pool.threads index = .exited := by
  refine .all exited_stable fun index => ?_
  exact .cases (fun _ : Unit => exited_of_active fair index) fun _ stopped =>
    (em _).imp_right fun active => ⟨(), stopped, active⟩

end Fairness

end PoolClient

end Plazza
