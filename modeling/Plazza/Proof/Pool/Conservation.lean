import Plazza.Construction.PoolClient
import Plazza.Proof.Pool.Invariant

namespace Plazza.PoolClient
open Plazza.Foundation

variable {nCooks : Nat}

/-- The flag is set exactly while the owner serves. -/
structure Invariant (client : PoolClient nCooks) : Prop where
  pool : client.pool.Invariant
  running : client.pool.running = true ↔ client.phase = .serving

/-- A worker step leaves the flag as it is. -/
theorem running_workerLoop {pool next : ThreadPool nCooks} {index : Fin nCooks}
    (taken : pool.workerLoop index = some next) : next.running = pool.running := by
  cases ThreadPool.step_of_workerLoop taken <;> rfl

theorem running_giveUp {pool next : ThreadPool nCooks} {index : Fin nCooks}
    (taken : pool.giveUp index = some next) : next.running = pool.running := by
  unfold ThreadPool.giveUp at taken
  split at taken <;> cases taken
  rfl

theorem running_wakeSpuriously {pool next : ThreadPool nCooks} {index : Fin nCooks}
    (taken : pool.wakeSpuriously index = some next) : next.running = pool.running := by
  unfold ThreadPool.wakeSpuriously at taken
  split at taken <;> cases taken
  rfl

theorem running_addPizza (pool : ThreadPool nCooks) (pizza : Ticket) (wake : Fin nCooks → Bool) :
    (pool.addPizza pizza wake).2.running = pool.running := by
  unfold ThreadPool.addPizza
  split <;> rfl

/-- Each step of the owner or of a worker keeps the invariant. -/
theorem Invariant.step {client next : PoolClient nCooks} {label : PoolLabel nCooks}
    (inv : client.Invariant) (taken : client.step label = some next) : next.Invariant := by
  cases label with
  | addPizza pizza wake =>
      simp only [PoolClient.step] at taken
      split at taken <;> cases taken
      rename_i allowed
      have active := inv.running.mpr allowed.1
      exact ⟨inv.pool.addPizza active pizza wake, by rw [running_addPizza]; exact inv.running⟩
  | stop =>
      simp only [PoolClient.step] at taken
      split at taken <;> cases taken
      exact ⟨inv.pool.stop, by simp [ThreadPool.stop]⟩
  | notifyAll =>
      simp only [PoolClient.step] at taken
      split at taken <;> cases taken
      rename_i phase
      refine ⟨inv.pool.woken _, ?_⟩
      have same := inv.running
      simp [phase] at same
      simp [ThreadPool.notifyAll, same]
  | worker index =>
      obtain ⟨pool, moved, rfl⟩ := Option.map_eq_some_iff.mp taken
      exact ⟨inv.pool.workerLoop moved, by rw [running_workerLoop moved]; exact inv.running⟩
  | giveUp index =>
      obtain ⟨pool, moved, rfl⟩ := Option.map_eq_some_iff.mp taken
      exact ⟨inv.pool.giveUp moved, by rw [running_giveUp moved]; exact inv.running⟩
  | wakeSpuriously index =>
      obtain ⟨pool, moved, rfl⟩ := Option.map_eq_some_iff.mp taken
      exact ⟨inv.pool.wakeSpuriously moved, by rw [running_wakeSpuriously moved]; exact inv.running⟩

/-- Every run of the pool keeps the invariant. -/
theorem invariant_of_reachable {client : PoolClient nCooks}
    (reached : (machine nCooks).Reachable client) : client.Invariant :=
  reached.invariant ⟨ThreadPool.start_invariant nCooks, by simp [machine, ThreadPool.start]⟩
    fun _ inv _ taken => inv.step taken

/-- The pool loses, duplicates and reorders no pizza and stays within its capacity. -/
structure Conservation (pool : ThreadPool nCooks) : Prop where
  load_eq : pool.load = pool.queue.length +
    (Finset.univ.filter fun index => (pool.threads index).held.isSome).card
  load_le : pool.load ≤ 2 * nCooks
  no_wrap : ∀ index pizza, pool.threads index = .cooked pizza → 0 < pool.load
  one_each : ∀ index, pool.handed.filter (·.1 = index) =
    pool.finished.filter (·.1 = index) ++ (pool.threads index).held.toList.map (index, ·)
  order : pool.accepted = pool.handed.map Prod.snd ++ pool.queue
  refused : ∀ pizza wake, (pool.addPizza pizza wake).1 = false → (pool.addPizza pizza wake).2 = pool
  drained : (∀ index, pool.threads index = .exited) →
    pool.queue = [] ∧ pool.load = 0 ∧ pool.accepted = pool.handed.map Prod.snd

/-- The counted workers are the ones that hold a pizza. -/
theorem sum_holding (threads : Fin nCooks → Position) :
    ∑ index, (threads index).holding =
      (Finset.univ.filter fun index => (threads index).held.isSome).card := by
  rw [Finset.card_filter]
  apply Finset.sum_congr rfl
  intro index _
  rw [Position.holding]
  cases (threads index).held <;> rfl

/-- Every reachable pool conserves its pizzas. -/
theorem conservation_of_reachable {client : PoolClient nCooks}
    (reached : (machine nCooks).Reachable client) : Conservation client.pool := by
  have inv := (invariant_of_reachable reached).pool
  refine ⟨sum_holding client.pool.threads ▸ inv.load_eq,
    le_trans inv.load_le client.pool.getCapacity_le, ?_, inv.holds, inv.order,
    client.pool.addPizza_refused, fun left => ?_⟩
  · intro index pizza position
    have held : (client.pool.threads index).held = some pizza := by rw [position]; rfl
    exact inv.load_pos held
  · have empty := inv.queue_of_exited left
    have all := inv.order
    rw [empty, List.append_nil] at all
    exact ⟨empty, inv.load_of_exited left, all⟩

/-- A pizza that a worker has popped is still in the count. -/
theorem conservation_after_pop :
    ∃ client, (machine 1).Reachable client ∧ client.pool.handed.length = 1 ∧
      Conservation client.pool := by
  obtain ⟨client, reached, checked⟩ := (machine 1).exists_reachable
    [.addPizza ⟨⟨.regina, .s, [], 2⟩, 1⟩ fun _ => false, .worker 0]
    (fun client => client.pool.handed.length = 1) (by decide)
  exact ⟨client, reached, of_decide_eq_true checked, conservation_of_reachable reached⟩

end Plazza.PoolClient
