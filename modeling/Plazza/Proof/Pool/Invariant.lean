import Plazza.Construction.ThreadPool
import Plazza.Foundation.Tally

namespace Plazza
open Plazza.Foundation

/-- A position counts the pizza that its worker holds. -/
def Position.holding (position : Position) : Nat := position.held.toList.length

namespace ThreadPool

variable {nCooks : Nat}

/-- The pool invariant relates the counter, the queue, the workers and the histories. -/
structure Invariant (pool : ThreadPool nCooks) : Prop where
  load_eq : pool.load = pool.queue.length + ∑ index, (pool.threads index).holding
  load_le : pool.load ≤ pool.getCapacity
  order : pool.accepted = pool.handed.map Prod.snd ++ pool.queue
  holds : ∀ index, pool.handed.filter (·.1 = index) =
    pool.finished.filter (·.1 = index) ++ (pool.threads index).held.toList.map (index, ·)
  exited : ∀ index, pool.threads index = .exited → pool.running = false ∧ pool.queue = []

theorem getCapacity_le (pool : ThreadPool nCooks) : pool.getCapacity ≤ 2 * nCooks :=
  Nat.mod_le _ _

theorem getCapacity_lt (pool : ThreadPool nCooks) : pool.getCapacity < 2 ^ 64 :=
  Nat.mod_lt _ (by decide)

/-- The fresh pool has nothing queued, held or recorded. -/
theorem start_invariant (nCooks : Nat) : (start nCooks).Invariant where
  load_eq := by simp [start, Position.holding, Position.held]
  load_le := Nat.zero_le _
  order := rfl
  holds index := rfl
  exited index left := by cases left

/-- A notification changes nothing that a sleeper and a woken worker have in common. -/
theorem view_wakeThreads {Value : Sort*} (view : Position → Value)
    (alike : view .woken = view .waiting) (threads : Fin nCooks → Position)
    (wake : Fin nCooks → Bool) (index : Fin nCooks) :
    view (wakeThreads threads wake index) = view (threads index) := by
  unfold wakeThreads
  split
  · rename_i woken
    rw [woken.1, alike]
  · rfl

theorem held_wakeThreads (threads : Fin nCooks → Position) (wake : Fin nCooks → Bool)
    (index : Fin nCooks) : (wakeThreads threads wake index).held = (threads index).held :=
  view_wakeThreads Position.held rfl threads wake index

/-- A notification makes no worker leave the loop. -/
theorem wakeThreads_eq_exited {threads : Fin nCooks → Position} {wake : Fin nCooks → Bool}
    {index : Fin nCooks} :
    wakeThreads threads wake index = .exited ↔ threads index = .exited :=
  iff_of_eq (view_wakeThreads (fun position => position = .exited) (by simp) threads wake index)

/-- The invariant does not depend on which sleepers are awake. -/
theorem Invariant.woken {pool : ThreadPool nCooks} (inv : pool.Invariant)
    (wake : Fin nCooks → Bool) :
    ({ pool with threads := wakeThreads pool.threads wake } : ThreadPool nCooks).Invariant where
  load_eq := by
    have same : ∀ index, (wakeThreads pool.threads wake index).holding =
        (pool.threads index).holding := fun index => by
      rw [Position.holding, held_wakeThreads, Position.holding]
    simpa only [same] using inv.load_eq
  load_le := inv.load_le
  order := inv.order
  holds index := by simpa only [held_wakeThreads] using inv.holds index
  exited index left := inv.exited index (wakeThreads_eq_exited.mp left)

/-- The pool stays below its capacity while it accepts a pizza. -/
theorem lt_capacity {pool : ThreadPool nCooks} (room : pool.isFull = false) :
    pool.load < pool.getCapacity := by
  simpa [isFull] using room

/-- An accepted pizza does not wrap the counter. -/
theorem load_succ {pool : ThreadPool nCooks} (room : pool.isFull = false) :
    (pool.load + 1) % 2 ^ 64 = pool.load + 1 := by
  have below := lt_capacity room
  have bounded := pool.getCapacity_lt
  exact Nat.mod_eq_of_lt (by omega)

/-- A refused pizza leaves the pool unchanged. -/
theorem addPizza_refused (pool : ThreadPool nCooks) (pizza : Ticket) (wake : Fin nCooks → Bool)
    (refused : (pool.addPizza pizza wake).1 = false) : (pool.addPizza pizza wake).2 = pool := by
  unfold addPizza at refused ⊢
  split at refused
  · rename_i full
    rw [if_pos full]
  · cases refused

/-- A running pool keeps its invariant whether it accepts the pizza or not. -/
theorem Invariant.addPizza {pool : ThreadPool nCooks} (inv : pool.Invariant)
    (active : pool.running = true) (pizza : Ticket) (wake : Fin nCooks → Bool) :
    (pool.addPizza pizza wake).2.Invariant := by
  unfold ThreadPool.addPizza
  split
  · exact inv
  · rename_i room
    have room : pool.isFull = false := by simpa using room
    have woken := inv.woken wake
    refine ⟨?_, ?_, ?_, woken.holds, ?_⟩
    · have counted := woken.load_eq
      simp only [load_succ room, List.length_append, List.length_singleton] at counted ⊢
      omega
    · have below := lt_capacity room
      simp only [load_succ room]
      exact below
    · simp only [inv.order, List.append_assoc]
    · intro index left
      have stopped := (woken.exited index left).1
      simp [active] at stopped

/-- Clearing the flag keeps the invariant. -/
theorem Invariant.stop {pool : ThreadPool nCooks} (inv : pool.Invariant) : pool.stop.Invariant where
  load_eq := inv.load_eq
  load_le := inv.load_le
  order := inv.order
  holds := inv.holds
  exited index left := ⟨rfl, (inv.exited index left).2⟩

/-- The invariant ignores what the cooks show. -/
theorem Invariant.setCook {pool : ThreadPool nCooks} (inv : pool.Invariant) (index : Fin nCooks)
    (cook : Cook) : (pool.setCook index cook).Invariant :=
  ⟨inv.load_eq, inv.load_le, inv.order, inv.holds, inv.exited⟩

/-- A worker that keeps its pizza and stays in the loop keeps the invariant. -/
theorem Invariant.move {pool : ThreadPool nCooks} (inv : pool.Invariant) (index : Fin nCooks)
    (position : Position) (same : position.held = (pool.threads index).held)
    (stays : position = .exited → pool.running = false ∧ pool.queue = []) :
    (pool.move index position).Invariant where
  load_eq := by
    have weight : position.holding = (pool.threads index).holding := by
      rw [Position.holding, same, Position.holding]
    simpa only [ThreadPool.move, sum_update_same Position.holding pool.threads index position weight]
      using inv.load_eq
  load_le := inv.load_le
  order := inv.order
  holds other := by
    by_cases equal : other = index
    · subst other
      simpa [ThreadPool.move, same] using inv.holds index
    · simpa [ThreadPool.move, Function.update_of_ne equal] using inv.holds other
  exited other left := by
    by_cases equal : other = index
    · subst other
      exact stays (by simpa [ThreadPool.move] using left)
    · exact inv.exited other (by simpa [ThreadPool.move, Function.update_of_ne equal] using left)

/-- A worker that takes the oldest pizza keeps the invariant. -/
theorem Invariant.pop {pool : ThreadPool nCooks} (inv : pool.Invariant) {index : Fin nCooks}
    {pizza : Ticket} {rest : List Ticket} (free : (pool.threads index).held = none)
    (front : pool.queue = pizza :: rest) :
    ThreadPool.Invariant
      { pool.move index (.popped pizza) with
        queue := rest
        handed := pool.handed ++ [(index, pizza)] } := by
  have weights := sum_update Position.holding pool.threads index (.popped pizza)
  have none' : (pool.threads index).holding = 0 := by rw [Position.holding, free]; rfl
  have one : (Position.popped pizza).holding = 1 := rfl
  refine ⟨?_, inv.load_le, ?_, ?_, ?_⟩
  · have counted := inv.load_eq
    rw [front, List.length_cons] at counted
    simp only [ThreadPool.move]
    omega
  · change pool.accepted = _
    simp only [inv.order, front, List.map_append, List.map_cons, List.map_nil,
      List.append_assoc, List.singleton_append]
  · intro other
    by_cases equal : other = index
    · subst other
      have before := inv.holds index
      rw [free] at before
      simp [ThreadPool.move, before, Position.held]
    · have different : index ≠ other := fun same => equal same.symm
      simpa [ThreadPool.move, Function.update_of_ne equal, different] using inv.holds other
  · intro other left
    by_cases equal : other = index
    · subst other
      simp [ThreadPool.move] at left
    · have gone := (inv.exited other
        (by simpa [ThreadPool.move, Function.update_of_ne equal] using left)).2
      rw [front] at gone
      cases gone

/-- A worker about to decrement still counts in the load. -/
theorem Invariant.load_pos {pool : ThreadPool nCooks} (inv : pool.Invariant) {index : Fin nCooks}
    {pizza : Ticket} (held : (pool.threads index).held = some pizza) : 0 < pool.load := by
  have one : (pool.threads index).holding = 1 := by rw [Position.holding, held]; rfl
  have split := Finset.sum_erase_add _ (fun other => (pool.threads other).holding)
    (Finset.mem_univ index)
  have counted := inv.load_eq
  simp only [one] at split
  omega

/-- The decrement of a positive counter does not wrap. -/
theorem load_pred {load : Nat} (positive : 0 < load) (bounded : load < 2 ^ 64) :
    (load + (2 ^ 64 - 1)) % 2 ^ 64 = load - 1 := by
  rw [show load + (2 ^ 64 - 1) = load - 1 + 2 ^ 64 by omega, Nat.add_mod_right]
  exact Nat.mod_eq_of_lt (by omega)

/-- A worker that decrements keeps the invariant. -/
theorem Invariant.finishPizza {pool : ThreadPool nCooks} (inv : pool.Invariant)
    {index : Fin nCooks} {pizza : Ticket} (held : (pool.threads index).held = some pizza) :
    (pool.finishPizza index pizza).Invariant := by
  have positive := inv.load_pos held
  have decremented := load_pred positive (lt_of_le_of_lt inv.load_le pool.getCapacity_lt)
  have weights := sum_update Position.holding pool.threads index .locking
  have one : (pool.threads index).holding = 1 := by rw [Position.holding, held]; rfl
  have none' : Position.locking.holding = 0 := rfl
  refine ⟨?_, ?_, inv.order, ?_, ?_⟩
  · have counted := inv.load_eq
    simp only [ThreadPool.finishPizza, ThreadPool.move, decremented]
    omega
  · have bounded := inv.load_le
    simp only [ThreadPool.finishPizza, decremented]
    exact le_trans (Nat.sub_le _ _) bounded
  · intro other
    by_cases equal : other = index
    · subst other
      have before := inv.holds index
      rw [held] at before
      simp [ThreadPool.finishPizza, ThreadPool.move, before, Position.held]
    · have different : index ≠ other := fun same => equal same.symm
      simpa [ThreadPool.finishPizza, ThreadPool.move, Function.update_of_ne equal, different]
        using inv.holds other
  · intro other left
    by_cases equal : other = index
    · subst other
      simp [ThreadPool.finishPizza, ThreadPool.move] at left
    · exact inv.exited other (by
        simpa [ThreadPool.finishPizza, ThreadPool.move, Function.update_of_ne equal] using left)

/-- Each step of a worker keeps the invariant. -/
theorem Invariant.workerLoop {pool next : ThreadPool nCooks} (inv : pool.Invariant)
    {index : Fin nCooks} (taken : pool.workerLoop index = some next) : next.Invariant := by
  cases step_of_workerLoop taken with
  | sleep tests empty runs =>
      exact inv.move index .waiting (view_of_tests Position.held rfl tests).symm nofun
  | leave tests empty stopped =>
      have free := (view_of_tests Position.held rfl tests).symm
      exact inv.move index .exited free fun _ => ⟨stopped, empty⟩
  | pop pizza rest tests front => exact inv.pop (view_of_tests Position.held rfl tests) front
  | prepare pizza stands =>
      exact (inv.move index (.preparing pizza) (by rw [stands]; rfl) nofun).setCook _ _
  | bake pizza stands => exact inv.move index (.baking pizza) (by rw [stands]; rfl) nofun
  | serve pizza stands => exact inv.move index (.served pizza) (by rw [stands]; rfl) nofun
  | release pizza stands =>
      exact (inv.move index (.cooked pizza) (by rw [stands]; rfl) nofun).setCook _ _
  | finish pizza stands => exact inv.finishPizza (by rw [stands]; rfl)

/-- A cook that gives up keeps its pizza in the count until the decrement. -/
theorem Invariant.giveUp {pool next : ThreadPool nCooks} (inv : pool.Invariant)
    {index : Fin nCooks} (taken : pool.giveUp index = some next) : next.Invariant := by
  unfold ThreadPool.giveUp at taken
  split at taken <;> cases taken
  rename_i pizza position
  exact (inv.move index (.cooked pizza) (by rw [position]; rfl) nofun).setCook _ _

/-- A spurious wake-up keeps the invariant. -/
theorem Invariant.wakeSpuriously {pool next : ThreadPool nCooks} (inv : pool.Invariant)
    {index : Fin nCooks} (taken : pool.wakeSpuriously index = some next) : next.Invariant := by
  unfold ThreadPool.wakeSpuriously at taken
  split at taken <;> cases taken
  rename_i position
  exact inv.move index .woken (by rw [position]; rfl) nofun

/-- The queue is empty once every worker has left the loop. -/
theorem Invariant.queue_of_exited {pool : ThreadPool nCooks} (inv : pool.Invariant)
    (left : ∀ index, pool.threads index = .exited) : pool.queue = [] := by
  rcases Nat.eq_zero_or_pos nCooks with none' | some'
  · have bounded := inv.load_le
    have capacity := pool.getCapacity_le
    have counted := inv.load_eq
    exact List.length_eq_zero_iff.mp (by omega)
  · exact (inv.exited ⟨0, some'⟩ (left _)).2

/-- No pizza is held once every worker has left the loop. -/
theorem Invariant.load_of_exited {pool : ThreadPool nCooks} (inv : pool.Invariant)
    (left : ∀ index, pool.threads index = .exited) : pool.load = 0 := by
  have empty := inv.queue_of_exited left
  have free : ∀ index, (pool.threads index).holding = 0 := fun index => by rw [left index]; rfl
  simpa [empty, free] using inv.load_eq

end ThreadPool

end Plazza
