import Plazza.Proof.Reception.LedgerRules
import Plazza.Proof.Shutdown.Room
import Plazza.Proof.Shutdown.Schedule

namespace Plazza
open Plazza.Foundation

namespace Pizzeria

variable {nCooks : Nat} {limit : Option Nat}

namespace Stage
open KitchenWorker

variable {call : Call} {kitchens : List KitchenHandle} {now : Nat}
variable {site : Site (KitchenWorker nCooks)}

/-- A cook takes the only pizza and cooks it. The tick gives back what it took. -/
theorem cook (stage : Stage nCooks limit call kitchens now site) (index : Fin nCooks) {origin : Int}
    (position : site.process.pool.threads index = .locking)
    (queue : site.process.pool.queue = [⟨margarita, origin⟩])
    (stocked : Stocked site.process.stock) (stays : site.process.hasExited = false)
    (room : hasRoom limit site.resultQueue.pending = true) :
    ∃ pool stock packet, Stage nCooks limit call kitchens now { site with
        resultQueue := site.resultQueue.send packet
        process := { site.process with pool, stock } } ∧
      Stocked stock ∧ pool.queue = [] ∧
      pool.threads = Function.update site.process.pool.threads index .locking ∧
      pool.load = (site.process.pool.load + (2 ^ 64 - 1)) % 2 ^ 64 := by
  have pops : site.process.pool.workerLoop index = some (site.process.pool.takePizza index) := by
    rw [ThreadPool.workerLoop, position]
  have popped : (site.process.pool.takePizza index).threads =
      Function.update site.process.pool.threads index (.popped ⟨margarita, origin⟩) := by
    rw [ThreadPool.takePizza, queue]
    rfl
  have takes : (site.process.pool.takePizza index).threads index = .popped ⟨margarita, origin⟩ := by
    rw [popped, Function.update_self]
  obtain ⟨preparing, prepares, prepared⟩ :=
    ThreadPool.exists_forward (show _ = some (.preparing ⟨margarita, origin⟩) by rw [takes]; rfl)
  obtain ⟨baking, bakes, baked⟩ := ThreadPool.exists_forward
    (show _ = some (.baking ⟨margarita, origin⟩) by rw [prepared.here]; rfl)
  obtain ⟨served, serves, serving⟩ := ThreadPool.exists_forward
    (show _ = some (.served ⟨margarita, origin⟩) by rw [baked.here]; rfl)
  obtain ⟨cooked, finishes, finished⟩ := ThreadPool.exists_forward
    (show _ = some (.cooked ⟨margarita, origin⟩) by rw [serving.here]; rfl)
  have returns : cooked.workerLoop index = some (cooked.finishPizza index ⟨margarita, origin⟩) := by
    rw [ThreadPool.workerLoop, finished.here]
  have moved := ((prepared.trans baked).trans serving).trans finished
  have first := stage.kitchen (.cook index) (step_cook pops (by rw [position]; rfl))
  have second := first.kitchen (.cook index) (step_cook prepares (by rw [takes]; rfl))
  have third := second.kitchen (.cook index)
    (step_consume bakes prepared.here toIngredients_margarita stocked.available)
  have fourth := third.kitchen (.cook index) (step_serve serves baked.here room)
  have fifth := fourth.kitchen (.cook index) (step_cook finishes (by rw [serving.here]; rfl))
  have sixth := fifth.kitchen (.cook index) (step_cook returns (by rw [finished.here]; rfl))
  have last := sixth.kitchen .regenerate (step_regenerate stays)
  refine ⟨_, _, _, last, stocked.regenerate, ?_, ?_, ?_⟩
  · change cooked.queue = []
    rw [moved.queue, ThreadPool.takePizza, queue]
  · change Function.update cooked.threads index .locking = _
    rw [moved.threads, popped, Function.update_idem, Function.update_idem]
  · change (cooked.load + (2 ^ 64 - 1)) % 2 ^ 64 = _
    rw [moved.load, ThreadPool.takePizza, queue]
    rfl

/-- The main thread passes a pizza to the pool and comes back for the next packet. -/
theorem accept (stage : Stage nCooks limit call kitchens now site) {origin : Int} {rest : List Packet}
    (control : site.process.control = .receiving)
    (pending : site.orderQueue.pending = margaritaPacket origin :: rest)
    (locking : ∀ index, site.process.pool.threads index = .locking)
    (open' : site.process.pool.isFull = false) (busy : (site.process.pool.load + 1) % 2 ^ 64 ≠ 0) :
    ∃ received accepted, Stage nCooks limit call kitchens (now + kPollInterval) { site with
        orderQueue := ⟨received, rest⟩
        process := { site.process with
          control := .receiving
          lastActiveTime := now
          pool := { site.process.pool with
            queue := site.process.pool.queue ++ [⟨margarita, origin⟩]
            load := (site.process.pool.load + 1) % 2 ^ 64
            accepted } } } := by
  have pizza : (margaritaPacket origin).type ≠ .shutdown := by simp [margaritaPacket]
  have first := stage.kitchen (.main fun _ => false)
    (step_receive control (Fifo.receive_of_pending pending) pizza _)
  have second := first.kitchen (.main fun _ => false) (step_accept rfl locking open')
  have third := second.kitchen (.main fun _ => false) (step_of_advance (.accepted rfl) _)
  have fourth := third.kitchen (.main fun _ => false) (step_of_advance (.sample true rfl) _)
  have fifth := fourth.kitchen (.main fun _ => false)
    (step_of_advance (.busy true now rfl (by exact decide_eq_false busy)) _)
  have sixth := (fifth.elapse kPollInterval).kitchen (.main fun _ => false)
    (step_of_advance (.wake true (now + kPollInterval) rfl le_rfl) _)
  exact ⟨_, _, sixth⟩

/-- The main thread refuses a pizza when the pool has no capacity at all. -/
theorem refuse (stage : Stage nCooks limit call kitchens now site) {origin : Int} {rest : List Packet}
    (control : site.process.control = .receiving)
    (pending : site.orderQueue.pending = margaritaPacket origin :: rest)
    (locking : ∀ index, site.process.pool.threads index = .locking)
    (full : site.process.pool.isFull = true) (idle : site.process.isIdle = true)
    (early : now < site.process.lastActiveTime + kIdleTimeout)
    (room : hasRoom limit site.resultQueue.pending = true) :
    ∃ received packet, Stage nCooks limit call kitchens (now + kPollInterval) { site with
        orderQueue := ⟨received, rest⟩
        resultQueue := site.resultQueue.send packet
        process := site.process.goto .receiving } := by
  have pizza : (margaritaPacket origin).type ≠ .shutdown := by simp [margaritaPacket]
  have first := stage.kitchen (.main fun _ => false)
    (step_receive control (Fifo.receive_of_pending pending) pizza _)
  have second := first.kitchen (.main fun _ => false) (step_refuse rfl locking full)
  have third := second.kitchen (.main fun _ => false) (step_sendFull rfl (by exact room) _)
  have fourth := third.kitchen (.main fun _ => false) (step_of_advance (.sample true rfl) _)
  have fifth := fourth.kitchen (.main fun _ => false)
    (step_of_advance (.idle true now rfl (by exact idle) (by exact early)) _)
  have sixth := (fifth.elapse kPollInterval).kitchen (.main fun _ => false)
    (step_of_advance (.wake true (now + kPollInterval) rfl le_rfl) _)
  exact ⟨_, _, sixth⟩

/-- The main thread takes the shutdown packet and stops the pool. -/
theorem stop (stage : Stage nCooks limit call kitchens now site)
    (control : site.process.control = .receiving)
    (pending : site.orderQueue.pending = [{ type := .shutdown }])
    (locking : ∀ index, site.process.pool.threads index = .locking) :
    ∃ received last, Stage nCooks limit call kitchens (now + kPollInterval) { site with
        orderQueue := ⟨received, []⟩
        process := { site.process with
          control := .joining
          lastActiveTime := last
          pool := site.process.pool.stop } } := by
  have received := Fifo.receive_of_pending pending
  have checked : ∃ last, site.process.checkIdle false now now = { site.process with
      control := .sleeping false (now + kPollInterval), lastActiveTime := last } := by
    unfold checkIdle
    split
    · split <;> exact ⟨_, rfl⟩
    · exact ⟨_, rfl⟩
  obtain ⟨last, checked⟩ := checked
  have asleep : site.process.pool.stop.notifyAll = site.process.pool.stop := by
    have kept : ThreadPool.wakeThreads site.process.pool.stop.threads (fun _ => true) =
        site.process.pool.stop.threads := by
      funext index
      simp [ThreadPool.wakeThreads, ThreadPool.stop, locking]
    rw [ThreadPool.notifyAll, kept]
  have first := stage.kitchen (.main fun _ => false) (step_receiveShutdown control received _)
  have second := first.kitchen (.main fun _ => false) (step_of_advance (.sample false rfl) _)
  have third := second.kitchen (.main fun _ => false) (step_check rfl (by exact checked) _)
  have fourth := (third.elapse kPollInterval).kitchen (.main fun _ => false)
    (step_of_advance (.wake false (now + kPollInterval) rfl le_rfl) _)
  have fifth := fourth.kitchen (.main fun _ => false) (step_stop rfl _)
  have sixth := fifth.kitchen (.main fun _ => false) (step_notify rfl (by exact asleep) _)
  exact ⟨_, _, sixth⟩

/-- The cooks leave the stopped pool one after the other. -/
theorem leave (stage : Stage nCooks limit call kitchens now site)
    (locking : ∀ index, site.process.pool.threads index = .locking)
    (queue : site.process.pool.queue = []) (stopped : site.process.pool.running = false)
    (count : Nat) (few : count ≤ nCooks) :
    ∃ pool, Stage nCooks limit call kitchens now
        { site with process := { site.process with pool } } ∧
      pool.queue = [] ∧ pool.running = false ∧
      ∀ index : Fin nCooks, pool.threads index = if index.val < count then .exited else .locking := by
  induction count with
  | zero => exact ⟨site.process.pool, stage, queue, stopped, fun index => locking index⟩
  | succ count ih =>
      obtain ⟨pool, earlier, queue, stopped, threads⟩ := ih (Nat.le_of_succ_le few)
      let index : Fin nCooks := ⟨count, few⟩
      have position : pool.threads index = .locking := by
        rw [threads, if_neg (Nat.lt_irrefl count)]
      have left : pool.workerLoop index = some (pool.move index .exited) := by
        simp only [ThreadPool.workerLoop, position, ThreadPool.takePizza, queue, stopped]
        rfl
      have later := earlier.kitchen (.cook index) (step_cook left
        (by simp only [position]; rfl))
      refine ⟨pool.move index .exited, later, queue, stopped, fun other => ?_⟩
      by_cases same : other = index
      · subst same
        rw [if_pos (Nat.lt_succ_self count)]
        exact Function.update_self ..
      · have apart : other.val ≠ count := fun equal => same (Fin.ext equal)
        have kept : (pool.move index .exited).threads other = pool.threads other :=
          Function.update_of_ne same _ _
        rw [kept, threads]
        by_cases before : other.val < count
        · rw [if_pos before, if_pos (by omega)]
        · rw [if_neg before, if_neg (by omega)]

/-- A kitchen at rest obeys the shutdown packet up to its own shutdown packet. -/
theorem finish (stage : Stage nCooks limit call kitchens now site)
    (control : site.process.control = .receiving)
    (pending : site.orderQueue.pending = [{ type := .shutdown }])
    (locking : ∀ index, site.process.pool.threads index = .locking)
    (queue : site.process.pool.queue = []) :
    ∃ later next, Stage nCooks limit call kitchens later next ∧
      next.process.control = .closing ∧ next.resultQueue = site.resultQueue := by
  obtain ⟨received, last, stopped⟩ := stage.stop control pending locking
  obtain ⟨pool, left, _, _, threads⟩ := stopped.leave locking queue rfl nCooks le_rfl
  have exited : ∀ index, pool.threads index = .exited := by
    intro index
    rw [threads, if_pos index.isLt]
  have joined := left.kitchen (.main fun _ => false) (step_join rfl (by exact exited) _)
  exact ⟨_, _, joined, rfl, rfl⟩

/-- No cook holds a pizza and the main thread is about to poll. -/
structure Resting (site : Site (KitchenWorker nCooks)) : Prop where
  control : site.process.control = .receiving
  locking : ∀ index, site.process.pool.threads index = .locking
  queue : site.process.pool.queue = []
  load : site.process.pool.load = 0
  stocked : Stocked site.process.stock

/-- A kitchen at rest cooks the next pizza and rests again. -/
theorem round (stage : Stage nCooks limit call kitchens now site) (resting : Resting site)
    {origin : Int} {rest : List Packet}
    (pending : site.orderQueue.pending = margaritaPacket origin :: rest)
    (capacity : 0 < 2 * nCooks % 2 ^ 64) (room : hasRoom limit site.resultQueue.pending = true) :
    ∃ later next, Stage nCooks limit call kitchens later next ∧ Resting next ∧
      next.orderQueue.pending = rest ∧
      next.resultQueue.pending.length = site.resultQueue.pending.length + 1 := by
  have some_cook : 0 < nCooks := by omega
  have open' : site.process.pool.isFull = false := by
    rw [ThreadPool.isFull, resting.load]
    exact decide_eq_false (Nat.not_le.mpr capacity)
  have busy : (site.process.pool.load + 1) % 2 ^ 64 ≠ 0 := by
    rw [resting.load]
    decide
  obtain ⟨received, accepted, taken⟩ := stage.accept resting.control pending
    resting.locking open' busy
  obtain ⟨pool, stock, packet, cooked, stocked, queue, threads, load⟩ :=
    taken.cook ⟨0, some_cook⟩ (resting.locking _) (by simp only [resting.queue]; rfl)
      resting.stocked rfl room
  refine ⟨_, _, cooked, ⟨rfl, fun index => ?_, queue, ?_, stocked⟩, rfl, ?_⟩
  · simp only [threads]
    by_cases same : index = ⟨0, some_cook⟩
    · subst same
      exact Function.update_self ..
    · rw [Function.update_of_ne same]
      exact resting.locking index
  · simp only [load, resting.load]
    rfl
  · exact List.length_append

/-- A kitchen at rest fills its result queue with the pizzas that it has received. -/
theorem rounds {capacity : Nat} (stage : Stage nCooks (some capacity) call kitchens now site)
    (resting : Resting site) {origin : Int} (count : Nat)
    (pending : site.orderQueue.pending = List.replicate count (margaritaPacket origin))
    (usable : 0 < 2 * nCooks % 2 ^ 64)
    (room : site.resultQueue.pending.length + count ≤ capacity) :
    ∃ later next, Stage nCooks (some capacity) call kitchens later next ∧ Resting next ∧
      next.orderQueue.pending = [] ∧
      next.resultQueue.pending.length = site.resultQueue.pending.length + count := by
  induction count generalizing now site with
  | zero => exact ⟨now, site, stage, resting, pending, rfl⟩
  | succ count ih =>
      obtain ⟨middle, between, cooked, rests, left, more⟩ := stage.round resting pending usable
        (decide_eq_true (by omega))
      obtain ⟨later, next, all, rests, none_left, full⟩ := ih cooked rests left (by omega)
      exact ⟨later, next, all, rests, none_left, by omega⟩

theorem bestKitchen_singleton {kitchen : KitchenHandle} (usable : kitchen.Usable) :
    bestKitchen [kitchen] = some 0 := by
  simp only [bestKitchen, List.zipIdx_singleton, List.foldl_cons, List.foldl_nil, chooseBest,
    KitchenHandle.usable_iff.mpr usable, if_true, Option.map_some]

/-- A send with room puts the packet on the order queue. -/
theorem run_send {kitchen : KitchenHandle} (pizza : Pizza) (origin : Int)
    (room : hasRoom limit site.orderQueue.pending = true) :
    Operation.run (P := KitchenWorker.process nCooks limit) limit (.send pizza origin) kitchen site =
      some ⟨{ kitchen with load := kitchen.load + 1 }, { site with
        orderQueue := site.orderQueue.send { type := .pizza, pizza := pack pizza, origin } }, none⟩ := by
  simp only [Operation.run, Site.sendOrder, room, if_true, Option.bind_eq_bind, Option.bind_some]
  rfl

/-- A shutdown packet with room goes to the order queue. -/
theorem run_close {kitchen : KitchenHandle} (room : hasRoom limit site.orderQueue.pending = true) :
    Operation.run (P := KitchenWorker.process nCooks limit) limit .close kitchen site =
      some ⟨kitchen, { site with orderQueue := site.orderQueue.send { type := .shutdown } }, none⟩ := by
  simp only [Operation.run, Site.sendOrder, room, if_true, Option.bind_eq_bind, Option.bind_some]
  rfl

/-- The reception sends pizzas to its only kitchen as long as the kitchen is usable. -/
theorem sends {capacity : Nat} {kitchen : KitchenHandle} {pizza : Pizza} {origin : Int}
    (count : Nat) (stage : Stage nCooks (some capacity)
      (.dispatching (List.replicate count pizza) origin false) [kitchen] now site)
    (first : kitchen.id = 0) (alive : kitchen.alive = true)
    (usable : count ≤ kitchen.capacity - kitchen.load)
    (room : site.orderQueue.pending.length + count ≤ capacity) :
    ∃ next, Stage nCooks (some capacity) (.dispatching [] origin false)
        [{ kitchen with load := kitchen.load + count }] now next ∧
      next.process = site.process ∧ next.resultQueue = site.resultQueue ∧
      next.orderQueue.pending = site.orderQueue.pending ++
        List.replicate count { type := .pizza, pizza := pack pizza, origin } := by
  induction count generalizing site kitchen with
  | zero => exact ⟨site, stage, rfl, rfl, (List.append_nil _).symm⟩
  | succ count ih =>
      have best : bestKitchen [kitchen] = some 0 := bestKitchen_singleton ⟨alive, by omega⟩
      have sent := stage.apply first (by
          intro pizzeria running listed
          rw [Pizzeria.next, running, listed]
          simp only [List.replicate_succ, best]
          rfl) (run_send pizza origin (decide_eq_true (by omega))) first
      obtain ⟨next, all, process, results, pending⟩ := ih sent first alive
        (by simp only; omega)
        (by simp only [Fifo.send, List.length_append, List.length_singleton]; omega)
      refine ⟨next, ?_, process, results, ?_⟩
      · rwa [Nat.add_assoc, Nat.add_comm 1] at all
      · rw [pending, List.replicate_succ]
        exact List.append_assoc ..

/-- The first order spawns a kitchen for its first pizza. -/
theorem spawned (nCooks : Nat) (limit : Option Nat) (count : Nat) :
    ∃ origin, Stage nCooks limit
      (.dispatching (List.replicate (count + 1) ⟨.margarita, .s⟩) origin true)
      [KitchenHandle.new 0 nCooks] 0 (Site.fresh (KitchenWorker.new nCooks)) := by
  let pizzas : List Pizza := List.replicate (count + 1) ⟨.margarita, .s⟩
  obtain ⟨⟨ledger, origin⟩, registered⟩ := Ledger.exists_orderCallback ⟨.margarita, .s, count + 1⟩
  have expanded : expand [⟨.margarita, .s, count + 1⟩] = pizzas := List.append_nil _
  let ordered : Pizzeria (KitchenWorker.process nCooks limit) := { Pizzeria.initial _ with
    ledger
    accepted := [(origin, pizzas)]
    call := .updating 0 pizzas origin }
  let erased := { ordered with call := .dispatching pizzas origin false }
  have first : (Pizzeria.initial _).step nCooks limit (.order [⟨.margarita, .s, count + 1⟩]) =
      some ordered := by
    simp only [step, Pizzeria.initial, if_true, registered, Option.map_some, expanded]
    rfl
  have second : ordered.step nCooks limit .reception = some erased := rfl
  have third : erased.step nCooks limit .reception = some { erased with
    kitchens := [KitchenHandle.new 0 nCooks]
    nextKitchenId := 1
    call := .dispatching pizzas origin true
    sites := Function.update erased.sites 0 (Site.fresh (KitchenWorker.new nCooks)) } := rfl
  exact ⟨origin, _, reachable_step (reachable_step (reachable_step .initial first) second) third,
    Nat.one_pos, rfl, rfl, rfl, rfl⟩

/-- A new kitchen that has received as many pizzas as its result queue has room fills the queue. -/
theorem fill {capacity : Nat} (positive : 0 < capacity)
    (narrow : capacity ≤ max 1 (2 * nCooks % 2 ^ 64))
    (stage : Stage nCooks (some capacity) call kitchens now site)
    (process : site.process = KitchenWorker.new nCooks) (empty : site.resultQueue.pending = [])
    {origin : Int}
    (pending : site.orderQueue.pending = List.replicate capacity (margaritaPacket origin)) :
    ∃ later next, Stage nCooks (some capacity) call kitchens later next ∧
      next.process.control = .receiving ∧
      (∀ index, next.process.pool.threads index = .locking) ∧ next.process.pool.queue = [] ∧
      next.orderQueue.pending = [] ∧ next.resultQueue.pending.length = capacity := by
  rcases site with ⟨orderQueue, resultQueue, worker⟩
  subst process
  have started := stage.kitchen (.main fun _ => false) (step_of_advance (.start rfl) _)
  have length : resultQueue.pending.length = 0 := List.length_eq_zero_iff.mpr empty
  by_cases usable : 0 < 2 * nCooks % 2 ^ 64
  · obtain ⟨later, next, full, resting, none_left, count⟩ := started.rounds
      ⟨rfl, fun _ => rfl, rfl, rfl, rfl, rfl, rfl⟩ capacity pending usable
      (by simp only [length]; omega)
    refine ⟨later, next, full, resting.control, resting.locking, resting.queue, none_left, ?_⟩
    rw [count]
    simp only [length, Nat.zero_add]
  · -- without a capacity the pool refuses the only pizza
    obtain rfl : capacity = 1 := by omega
    have closed : (KitchenWorker.new nCooks).pool.isFull = true :=
      decide_eq_true (Nat.le_of_not_lt usable)
    obtain ⟨received, packet, refused⟩ := started.refuse rfl pending (fun _ => rfl) closed rfl
      (by simp only [kIdleTimeout]; omega) (decide_eq_true (by simp only [length]; exact positive))
    refine ⟨_, _, refused, rfl, fun _ => rfl, rfl, rfl, ?_⟩
    simp [Fifo.send, length]

end Stage

/-- Queues without more room than one kitchen has capacity deadlock in some run. -/
theorem exists_deadlocked {capacity : Nat} (positive : 0 < capacity)
    (narrow : capacity ≤ max 1 (2 * nCooks % 2 ^ 64)) :
    ∃ pizzeria : Pizzeria (KitchenWorker.process nCooks (some capacity)),
      (machine (KitchenWorker.process nCooks (some capacity)) nCooks (some capacity)).Reachable
        pizzeria ∧ pizzeria.Deadlocked := by
  obtain ⟨origin, spawned⟩ := Stage.spawned nCooks (some capacity) (capacity - 1)
  have first := spawned.apply rfl (by
    intro pizzeria running listed
    rw [Pizzeria.next, running, listed]
    rfl) (Stage.run_send ⟨.margarita, .s⟩ origin (decide_eq_true positive)) rfl
  have room : 1 + (capacity - 1) = capacity := by omega
  obtain ⟨site, sent, process, results, pending⟩ := Stage.sends (capacity - 1) first rfl rfl
    (by simp only [KitchenHandle.new]; omega) room.le
  have idle := sent.skip (by
    intro pizzeria running listed
    rw [Pizzeria.next, running])
  obtain ⟨rests, kitchen, full, control, locking, queue, none_left, length⟩ := idle.fill positive
    narrow process (by rw [results]; rfl) (by
      rw [pending, ← room, Nat.add_comm, List.replicate_succ]
      rfl)
  have closed := full.close.apply rfl (by
    intro pizzeria running listed
    rw [Pizzeria.next, running, listed]
    rfl) (Stage.run_close (decide_eq_true (by rw [none_left]; exact positive))) rfl
  obtain ⟨later, next, blocked, closing, unread⟩ := closed.finish control (by
    simp only [Fifo.send, none_left, List.nil_append]) locking queue
  obtain ⟨pizzeria, reached, _, awaits, listed, _, here⟩ := blocked
  refine ⟨pizzeria, reached, 0, _, awaits, by rw [listed]; rfl, ?_⟩
  change KitchenWorker.Blocked (some capacity) (pizzeria.sites 0)
  rw [here]
  refine ⟨?_, .inl (by rw [closing]; rfl)⟩
  rw [unread]
  simp [hasRoom, length]

/-- The shutdown never deadlocks if and only if each queue has more room than one kitchen has
capacity. -/
theorem never_deadlocked_iff {capacity : Nat} (positive : 0 < capacity) :
    (∀ pizzeria : Pizzeria (KitchenWorker.process nCooks (some capacity)),
        (machine (KitchenWorker.process nCooks (some capacity)) nCooks (some capacity)).Reachable
          pizzeria → ¬pizzeria.Deadlocked) ↔
      max 1 (2 * nCooks % 2 ^ 64) < capacity := by
  constructor
  · intro never
    by_contra narrow
    obtain ⟨pizzeria, reached, deadlocked⟩ :=
      exists_deadlocked positive (Nat.le_of_not_lt narrow)
    exact never pizzeria reached deadlocked
  · intro room pizzeria reached
    exact not_deadlocked room reached

/-- Three packets are enough room for a kitchen with one cook. -/
theorem never_deadlocked_three :
    ¬∃ pizzeria : Pizzeria (KitchenWorker.process 1 (some 3)),
      (machine (KitchenWorker.process 1 (some 3)) 1 (some 3)).Reachable pizzeria ∧
        pizzeria.Deadlocked := by
  rintro ⟨pizzeria, reached, deadlocked⟩
  exact (never_deadlocked_iff (by decide)).mpr (by decide) pizzeria reached deadlocked

/-- The only cook cooks one pizza, nobody reads its done packet and the reception shuts down. -/
def unreadRun : List (PizzeriaLabel (KitchenWorker.process 1 (some 1))) :=
  let main (count : Nat) := List.replicate count
    (PizzeriaLabel.kitchen (P := KitchenWorker.process 1 (some 1)) 0 (.main fun _ => false))
  let cook (count : Nat) := List.replicate count
    (PizzeriaLabel.kitchen (P := KitchenWorker.process 1 (some 1)) 0 (.cook KitchenWorker.onlyCook))
  .order [⟨.margarita, .s, 1⟩] :: List.replicate 4 .reception ++ main 6 ++ cook 6 ++
    [.elapse kPollInterval, .close, .reception] ++ main 4 ++ .elapse kPollInterval :: main 3 ++
      cook 1 ++ main 1

/-- With room for one packet the shutdown waits for a kitchen that waits for the shutdown. -/
theorem exists_deadlocked_one :
    ∃ pizzeria : Pizzeria (KitchenWorker.process 1 (some 1)),
      (machine (KitchenWorker.process 1 (some 1)) 1 (some 1)).Reachable pizzeria ∧
        pizzeria.Deadlocked := by
  obtain ⟨pizzeria, reached, checked⟩ := (machine (KitchenWorker.process 1 (some 1)) 1
    (some 1)).exists_reachable unreadRun (fun pizzeria => pizzeria.call = .awaiting 0 ∧
      (pizzeria.kitchens[0]?.any fun kitchen => (KitchenWorker.decidableBlocked (some 1)
        (pizzeria.sites kitchen.id)).decide) = true) (by decide)
  obtain ⟨awaits, waits⟩ := of_decide_eq_true checked
  obtain ⟨kitchen, found, blocked⟩ := (Option.any_eq_true _ _).mp waits
  exact ⟨pizzeria, reached, 0, kitchen, awaits, found,
    @of_decide_eq_true _ (KitchenWorker.decidableBlocked _ _) blocked⟩

end Pizzeria

end Plazza
