import Plazza.Proof.Kitchen.Contract
import Plazza.Proof.Kitchen.Steps
import Plazza.Proof.Pool.Conservation

namespace Plazza
open Plazza.Foundation

/-- A position owes the tag of the pizza whose done packet is not sent yet. -/
def Position.owes (position : Position) : Multiset (PackedPizza × Int) :=
  match position.owed with
  | none => 0
  | some ticket => {ticket.tag}

@[simp] theorem Position.owes_baking (ticket : Ticket) :
    (Position.baking ticket).owes = {ticket.tag} := rfl

@[simp] theorem Position.owes_served (ticket : Ticket) : (Position.served ticket).owes = 0 := rfl

namespace ThreadPool

variable {nCooks : Nat}

/-- The pool owes its queued pizzas and the pizzas of its workers. -/
def owes (pool : ThreadPool nCooks) : Multiset (PackedPizza × Int) :=
  (pool.queue.map Ticket.tag : Multiset _) + ∑ index, (pool.threads index).owes

theorem owes_start (nCooks : Nat) : (start nCooks).owes = 0 := by
  simp [owes, start, Position.owes, Position.owed]

/-- A woken sleeper owes nothing before and after. -/
theorem owes_wakeThreads (threads : Fin nCooks → Position) (wake : Fin nCooks → Bool)
    (index : Fin nCooks) : (wakeThreads threads wake index).owes = (threads index).owes :=
  view_wakeThreads Position.owes rfl threads wake index

theorem owes_woken (pool : ThreadPool nCooks) (wake : Fin nCooks → Bool) :
    owes { pool with threads := wakeThreads pool.threads wake } = pool.owes := by
  simp only [owes, owes_wakeThreads]

/-- An accepted pizza becomes owed. -/
theorem owes_addPizza {pool next : ThreadPool nCooks} {pizza : Ticket} {wake : Fin nCooks → Bool}
    (added : pool.addPizza pizza wake = (true, next)) : next.owes = pool.owes + {pizza.tag} := by
  unfold addPizza at added
  split at added <;> cases added
  simp only [owes, owes_wakeThreads, List.map_append, List.map_cons, List.map_nil,
    ← Multiset.coe_add, Multiset.coe_singleton]
  ac_rfl

/-- A move between positions that owe the same keeps what the pool owes. -/
theorem owes_move (pool : ThreadPool nCooks) (index : Fin nCooks) (position : Position)
    (same : position.owes = (pool.threads index).owes) :
    (pool.move index position).owes = pool.owes := by
  simp only [owes, move, sum_update_same Position.owes pool.threads index position same]

/-- Only a worker that sends its done packet changes what the pool owes. -/
theorem owes_workerLoop {pool next : ThreadPool nCooks} {index : Fin nCooks}
    (taken : pool.workerLoop index = some next) :
    (∃ pizza, pool.threads index = .baking pizza ∧ pool.owes = next.owes + {pizza.tag}) ∨
      (∀ pizza, pool.threads index ≠ .baking pizza) ∧ next.owes = pool.owes := by
  cases step_of_workerLoop taken with
  | sleep tests | leave tests =>
      have free := view_of_tests Position.owes rfl tests
      exact .inr ⟨by rcases tests with stands | stands <;> simp [stands],
        owes_move pool index _ (by rw [free]; rfl)⟩
  | pop pizza rest tests front =>
      refine .inr ⟨by rcases tests with stands | stands <;> simp [stands], ?_⟩
      -- the pizza moves from the queue to its worker
      have free : (pool.threads index).owes = 0 := view_of_tests Position.owes rfl tests
      have moved := sum_update Position.owes pool.threads index (.popped pizza)
      rw [free, add_zero] at moved
      have one : (Position.popped pizza).owes = {pizza.tag} := rfl
      simp only [owes, move, moved, one, front, List.map_cons, ← Multiset.cons_coe,
        ← Multiset.singleton_add]
      ac_rfl
  | prepare pizza stands =>
      exact .inr ⟨by simp [stands], owes_move pool index (.preparing pizza) (by rw [stands]; rfl)⟩
  | bake pizza stands =>
      exact .inr ⟨by simp [stands], owes_move pool index (.baking pizza) (by rw [stands]; rfl)⟩
  | serve pizza stands =>
      refine .inl ⟨pizza, stands, ?_⟩
      have moved := sum_update Position.owes pool.threads index (.served pizza)
      rw [stands, Position.owes_baking, Position.owes_served, add_zero] at moved
      simp only [owes, move, ← moved]
      ac_rfl
  | release pizza stands =>
      exact .inr ⟨by simp [stands], owes_move pool index (.cooked pizza) (by rw [stands]; rfl)⟩
  | finish pizza stands =>
      have same : (pool.finishPizza index pizza).owes = (pool.move index .locking).owes := by
        simp only [owes, finishPizza, move]
      have kept := owes_move pool index .locking (by rw [stands]; rfl)
      exact .inr ⟨by simp [stands], same.trans kept⟩

/-- The pool owes nothing once every worker has left its loop. -/
theorem Invariant.owes_of_exited {pool : ThreadPool nCooks} (inv : pool.Invariant)
    (left : ∀ index, pool.threads index = .exited) : pool.owes = 0 := by
  have empty := inv.queue_of_exited left
  have free : ∀ index, (pool.threads index).owes = 0 := fun index => by rw [left index]; rfl
  simp [owes, empty, free]

end ThreadPool

/-- The main thread holds a pizza packet between its receive and the answer of the pool. -/
def Control.hand : Control → Multiset (PackedPizza × Int)
  | handling packet => tags Packet.isPizza [packet]
  | refusing packet => {packet.tag}
  | _ => 0

/-- The pool serves until the main thread clears its flag. -/
def Control.serving : Control → Bool
  | notifying | joining | closing | exited => false
  | _ => true

/-- The workers are joined before the main thread sends its last packet. -/
def Control.joined : Control → Bool
  | closing | exited => true
  | _ => false

/-- Every packet of a status response is a cook status or the reply. -/
def Control.Informs : Control → Prop
  | responding packets =>
      ∀ packet ∈ packets, packet.type = .cookStatus ∨ packet.type = .statusReply
  | _ => True

/-- The built response has no other packets. -/
theorem informs_sendStatusResponse {load capacity : Nat} {stock : Stock}
    {statuses : List CookStatus} {packets : List Packet}
    (built : sendStatusResponse load capacity stock statuses = some packets) :
    (Control.responding packets).Informs := by
  obtain ⟨packed, _, built⟩ := Option.bind_eq_some_iff.mp built
  obtain rfl := Option.some.inj built
  intro packet member
  rcases List.mem_append.mp member with status | reply
  · obtain ⟨_, _, rfl⟩ := List.mem_map.mp status
    exact .inl rfl
  · obtain rfl := List.mem_singleton.mp reply
    exact .inr rfl

namespace KitchenWorker

variable {nCooks : Nat}

/-- A kitchen owes the packet in hand and what its pool owes. -/
def unanswered (worker : KitchenWorker nCooks) : Multiset (PackedPizza × Int) :=
  worker.control.hand + worker.pool.owes

/-- The control of the main thread agrees with the pool. -/
structure Valid (worker : KitchenWorker nCooks) : Prop where
  pool : worker.pool.Invariant
  running : worker.pool.running = worker.control.serving
  joined : worker.control.joined = true → ∀ index, worker.pool.threads index = .exited
  informs : worker.control.Informs

theorem valid_new (nCooks : Nat) : (new nCooks).Valid where
  pool := ThreadPool.start_invariant nCooks
  running := rfl
  joined := fun joined => absurd joined Bool.false_ne_true
  informs := trivial

/-- A process whose main thread still serves has not exited. -/
theorem hasExited_of_serving {worker : KitchenWorker nCooks}
    (serving : worker.control.serving = true) : worker.hasExited = false := by
  unfold hasExited
  split
  · rename_i control
    rw [control] at serving
    cases serving
  · rfl

/-- A process that still serves is valid again after a change that leaves the pool alone. -/
theorem Valid.serve {worker next : KitchenWorker nCooks} (valid : worker.Valid)
    (pool : next.pool = worker.pool) (before : worker.control.serving = true)
    (after : next.control.serving = true) (informs : next.control.Informs) : next.Valid where
  pool := pool ▸ valid.pool
  running := by rw [pool, valid.running, before, after]
  joined closed := by
    cases control : next.control <;> rw [control] at closed after <;> cases closed <;> cases after
  informs := informs

/-- An advance joins two points of the loop without a packet in hand. -/
theorem Advance.points {worker next : KitchenWorker nCooks} {now : Nat}
    (moves : Advance now worker next) :
    next.pool = worker.pool ∧ worker.control.serving = true ∧ worker.control.hand = 0 ∧
      next.control.serving = true ∧ next.control.hand = 0 ∧ next.control.Informs := by
  cases moves with
  | build load stock statuses packets control _ built =>
      rw [control]
      exact ⟨rfl, rfl, rfl, rfl, rfl, informs_sendStatusResponse built⟩
  | wake running wakeTime control =>
      rw [control]
      cases running with
      | false => exact ⟨rfl, rfl, rfl, rfl, rfl, trivial⟩
      | true => exact ⟨rfl, rfl, rfl, rfl, rfl, trivial⟩
  | start control | accepted control | readStock _ control | readCook _ _ _ control
  | responded control | sample _ control | timeOut _ _ control | idle _ _ control
  | busy _ _ control =>
      rw [control]
      exact ⟨rfl, rfl, rfl, rfl, rfl, trivial⟩

/-- The workers of a process are not joined while one of them is in its loop. -/
theorem Valid.apart {worker : KitchenWorker nCooks} (valid : worker.Valid) {index : Fin nCooks}
    (active : worker.pool.threads index ≠ .exited) : worker.control.joined = false := by
  by_contra joined
  exact active (valid.joined (Bool.of_not_eq_false joined) index)

/-- A process that has not joined its workers has not exited. -/
theorem hasExited_of_apart {worker : KitchenWorker nCooks}
    (apart : worker.control.joined = false) : worker.hasExited = false := by
  unfold hasExited
  split
  · rename_i control
    rw [control] at apart
    cases apart
  · rfl

theorem active_of_workerLoop {worker : KitchenWorker nCooks} {index : Fin nCooks}
    {pool : ThreadPool nCooks} (worked : worker.pool.workerLoop index = some pool) :
    worker.pool.threads index ≠ .exited := fun left => by
  simp [ThreadPool.workerLoop, left] at worked

/-- A worker step keeps the process valid whatever else changes beside the control. -/
theorem Valid.work {worker next : KitchenWorker nCooks} (valid : worker.Valid)
    {index : Fin nCooks} (worked : worker.pool.workerLoop index = some next.pool)
    (control : next.control = worker.control) : next.Valid where
  pool := valid.pool.workerLoop worked
  running := by rw [control, PoolClient.running_workerLoop worked, valid.running]
  joined joined := by
    rw [control, valid.apart (active_of_workerLoop worked)] at joined
    cases joined
  informs := control ▸ valid.informs

/-- A spurious wake-up changes the position of a sleeper. -/
theorem waiting_of_wakeSpuriously {pool next : ThreadPool nCooks} {index : Fin nCooks}
    (woken : pool.wakeSpuriously index = some next) :
    pool.threads index = .waiting ∧ next = pool.move index .woken := by
  unfold ThreadPool.wakeSpuriously at woken
  split at woken <;> cases woken
  exact ⟨‹_›, rfl⟩

theorem active_of_wakeSpuriously {pool next : ThreadPool nCooks} {index : Fin nCooks}
    (woken : pool.wakeSpuriously index = some next) : pool.threads index ≠ .exited := by
  simp [(waiting_of_wakeSpuriously woken).1]

theorem Valid.wakeSpuriously {worker : KitchenWorker nCooks} (valid : worker.Valid)
    {index : Fin nCooks} {pool : ThreadPool nCooks}
    (woken : worker.pool.wakeSpuriously index = some pool) :
    { worker with pool : KitchenWorker nCooks }.Valid where
  pool := valid.pool.wakeSpuriously woken
  running := (PoolClient.running_wakeSpuriously woken).trans valid.running
  joined joined := by
    rw [valid.apart (active_of_wakeSpuriously woken)] at joined
    cases joined
  informs := valid.informs

section Transitions

variable {limit : Option Nat} {now : Nat} {site next : Site (KitchenWorker nCooks)}
  {label : Label nCooks}

/-- A process that has exited takes no step. -/
theorem Transition.active (valid : site.process.Valid)
    (moved : Transition limit now site label next) : site.process.hasExited = false := by
  cases moved with
  | advance wake process moves => exact hasExited_of_serving moves.points.2.1
  | pollEmpty _ control | pollShutdown _ _ _ control | poll _ _ _ control
  | accept _ _ _ _ control | refuse _ _ control | request _ _ control | ignore _ _ control
  | sendFull _ _ control | respond _ _ _ control | stop _ control | notify _ control
  | join _ control | close _ control => simp [hasExited, control]
  | cook index pool worked | consume index _ pool _ _ worked | serve index _ pool _ worked =>
      exact hasExited_of_apart (valid.apart (active_of_workerLoop worked))
  | wakeSpuriously index pool woken =>
      exact hasExited_of_apart (valid.apart (active_of_wakeSpuriously woken))
  | regenerate stays => exact stays

/-- Each transition keeps the process valid. -/
theorem Transition.valid (valid : site.process.Valid)
    (moved : Transition limit now site label next) : next.process.Valid := by
  cases moved with
  | advance wake process moves =>
      obtain ⟨pool, before, _, after, _, informs⟩ := moves.points
      exact valid.serve pool before after informs
  | pollEmpty _ control | pollShutdown _ _ _ control | poll _ _ _ control | refuse _ _ control
  | request _ _ control | ignore _ _ control | sendFull _ _ control =>
      exact valid.serve rfl (by rw [control]; rfl) rfl trivial
  | accept wake packet ticket pool control pizza same notifies added =>
      have runs : site.process.pool.running = true := by rw [valid.running, control]; rfl
      have kept := valid.pool.addPizza runs ticket wake
      have still := PoolClient.running_addPizza site.process.pool ticket wake
      rw [added] at kept still
      exact ⟨kept, still.trans runs, fun joined => absurd joined Bool.false_ne_true, trivial⟩
  | respond wake packet rest control room =>
      have informs := valid.informs
      rw [control] at informs
      refine valid.serve rfl (by rw [control]; rfl) rfl ?_
      exact fun other member => informs other (List.mem_cons_of_mem _ member)
  | stop wake control =>
      exact ⟨valid.pool.stop, rfl, fun joined => absurd joined Bool.false_ne_true, trivial⟩
  | notify wake control =>
      refine ⟨valid.pool.woken _, ?_, fun joined => absurd joined Bool.false_ne_true, trivial⟩
      simpa [control, Control.serving, ThreadPool.notifyAll] using valid.running
  | join wake control left =>
      refine ⟨valid.pool, ?_, fun _ => left, trivial⟩
      simpa [control, goto, Control.serving] using valid.running
  | close wake control room =>
      refine ⟨valid.pool, ?_, fun _ => valid.joined (by rw [control]; rfl), trivial⟩
      simpa [control, goto, Control.serving] using valid.running
  | cook index pool worked | consume index _ pool _ _ worked | serve index _ pool _ worked =>
      exact valid.work worked rfl
  | wakeSpuriously index pool woken => exact valid.wakeSpuriously woken
  | regenerate stays => exact ⟨valid.pool, valid.running, valid.joined, valid.informs⟩

/-- Each transition is a move of the contract. -/
theorem Transition.move (valid : site.process.Valid)
    (moved : Transition limit now site label next) :
    Move unanswered hasExited site next := by
  have stays := moved.active valid
  cases moved with
  | advance wake process moves =>
      obtain ⟨pool, _, noHand, after, free, _⟩ := moves.points
      refine .internal rfl rfl ?_ (hasExited_of_serving after)
      rw [unanswered, unanswered, free, noHand, pool]
  | pollEmpty wake control empty =>
      refine .internal rfl rfl ?_ rfl
      simp only [unanswered, goto, control, Control.hand]
  | pollShutdown wake packet orderQueue control received shutdown =>
      refine .take packet received rfl ?_ rfl
      simp [unanswered, goto, control, Control.hand, tags_singleton, Packet.isPizza, shutdown]
  | poll wake packet orderQueue control received other =>
      refine .take packet received rfl ?_ rfl
      simp only [unanswered, goto, control, Control.hand, zero_add]
      exact add_comm _ _
  | accept wake packet ticket pool control pizza same notifies added =>
      refine .internal rfl rfl ?_ rfl
      simp only [unanswered, control, Control.hand, ThreadPool.owes_addPizza added, same,
        tags_singleton, Packet.isPizza, pizza, decide_true, if_true, zero_add]
      exact add_comm _ _
  | refuse wake packet control pizza full =>
      refine .internal rfl rfl ?_ rfl
      simp [unanswered, goto, control, Control.hand, tags_singleton, Packet.isPizza, pizza]
  | request wake packet control type =>
      refine .internal rfl rfl ?_ rfl
      simp [unanswered, goto, control, Control.hand, tags_singleton, Packet.isPizza, type]
  | ignore wake packet control other noRequest =>
      refine .internal rfl rfl ?_ rfl
      simp [unanswered, goto, control, Control.hand, tags_singleton, Packet.isPizza, other]
  | sendFull wake packet control room =>
      refine .answer _ rfl rfl rfl ?_ rfl
      simp only [unanswered, goto, control, Control.hand, zero_add]
      exact add_comm _ _
  | respond wake packet rest control room =>
      have informs := valid.informs
      rw [control] at informs
      refine .inform packet (informs packet List.mem_cons_self) rfl rfl ?_ rfl
      simp only [unanswered, goto, control, Control.hand]
  | stop wake control =>
      refine .internal rfl rfl ?_ rfl
      simp only [unanswered, control, Control.hand, zero_add]
      rfl
  | notify wake control =>
      refine .internal rfl rfl ?_ rfl
      simp only [unanswered, control, Control.hand, zero_add]
      exact ThreadPool.owes_woken _ _
  | join wake control left =>
      refine .internal rfl rfl ?_ rfl
      simp only [unanswered, goto, control, Control.hand]
  | close wake control room =>
      have left := valid.joined (by rw [control]; rfl)
      have nothing := valid.pool.owes_of_exited left
      refine .leave rfl rfl ?_ ?_ rfl
      · simp only [unanswered, control, Control.hand, nothing, add_zero]
      · simp only [unanswered, goto, Control.hand, nothing, add_zero]
  | cook index pool worked other =>
      refine .internal rfl rfl ?_ stays
      rcases ThreadPool.owes_workerLoop worked with ⟨ticket, baking, _⟩ | ⟨_, owes⟩
      · exact absurd baking (other ticket).2
      · rw [unanswered, unanswered, owes]
  | consume index ticket pool needed position worked listed available =>
      refine .internal rfl rfl ?_ stays
      rcases ThreadPool.owes_workerLoop worked with ⟨_, baking, _⟩ | ⟨_, owes⟩
      · rw [position] at baking
        cases baking
      · rw [unanswered, unanswered, owes]
  | serve index ticket pool position worked room =>
      refine .answer _ rfl rfl rfl ?_ stays
      rcases ThreadPool.owes_workerLoop worked with ⟨other, baking, owes⟩ | ⟨other, _⟩
      · rw [position] at baking
        cases baking
        rw [unanswered, unanswered, owes, add_assoc]
        rfl
      · exact absurd position (other ticket)
  | wakeSpuriously index pool woken =>
      obtain ⟨asleep, rfl⟩ := waiting_of_wakeSpuriously woken
      refine .internal rfl rfl ?_ stays
      rw [unanswered, unanswered, ThreadPool.owes_move _ index .woken (by rw [asleep]; rfl)]
  | regenerate stays => exact .internal rfl rfl rfl stays

end Transitions

/-- The kitchen of the program honours the contract that the reception relies on. -/
def contract (nCooks : Nat) (limit : Option Nat) :
    (KitchenWorker.process nCooks limit).Contract where
  unanswered := unanswered
  Valid := Valid
  valid_initial := valid_new nCooks
  unanswered_initial := by
    simp only [process, unanswered, new, Control.hand, ThreadPool.owes_start, add_zero]
  exited_initial := rfl
  step valid taken :=
    have moved := transition_of_step taken
    ⟨moved.active valid, moved.valid valid, moved.move valid⟩

end KitchenWorker

end Plazza
