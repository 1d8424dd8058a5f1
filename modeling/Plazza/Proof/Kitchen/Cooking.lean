import Plazza.Proof.Kitchen.Alone

namespace Plazza
open Plazza.Foundation

/-- The cook shows a pizza while its worker stands inside of `cookPizza`. -/
def Position.shows : Position → Bool
  | preparing _ | baking _ | served _ => true
  | _ => false

/-- A shown pizza is held. -/
theorem Position.holding_of_shows {position : Position} (shows : position.shows = true) :
    position.holding = 1 := by
  cases position with
  | preparing | baking | served => rfl
  | locking | waiting | woken | popped | cooked | exited => cases shows

namespace ThreadPool

variable {nCooks : Nat}

/-- The pizzas in the queue and those of the workers from a position on. -/
def ahead (pool : ThreadPool nCooks) (first : Nat) : Nat :=
  pool.queue.length + ∑ index with first ≤ index.val, (pool.threads index).holding

/-- Before the first worker all pizzas of the pool are ahead. -/
theorem Invariant.ahead_zero {pool : ThreadPool nCooks} (inv : pool.Invariant) :
    pool.ahead 0 = pool.load := by
  simp only [ahead, Nat.zero_le, Finset.filter_true, inv.load_eq]

/-- The pizza of a worker is no longer ahead once the worker is passed. -/
theorem ahead_succ (pool : ThreadPool nCooks) (index : Fin nCooks) :
    pool.ahead index.val = pool.ahead (index.val + 1) + (pool.threads index).holding := by
  have split : ({other | index.val ≤ other.val} : Finset (Fin nCooks)) =
      insert index ({other | index.val + 1 ≤ other.val} : Finset (Fin nCooks)) := by
    ext other
    simp only [Finset.mem_insert, Finset.mem_filter_univ, Fin.ext_iff]
    omega
  rw [ahead, ahead, split, Finset.sum_insert (by simp)]
  omega

/-- A worker that takes no more than it gives leaves no more pizzas ahead. -/
theorem ahead_update {pool next : ThreadPool nCooks} {index : Fin nCooks} (position : Position)
    (threads : next.threads = Function.update pool.threads index position)
    (queue : next.queue.length ≤ pool.queue.length)
    (gives : next.queue.length + position.holding ≤
      pool.queue.length + (pool.threads index).holding) (first : Nat) :
    next.ahead first ≤ pool.ahead first := by
  rw [ahead, ahead, threads]
  by_cases counted : first ≤ index.val
  · have member : index ∈ ({other | first ≤ other.val} : Finset (Fin nCooks)) := by
      simpa using counted
    have exchanged := sum_update_on Position.holding pool.threads member position
    omega
  · have same : ∑ other with first ≤ other.val,
        (Function.update pool.threads index position other).holding =
          ∑ other with first ≤ other.val, (pool.threads other).holding := by
      refine Finset.sum_congr rfl fun other member => ?_
      rw [Function.update_of_ne]
      rintro rfl
      exact counted (by simpa using member)
    omega

/-- A worker that moves without another pizza leaves no more pizzas ahead. -/
theorem ahead_move (pool : ThreadPool nCooks) (index : Fin nCooks) {position : Position}
    (gives : position.holding ≤ (pool.threads index).holding) (first : Nat) :
    (pool.move index position).ahead first ≤ pool.ahead first := by
  have queue : (pool.move index position).queue = pool.queue := rfl
  exact ahead_update position rfl (by rw [queue]) (by rw [queue]; omega) first

/-- No step of a worker puts a pizza ahead. -/
theorem ahead_workerLoop {pool next : ThreadPool nCooks} {index : Fin nCooks}
    (worked : pool.workerLoop index = some next) (first : Nat) :
    next.ahead first ≤ pool.ahead first := by
  cases step_of_workerLoop worked with
  | sleep | leave => exact ahead_move pool index (Nat.zero_le _) first
  | pop pizza rest tests front =>
      have one : (Position.popped pizza).holding = 1 := rfl
      have fewer : pool.queue.length = rest.length + 1 := by rw [front, List.length_cons]
      refine ahead_update (.popped pizza) rfl ?_ ?_ first
      · simp only
        omega
      · simp only
        omega
  | prepare pizza stands | bake pizza stands | serve pizza stands | release pizza stands =>
      exact ahead_move pool index (by rw [stands]; exact le_rfl) first
  | finish pizza stands =>
      have same : (pool.finishPizza index pizza).ahead first =
          (pool.move index .locking).ahead first := by
        simp only [ahead, finishPizza, move]
      rw [same]
      exact ahead_move pool index (Nat.zero_le _) first

/-- A cook cooks exactly while its worker shows a pizza. -/
def Showing (pool : ThreadPool nCooks) : Prop :=
  ∀ index, (pool.cooks index).state = .cooking ↔ (pool.threads index).shows = true

/-- A step of one worker keeps the cooks in agreement when this worker does. -/
theorem Showing.update {pool next : ThreadPool nCooks} {index : Fin nCooks} {position : Position}
    (showing : pool.Showing) (threads : next.threads = Function.update pool.threads index position)
    (others : ∀ other, other ≠ index → next.cooks other = pool.cooks other)
    (here : (next.cooks index).state = .cooking ↔ position.shows = true) : next.Showing := by
  intro other
  rw [threads]
  by_cases same : other = index
  · subst same
    rw [Function.update_self]
    exact here
  · rw [Function.update_of_ne same, others other same]
    exact showing other

/-- Each step of a worker keeps the cooks in agreement. -/
theorem Showing.workerLoop {pool next : ThreadPool nCooks} {index : Fin nCooks}
    (showing : pool.Showing) (worked : pool.workerLoop index = some next) : next.Showing := by
  have here := showing index
  cases step_of_workerLoop worked with
  | sleep tests | leave tests | pop _ _ tests =>
      rw [view_of_tests Position.shows rfl tests] at here
      exact showing.update rfl (fun _ _ => rfl) here
  | prepare | release =>
      refine showing.update rfl (fun other apart => Function.update_of_ne apart _ _) ?_
      simp [setCook, move, Cook.start, Cook.finish, Position.shows]
  | bake pizza stands | serve pizza stands | finish pizza stands =>
      rw [stands] at here
      exact showing.update rfl (fun _ _ => rfl) here

/-- A notification changes no worker that shows a pizza. -/
theorem Showing.woken {pool : ThreadPool nCooks} (showing : pool.Showing)
    (wake : Fin nCooks → Bool) :
    ({ pool with threads := wakeThreads pool.threads wake } : ThreadPool nCooks).Showing := by
  intro index
  rw [view_wakeThreads Position.shows rfl]
  exact showing index

end ThreadPool

/-- The load and the statuses that a status response has read. -/
def Control.reported : Control → Option (Nat × List CookStatus)
  | readingCooks load _ statuses => some (load, statuses)
  | _ => none

/-- A status response is being read. -/
def Control.reads : Control → Bool
  | readingStock _ | readingCooks _ _ _ => true
  | _ => false

namespace KitchenWorker

variable {nCooks : Nat} {limit : Option Nat} {now : Nat}

/-- The cooks seen cooking and the pizzas that are still ahead were in the pool when the load was
read. -/
structure Reports (worker : KitchenWorker nCooks) : Prop where
  showing : worker.pool.Showing
  begun : ∀ load, worker.control = .readingStock load → worker.pool.ahead 0 ≤ load
  seen : ∀ load stock statuses, worker.control = .readingCooks load stock statuses →
    statuses.countP (·.state = .cooking) + worker.pool.ahead statuses.length ≤ load

/-- A step beside the main thread keeps the count when it puts no pizza ahead. -/
theorem Reports.work {worker next : KitchenWorker nCooks} (reports : worker.Reports)
    (control : next.control = worker.control) (showing : next.pool.Showing)
    (ahead : ∀ first, next.pool.ahead first ≤ worker.pool.ahead first) : next.Reports where
  showing := showing
  begun load reading := (ahead 0).trans (reports.begun load (control ▸ reading))
  seen load stock statuses reading :=
    (Nat.add_le_add_left (ahead _) _).trans (reports.seen load stock statuses (control ▸ reading))

/-- Nothing is counted without a status response. -/
theorem Reports.of_apart {worker : KitchenWorker nCooks} (showing : worker.pool.Showing)
    (apart : worker.control.reads = false) : worker.Reports where
  showing := showing
  begun load reading := by
    rw [reading] at apart
    cases apart
  seen load stock statuses reading := by
    rw [reading] at apart
    cases apart

/-- Every advance of the main thread keeps the count. -/
theorem Reports.advance {worker next : KitchenWorker nCooks} (reports : worker.Reports)
    (moves : Advance now worker next) : next.Reports := by
  have showing : next.pool.Showing := moves.points.1 ▸ reports.showing
  cases moves with
  | readStock load control =>
      refine ⟨showing, fun _ reading => ?_, fun read stock statuses reading => ?_⟩
      · cases reading
      · cases reading
        exact (Nat.zero_add _).trans_le (reports.begun load control)
  | readCook load stock statuses control more =>
      refine ⟨showing, fun _ other => absurd other (by simp [goto]), fun _ _ _ reading => ?_⟩
      cases reading
      have before := reports.seen load stock statuses control
      have passed : worker.pool.ahead statuses.length = worker.pool.ahead (statuses.length + 1) +
          (worker.pool.threads ⟨statuses.length, more⟩).holding :=
        worker.pool.ahead_succ ⟨statuses.length, more⟩
      rw [List.countP_append, List.countP_singleton, List.length_append, List.length_singleton]
      simp only [goto]
      split
      · rename_i cooking
        have shown := Position.holding_of_shows ((reports.showing _).mp (of_decide_eq_true cooking))
        omega
      · omega
  | wake running => cases running <;> exact .of_apart showing rfl
  | start | accepted | build | responded | sample | timeOut | idle | busy =>
      exact .of_apart showing rfl

/-- Every step of a kitchen process keeps the count. -/
theorem Reports.step {site next : Site (KitchenWorker nCooks)} {label : Label nCooks}
    (reports : site.process.Reports) (valid : site.process.Valid)
    (moved : Transition limit now site label next) : next.process.Reports := by
  cases moved with
  | advance wake process moves => exact reports.advance moves
  | request wake packet control type =>
      refine ⟨reports.showing, fun load reading => ?_, fun _ _ _ reading => ?_⟩
      · cases reading
        exact valid.pool.ahead_zero.le
      · cases reading
  | accept wake packet ticket pool control pizza same notifies added =>
      refine .of_apart ?_ rfl
      unfold ThreadPool.addPizza at added
      split at added <;> cases added
      exact reports.showing.woken wake
  | notify wake control => exact .of_apart (reports.showing.woken _) rfl
  | pollEmpty | pollShutdown | poll | refuse | ignore | sendFull | respond | stop | join | close =>
      exact .of_apart reports.showing rfl
  | cook index pool worked | consume index _ pool _ _ worked | serve index _ pool _ worked =>
      exact reports.work rfl (reports.showing.workerLoop worked)
        (ThreadPool.ahead_workerLoop worked)
  | wakeSpuriously index pool woken =>
      obtain ⟨sleeps, rfl⟩ := waiting_of_wakeSpuriously woken
      refine reports.work rfl ?_ (site.process.pool.ahead_move index (by rw [sleeps]; exact le_rfl))
      have here := reports.showing index
      rw [sleeps] at here
      exact reports.showing.update rfl (fun _ _ => rfl) here
  | regenerate => exact reports.work rfl reports.showing fun _ => le_rfl

end KitchenWorker

namespace Kitchen

variable {nCooks : Nat} {limit : Option Nat}

/-- Every run keeps the count. -/
theorem reports_of_reachable {kitchen : Kitchen nCooks}
    (reached : (machine nCooks limit).Reachable kitchen) : kitchen.site.process.Reports := by
  refine reached.invariant (motive := fun kitchen => kitchen.site.process.Reports) ?_ ?_
  · refine .of_apart (fun index => ?_) rfl
    constructor
    · intro cooking
      cases cooking
    · intro shows
      cases shows
  · intro kitchen next label before reports _ taken
    rcases step_cases taken with ⟨moved, site, _, rfl, stepped⟩ | ⟨_, same, _⟩
    · exact reports.step (valid_of_reachable before) stepped
    · exact same ▸ reports

/-- A status response shows at most as many cooking cooks as the load that it has read. -/
theorem cooking_le_load {kitchen : Kitchen nCooks}
    (reached : (machine nCooks limit).Reachable kitchen) {load : Nat} {statuses : List CookStatus}
    (reading : kitchen.site.process.control.reported = some (load, statuses)) :
    statuses.countP (·.state = .cooking) ≤ load := by
  have reports := reports_of_reachable reached
  unfold Control.reported at reading
  split at reading <;> cases reading
  rename_i stock control
  exact (Nat.le_add_right _ _).trans (reports.seen load stock statuses control)

/-- A kitchen starts to cook one of two pizzas and then reads its cooks. -/
def reportingRun : List (KitchenLabel 1) :=
  .deliver { type := .pizza, pizza := pack ⟨.margarita, .s⟩ } ::
    .deliver { type := .pizza, pizza := pack ⟨.regina, .xl⟩ } ::
      .deliver { type := .statusRequest } ::
        List.replicate 6 (.process (.main fun _ => false)) ++ .elapse kPollInterval ::
          List.replicate 6 (.process (.main fun _ => false)) ++ .elapse kPollInterval ::
            List.replicate 2 (.process (.cook (Fin.last 0))) ++
              List.replicate 5 (.process (.main fun _ => false))

/-- The report shows one cooking cook for two pizzas. -/
theorem cooking_le_load_of_reportingRun :
    ∃ (kitchen : Kitchen 1) (statuses : List CookStatus),
      kitchen.site.process.control.reported = some (2, statuses) ∧ statuses.length = 1 ∧
        statuses.countP (·.state = .cooking) ≤ 2 := by
  obtain ⟨kitchen, reached, checked⟩ := (machine 1 none).exists_reachable reportingRun
    (fun kitchen => kitchen.site.process.control.reported.any fun read =>
      read.1 = 2 ∧ read.2.length = 1) (by decide)
  obtain ⟨⟨load, statuses⟩, reading, both⟩ := (Option.any_eq_true _ _).mp checked
  obtain ⟨rfl, one⟩ := of_decide_eq_true both
  exact ⟨kitchen, statuses, reading, one, cooking_le_load reached reading⟩

end Kitchen

end Plazza
