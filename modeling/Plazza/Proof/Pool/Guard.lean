import Plazza.Construction.LockedPool
import Plazza.Foundation.Mutex
import Plazza.Proof.Pool.Accounts

namespace Plazza
open Plazza.Foundation

/-- A worker inside is still about to test the queue until it has popped a pizza or gives up. -/
def Position.tested (waited : Bool) : Position := if waited then .woken else .locking

theorem Position.tested_cases (waited : Bool) : tested waited = .locking ∨ tested waited = .woken := by
  cases waited
  · exact .inl rfl
  · exact .inr rfl

/-- The section of a worker takes effect where it sleeps, leaves the loop or pops. -/
def WorkerPosition.point : WorkerPosition → Position
  | locking => .locking
  | woken => .woken
  | testing waited | deciding waited | fetching waited | popping waited _ => .tested waited
  | waiting => .waiting
  | unlocking pizza | popped pizza => .popped pizza
  | preparing pizza => .preparing pizza
  | baking pizza => .baking pizza
  | served pizza => .served pizza
  | cooked pizza => .cooked pizza
  | leaving | exited => .exited

/-- The worker holds the mutex. -/
def WorkerPosition.inside : WorkerPosition → Bool
  | testing _ | deciding _ | fetching _ | popping _ _ | unlocking _ | leaving => true
  | locking | waiting | woken | popped _ | preparing _ | baking _ | served _ | cooked _ | exited =>
      false

namespace CallerPosition

/-- The caller holds the mutex. -/
def inside : CallerPosition → Bool
  | checking _ | pushing _ | counting _ | notifying _ | unlocking _ | clearing | releasing => true
  | outside | adding _ | stopping | broadcasting => false

/-- A pizza counts as queued from the notification on. -/
def queued : CallerPosition → List Ticket → List Ticket
  | .counting _, queue | .notifying _, queue => queue.dropLast
  | _, queue => queue

/-- A pizza counts in the load from the notification on. -/
def counted : CallerPosition → Nat → Nat
  | .notifying _, load => load - 1
  | _, load => load

end CallerPosition

namespace LockedPool

variable {nCooks nCallers : Nat}

def inside (state : LockedPool nCooks nCallers) : PoolThread nCooks nCallers → Bool
  | .worker index => (state.workers index).inside
  | .caller id => (state.callers id).inside

/-- The position of the caller that holds the mutex. -/
def current (state : LockedPool nCooks nCallers) : CallerPosition :=
  match state.holder with
  | some (.caller id) => state.callers id
  | some (.worker _) | none => .outside

/-- The pool while no caller is inside. -/
def settled (state : LockedPool nCooks nCallers) : ThreadPool nCooks where
  cooks := state.cooks
  threads index := (state.workers index).point
  queue := state.queue
  running := state.running
  load := state.load
  accepted := state.accepted
  handed := state.handed
  finished := state.finished

def pool (state : LockedPool nCooks nCallers) : ThreadPool nCooks :=
  { state.settled with
    queue := state.current.queued state.queue
    load := state.current.counted state.load }

/-- A worker under the mutex still knows what it has seen of the queue and the flag. -/
def Sees (state : LockedPool nCooks nCallers) : WorkerPosition → Prop
  | .deciding _ => state.queue = [] → state.running = false
  | .fetching _ => state.queue ≠ []
  | .popping _ pizza => state.queue.head? = some pizza
  | _ => True

/-- A caller under the mutex still has the room it has checked and the pizza it has pushed. -/
def Offers (state : LockedPool nCooks nCallers) : CallerPosition → Prop
  | .pushing _ => state.load < state.getCapacity
  | .counting pizza => state.load < state.getCapacity ∧ state.queue.getLast? = some pizza
  | .notifying pizza =>
      0 < state.load ∧ state.load ≤ state.getCapacity ∧ state.queue.getLast? = some pizza
  | _ => True

def Fits (state : LockedPool nCooks nCallers) : PoolThread nCooks nCallers → Prop
  | .worker index => state.Sees (state.workers index)
  | .caller id => state.Offers (state.callers id)

/-- The holder of the mutex is the only thread inside, and it relies on what it has seen. -/
structure Guarded (state : LockedPool nCooks nCallers) : Prop where
  owned : Owned state.holder state.inside
  fits : ∀ thread, state.Fits thread

/-- A thread outside of the mutex relies on nothing. -/
theorem fits_of_outside {state : LockedPool nCooks nCallers} {thread : PoolThread nCooks nCallers}
    (outside : state.inside thread = false) : state.Fits thread := by
  cases thread with
  | worker index =>
      simp only [inside] at outside
      simp only [Fits]
      cases stands : state.workers index <;> rw [stands] at outside <;>
        first | exact trivial | cases outside
  | caller id =>
      simp only [inside] at outside
      simp only [Fits]
      cases stands : state.callers id <;> rw [stands] at outside <;>
        first | exact trivial | cases outside

/-- A statement of the thread that has the mutex or takes it free. -/
theorem Guarded.within {state next : LockedPool nCooks nCallers} (guarded : state.Guarded)
    {thread : PoolThread nCooks nCallers}
    (has : state.holder = none ∨ state.holder = some thread)
    (others : ∀ other, other ≠ thread → next.inside other = state.inside other)
    (held : next.holder = if next.inside thread then some thread else none)
    (fits : next.Fits thread) : next.Guarded where
  owned := guarded.owned.step has others held
  fits other := by
    by_cases same : other = thread
    · exact same ▸ fits
    · exact fits_of_outside ((others other same).trans (guarded.owned.apart has same))

/-- A statement outside of the mutex. -/
theorem Guarded.beside {state next : LockedPool nCooks nCallers} (guarded : state.Guarded)
    (same : next.holder = state.holder) (inside : ∀ other, next.inside other = state.inside other)
    (fits : ∀ other, state.Fits other → next.Fits other) : next.Guarded where
  owned := by
    rw [same]
    exact guarded.owned.stay inside
  fits other := fits other (guarded.fits other)

/-- A worker takes, keeps or frees the mutex. -/
theorem Guarded.worker {state next : LockedPool nCooks nCallers} (guarded : state.Guarded)
    {index : Fin nCooks} {position : WorkerPosition}
    (has : state.holder = none ∨ state.holder = some (.worker index))
    (workers : next.workers = Function.update state.workers index position)
    (callers : next.callers = state.callers)
    (held : next.holder = if position.inside then some (.worker index) else none)
    (sees : next.Sees position) : next.Guarded := by
  have stands : next.workers index = position := by rw [workers, Function.update_self]
  refine @Guarded.within _ _ _ _ guarded (.worker index) has (fun other different => ?_) ?_ ?_
  · cases other with
    | worker other =>
        have apart : other ≠ index := fun same => different (congrArg _ same)
        simp only [inside, workers, Function.update_of_ne apart]
    | caller id => simp only [inside, callers]
  · simp only [inside, stands, held]
  · simp only [Fits, stands, sees]

/-- A caller takes, keeps or frees the mutex. -/
theorem Guarded.caller {state next : LockedPool nCooks nCallers} (guarded : state.Guarded)
    {id : Fin nCallers} {position : CallerPosition}
    (has : state.holder = none ∨ state.holder = some (.caller id))
    (callers : next.callers = Function.update state.callers id position)
    (workers : ∀ index, (next.workers index).inside = (state.workers index).inside)
    (held : next.holder = if position.inside then some (.caller id) else none)
    (offers : next.Offers position) : next.Guarded := by
  have stands : next.callers id = position := by rw [callers, Function.update_self]
  refine @Guarded.within _ _ _ _ guarded (.caller id) has (fun other different => ?_) ?_ ?_
  · cases other with
    | worker index => simp only [inside, workers]
    | caller other =>
        have apart : other ≠ id := fun same => different (congrArg _ same)
        simp only [inside, callers, Function.update_of_ne apart]
  · simp only [inside, stands, held]
  · simp only [Fits, stands, offers]

/-- A worker outside of the mutex goes on and changes the load at most. -/
theorem Guarded.apart {state next : LockedPool nCooks nCallers} (guarded : state.Guarded)
    {index : Fin nCooks} {position : WorkerPosition}
    (before : (state.workers index).inside = false) (after : position.inside = false)
    (workers : next.workers = Function.update state.workers index position)
    (callers : next.callers = state.callers) (holder : next.holder = state.holder)
    (queue : next.queue = state.queue) (running : next.running = state.running)
    (offers : ∀ id, state.Offers (state.callers id) → next.Offers (state.callers id)) :
    next.Guarded := by
  have same : ∀ other, next.inside other = state.inside other := by
    intro other
    cases other with
    | worker other =>
        by_cases equal : other = index
        · simp only [inside, workers, equal, Function.update_self, before, after]
        · simp only [inside, workers, Function.update_of_ne equal]
    | caller id => simp only [inside, callers]
  refine guarded.beside holder same fun other fitting => ?_
  cases other with
  | worker other =>
      by_cases equal : other = index
      · refine fits_of_outside ((same _).trans ?_)
        rw [equal]
        exact before
      · simp only [Fits, workers, Function.update_of_ne equal] at fitting ⊢
        cases stands : state.workers other <;> rw [stands] at fitting <;>
          simp only [Sees, queue, running] at fitting ⊢ <;> exact fitting
  | caller id =>
      simp only [Fits, callers] at fitting ⊢
      exact offers id fitting

theorem inside_wakeWorkers (workers : Fin nCooks → WorkerPosition) (wake : Fin nCooks → Bool)
    (index : Fin nCooks) : (wakeWorkers workers wake index).inside = (workers index).inside := by
  unfold wakeWorkers
  split
  · rename_i woken
    rw [woken.1]
    rfl
  · rfl

/-- A decrement of a positive load takes no room and leaves the pizza of a caller in the count. -/
theorem Offers.decrement {state next : LockedPool nCooks nCallers} {position : CallerPosition}
    (offers : state.Offers position) (counted : 0 < position.counted state.load)
    (load : next.load = (state.load + (2 ^ 64 - 1)) % 2 ^ 64) (queue : next.queue = state.queue) :
    next.Offers position := by
  have bounded : state.getCapacity < 2 ^ 64 := Nat.mod_lt _ (by decide)
  have same : next.getCapacity = state.getCapacity := rfl
  cases position with
  | pushing pizza =>
      simp only [Offers, CallerPosition.counted, load, same] at offers counted ⊢
      rw [ThreadPool.load_pred counted (by omega)]
      omega
  | counting pizza =>
      simp only [Offers, CallerPosition.counted, load, queue, same] at offers counted ⊢
      rw [ThreadPool.load_pred counted (by omega)]
      exact ⟨by omega, offers.2⟩
  | notifying pizza =>
      simp only [Offers, CallerPosition.counted, load, queue, same] at offers counted ⊢
      rw [ThreadPool.load_pred offers.1 (by omega)]
      exact ⟨by omega, by omega, offers.2.2⟩
  | outside | adding | checking | unlocking | stopping | clearing | releasing | broadcasting =>
      trivial

/-- The thread inside is the current one. -/
theorem Guarded.current_of_inside {state : LockedPool nCooks nCallers} (guarded : state.Guarded)
    {id : Fin nCallers} (entered : (state.callers id).inside = true) :
    state.current = state.callers id := by
  have holds := (guarded.owned (.caller id)).mp entered
  simp only [current, holds]

/-- A pizza that a worker holds is in the load that the callers see. -/
theorem counted_pos {state : LockedPool nCooks nCallers} (accounted : state.pool.Accounted)
    {index : Fin nCooks} {pizza : Ticket} (held : (state.workers index).point.held = some pizza) :
    0 < state.current.counted state.load :=
  accounted.load_pos held

/-- A decrement leaves each caller what it relies on. -/
theorem Guarded.offers_decrement {state next : LockedPool nCooks nCallers} (guarded : state.Guarded)
    (counted : 0 < state.current.counted state.load)
    (load : next.load = (state.load + (2 ^ 64 - 1)) % 2 ^ 64) (queue : next.queue = state.queue)
    (id : Fin nCallers) (offers : state.Offers (state.callers id)) :
    next.Offers (state.callers id) := by
  cases entered : (state.callers id).inside with
  | true => exact offers.decrement (guarded.current_of_inside entered ▸ counted) load queue
  | false =>
      cases stands : state.callers id <;> rw [stands] at entered <;>
        first | exact trivial | cases entered

/-- Each statement of a worker keeps the mutex and what the threads rely on. -/
theorem Guarded.workerLoop {state next : LockedPool nCooks nCallers} (guarded : state.Guarded)
    (accounted : state.pool.Accounted) {index : Fin nCooks}
    (worked : state.workerLoop index = some next) : next.Guarded := by
  have sees := guarded.fits (.worker index)
  have holder := guarded.owned (.worker index)
  have outside := @Guarded.apart _ _ state next guarded index
  have counted := @counted_pos _ _ state accounted index
  simp only [Fits] at sees
  simp only [inside] at holder
  unfold LockedPool.workerLoop at worked
  split at worked <;> rename_i stands <;> rw [stands] at sees holder outside counted
  case h_1 | h_2 =>
    split at worked <;> cases worked
    exact guarded.worker (.inl ‹_›) rfl rfl rfl trivial
  case h_3 =>
    split at worked <;> cases worked
    · exact guarded.worker (.inr (holder.mp rfl)) rfl rfl rfl trivial
    · rename_i leaves
      refine guarded.worker (.inr (holder.mp rfl)) rfl rfl (holder.mp rfl) fun empty => ?_
      exact Bool.eq_false_of_not_eq_true fun runs => leaves ⟨empty, runs⟩
  case h_4 =>
    split at worked <;> cases worked
    · exact guarded.worker (.inr (holder.mp rfl)) rfl rfl (holder.mp rfl) trivial
    · rename_i stays
      refine guarded.worker (.inr (holder.mp rfl)) rfl rfl (holder.mp rfl) fun empty => ?_
      exact stays ⟨sees empty, empty⟩
  case h_5 =>
    split at worked <;> cases worked
    rename_i front
    exact guarded.worker (.inr (holder.mp rfl)) rfl rfl (holder.mp rfl) (congrArg List.head? front)
  case h_6 =>
    cases worked
    exact guarded.worker (.inr (holder.mp rfl)) rfl rfl (holder.mp rfl) trivial
  case h_7 | h_8 =>
    cases worked
    exact guarded.worker (.inr (holder.mp rfl)) rfl rfl rfl trivial
  case h_9 | h_10 | h_11 | h_12 =>
    cases worked
    exact outside rfl rfl rfl rfl rfl rfl rfl fun _ offers => offers
  case h_13 pizza =>
    cases worked
    exact outside rfl rfl rfl rfl rfl rfl rfl (guarded.offers_decrement (counted rfl) rfl rfl)
  all_goals cases worked

/-- Each statement of `addPizza` keeps the mutex and what the threads rely on. -/
theorem Guarded.addPizza {state next : LockedPool nCooks nCallers} (guarded : state.Guarded)
    {id : Fin nCallers} {wake : Fin nCooks → Bool} (called : state.addPizza id wake = some next) :
    next.Guarded := by
  have offers := guarded.fits (.caller id)
  have holder := guarded.owned (.caller id)
  have bounded : state.getCapacity < 2 ^ 64 := Nat.mod_lt _ (by decide)
  simp only [Fits] at offers
  simp only [inside] at holder
  unfold LockedPool.addPizza at called
  split at called <;> rename_i stands <;> rw [stands] at offers holder
  case h_1 =>
    split at called <;> cases called
    exact guarded.caller (.inl ‹_›) rfl (fun _ => rfl) rfl trivial
  case h_2 =>
    have holds := holder.mp rfl
    split at called <;> cases called
    · exact guarded.caller (.inr holds) rfl (fun _ => rfl) holds trivial
    · rename_i room
      have below : state.load < state.getCapacity := by simpa [isFull] using room
      exact guarded.caller (.inr holds) rfl (fun _ => rfl) holds below
  case h_3 =>
    have holds := holder.mp rfl
    cases called
    exact guarded.caller (.inr holds) rfl (fun _ => rfl) holds ⟨offers, List.getLast?_concat⟩
  case h_4 =>
    have holds := holder.mp rfl
    have room : state.load < state.getCapacity := offers.1
    have load : (state.load + 1) % 2 ^ 64 = state.load + 1 := Nat.mod_eq_of_lt (by omega)
    cases called
    refine guarded.caller (.inr holds) rfl (fun _ => rfl) holds ⟨?_, ?_, offers.2⟩
    · simp only [load]
      omega
    · simp only [load]
      exact room
  case h_5 =>
    have holds := holder.mp rfl
    split at called <;> cases called
    exact guarded.caller (.inr holds) rfl (inside_wakeWorkers _ _) holds trivial
  case h_6 =>
    cases called
    exact guarded.caller (.inr (holder.mp rfl)) rfl (fun _ => rfl) rfl trivial
  all_goals cases called

/-- A caller outside of the mutex goes on and wakes workers at most. -/
theorem Guarded.goes {state next : LockedPool nCooks nCallers} (guarded : state.Guarded)
    {id : Fin nCallers} {position : CallerPosition}
    (before : (state.callers id).inside = false) (after : position.inside = false)
    (callers : next.callers = Function.update state.callers id position)
    (workers : ∀ index, (next.workers index).inside = (state.workers index).inside)
    (sees : ∀ index, state.Sees (state.workers index) → next.Sees (next.workers index))
    (holder : next.holder = state.holder) (queue : next.queue = state.queue)
    (load : next.load = state.load) : next.Guarded := by
  have same : ∀ other, next.inside other = state.inside other := by
    intro other
    cases other with
    | worker index => exact workers index
    | caller other =>
        by_cases equal : other = id
        · simp only [inside, callers, equal, Function.update_self, before, after]
        · simp only [inside, callers, Function.update_of_ne equal]
  refine guarded.beside holder same fun other fitting => ?_
  cases other with
  | worker index => exact sees index fitting
  | caller other =>
      by_cases equal : other = id
      · refine fits_of_outside ((same _).trans ?_)
        rw [equal]
        exact before
      · have capacity : next.getCapacity = state.getCapacity := rfl
        simp only [Fits, callers, Function.update_of_ne equal] at fitting ⊢
        cases stands : state.callers other <;> rw [stands] at fitting <;>
          simp only [Offers, queue, load, capacity] at fitting ⊢ <;> exact fitting

/-- A woken worker relies on nothing. -/
theorem sees_wakeWorkers {state next : LockedPool nCooks nCallers} {wake : Fin nCooks → Bool}
    (workers : next.workers = wakeWorkers state.workers wake) (queue : next.queue = state.queue)
    (running : next.running = state.running) (index : Fin nCooks)
    (sees : state.Sees (state.workers index)) : next.Sees (next.workers index) := by
  rw [workers]
  unfold wakeWorkers
  split
  · trivial
  · cases stands : state.workers index <;> rw [stands] at sees <;>
      simp only [Sees, queue, running] at sees ⊢ <;> exact sees

/-- Each statement of `stop` keeps the mutex and what the threads rely on. -/
theorem Guarded.stop {state next : LockedPool nCooks nCallers} (guarded : state.Guarded)
    {id : Fin nCallers} (called : state.stop id = some next) : next.Guarded := by
  have holder := guarded.owned (.caller id)
  have outside := @Guarded.goes _ _ state next guarded id
  simp only [inside] at holder
  unfold LockedPool.stop at called
  split at called <;> rename_i stands <;> rw [stands] at holder outside
  case h_1 =>
    split at called <;> cases called
    exact guarded.caller (.inl ‹_›) rfl (fun _ => rfl) rfl trivial
  case h_2 =>
    have holds := holder.mp rfl
    cases called
    exact guarded.caller (.inr holds) rfl (fun _ => rfl) holds trivial
  case h_3 =>
    cases called
    exact guarded.caller (.inr (holder.mp rfl)) rfl (fun _ => rfl) rfl trivial
  case h_4 =>
    cases called
    exact outside rfl rfl rfl (inside_wakeWorkers _ _) (sees_wakeWorkers rfl rfl rfl) rfl rfl rfl
  all_goals cases called

theorem Guarded.giveUp {state next : LockedPool nCooks nCallers} (guarded : state.Guarded)
    {index : Fin nCooks} (gave : state.giveUp index = some next) : next.Guarded := by
  unfold LockedPool.giveUp at gave
  split at gave <;> cases gave
  rename_i stands
  have outside : (state.workers index).inside = false := by rw [stands]; rfl
  exact guarded.apart outside rfl rfl rfl rfl rfl rfl fun _ offers => offers

theorem Guarded.step {state next : LockedPool nCooks nCallers} (guarded : state.Guarded)
    (accounted : state.pool.Accounted) {label : LockedPoolLabel nCooks nCallers}
    (taken : state.step label = some next) : next.Guarded := by
  cases label with
  | callAddPizza id pizza | callStop id =>
      simp only [LockedPool.step] at taken
      split at taken <;> cases taken
      rename_i stands
      have outside : (state.callers id).inside = false := by rw [stands]; rfl
      exact guarded.goes outside rfl rfl (fun _ => rfl) (fun _ sees => sees) rfl rfl rfl
  | addPizza id wake => exact guarded.addPizza taken
  | stop id => exact guarded.stop taken
  | worker index => exact guarded.workerLoop accounted taken
  | giveUp index => exact guarded.giveUp taken
  | wakeSpuriously index =>
      simp only [LockedPool.step] at taken
      split at taken <;> cases taken
      rename_i stands
      have outside : (state.workers index).inside = false := by rw [stands]; rfl
      exact guarded.apart outside rfl rfl rfl rfl rfl rfl fun _ offers => offers

end LockedPool

end Plazza
