import Plazza.Construction.Demolition
import Plazza.Proof.Kitchen.Departure
import Plazza.Proof.Kitchen.Idling
import Plazza.Proof.Pool.Joining

namespace Plazza.Demolition
open Plazza.Foundation

variable {nCooks : Nat} {limit : Option Nat}

/-- The kitchen moves, a lock of the destroyed mutex fails, or the reset goes on. -/
inductive Transition (limit : Option Nat) (state : Demolition nCooks) :
    KitchenLabel nCooks → Demolition nCooks → Prop
  | work (label : KitchenLabel nCooks) (kitchen : Kitchen nCooks)
      (apart : ∀ wake, label = .process (.main wake) →
        state.kitchen.site.process.control ≠ .joining)
      (locks : ∀ index, label = .process (.cook index) →
        ¬state.pool.LockFails state.remaining index)
      (moved : state.kitchen.step limit label = some kitchen) :
      Transition limit state label { state with kitchen }
  | fail (index : Fin nCooks) (fails : state.pool.LockFails state.remaining index) :
      Transition limit state (.process (.cook index)) { state with aborted := true }
  | destroy (wake : Fin nCooks → Bool) (remaining : List Member)
      (control : state.kitchen.site.process.control = .joining)
      (destroyed : state.pool.destroyMember state.remaining = some remaining) :
      Transition limit state (.process (.main wake)) { state with remaining }
  | close (wake : Fin nCooks → Bool) (control : state.kitchen.site.process.control = .joining)
      (ended : state.remaining = []) :
      Transition limit state (.process (.main wake))
        { state with kitchen := { state.kitchen with
            site := { state.kitchen.site with
              process := state.kitchen.site.process.goto .closing } } }

/-- Every proof about a step is by cases on these transitions. -/
theorem transition_of_step {state next : Demolition nCooks} {label : KitchenLabel nCooks}
    (taken : state.step limit label = some next) : state.Transition limit label next := by
  cases label with
  | process moved =>
      unfold step at taken
      have runs : ¬state.aborted = true := fun aborted => by simp [aborted] at taken
      cases moved with
      | main wake =>
          by_cases control : state.kitchen.site.process.control = .joining
          · simp only [if_neg runs, control] at taken
            unfold resetPool at taken
            split at taken
            · rename_i ended
              cases taken
              exact .close wake control ended
            · obtain ⟨remaining, destroyed, rfl⟩ := Option.map_eq_some_iff.mp taken
              exact .destroy wake remaining control destroyed
          · simp only [if_neg runs, work] at taken
            obtain ⟨kitchen, moved, rfl⟩ := Option.map_eq_some_iff.mp taken
            exact .work _ kitchen (fun _ _ => control) (fun _ same => by cases same) moved
      | cook index =>
          simp only [if_neg runs] at taken
          split at taken
          · cases taken
            exact .fail index ‹_›
          · rename_i locks
            obtain ⟨kitchen, moved, rfl⟩ := Option.map_eq_some_iff.mp taken
            refine .work _ kitchen (fun _ same => by cases same) (fun other same => ?_) moved
            cases same
            exact locks
      | wakeSpuriously | regenerate =>
          simp only [if_neg runs] at taken
          obtain ⟨kitchen, moved, rfl⟩ := Option.map_eq_some_iff.mp taken
          exact .work _ kitchen (fun _ same => by cases same) (fun _ same => by cases same) moved
  | deliver | collect | elapse =>
      unfold step work at taken
      obtain ⟨kitchen, moved, rfl⟩ := Option.map_eq_some_iff.mp taken
      exact .work _ kitchen (fun _ same => by cases same) (fun _ same => by cases same) moved

/-- A process that is not aborted takes each of these transitions. -/
theorem step_of_transition {state next : Demolition nCooks} {label : KitchenLabel nCooks}
    (runs : state.aborted = false) (moved : state.Transition limit label next) :
    state.step limit label = some next := by
  cases moved with
  | work label kitchen apart locks moved =>
      cases label with
      | process moves =>
          cases moves with
          | main wake => simp [step, runs, apart wake rfl, work, moved]
          | cook index => simp [step, runs, locks index rfl, work, moved]
          | wakeSpuriously | regenerate => simp [step, runs, work, moved]
      | deliver | collect | elapse => simp [step, work, moved]
  | fail index fails => simp [step, runs, fails]
  | destroy wake remaining control destroyed =>
      obtain ⟨first, living, _⟩ := ThreadPool.destroyMember_eq_some destroyed
      rw [living, pool] at destroyed
      simp [step, runs, control, resetPool, pool, living, destroyed]
  | close wake control ended => simp [step, runs, control, resetPool, ended]

/-- The threads of an aborted process take no step. -/
theorem running_of_step {state next : Demolition nCooks} {moved : KitchenWorker.Label nCooks}
    (taken : state.step limit (.process moved) = some next) : state.aborted = false := by
  refine Bool.eq_false_of_not_eq_true fun aborted => ?_
  simp [step, aborted] at taken

/-- The pool of the process with the members that still live. -/
def teardown (state : Demolition nCooks) : Teardown nCooks :=
  ⟨state.kitchen.client, state.remaining, state.aborted⟩

/-- The step of the teardown that a step of the process makes. -/
def event (state : Demolition nCooks) (label : KitchenLabel nCooks) : Option (TeardownLabel nCooks) :=
  match label, state.kitchen.site.process.control with
  | .process (.main _), .joining => if state.remaining = [] then none else some .destroy
  | _, _ => (state.kitchen.observe label).map .pool

/-- Outside of the reset the teardown moves as the pool of the kitchen does. -/
theorem event_of_apart {state : Demolition nCooks} {label : KitchenLabel nCooks}
    (apart : ∀ wake, label = .process (.main wake) →
      state.kitchen.site.process.control ≠ .joining) :
    state.event label = (state.kitchen.observe label).map .pool := by
  unfold event
  split
  · exact absurd ‹_› (apart _ rfl)
  · rfl

/-- The reset of a pool in its kitchen is a teardown of the pool. -/
theorem refines_teardown (nCooks : Nat) (limit : Option Nat) :
    Machine.Refinement (machine nCooks limit) (Teardown.machine nCooks) teardown event := by
  refine .of_follows rfl fun {state next label} _ taken => ?_
  have taken : state.step limit label = some next := taken
  cases transition_of_step taken with
  | work label kitchen apart locks moved =>
      have follows := Kitchen.follows_step moved
      rw [event_of_apart apart]
      cases observed : state.kitchen.observe label with
      | none =>
          rw [observed] at follows
          exact congrArg (Teardown.mk · state.remaining state.aborted) follows
      | some call =>
          rw [observed] at follows
          obtain ⟨moves, rfl⟩ := Kitchen.process_of_observe observed
          refine Teardown.step_pool (running_of_step taken) (fun index worker => ?_) follows
          rw [worker] at observed
          exact locks index (Kitchen.observe_worker observed)
  | fail index fails => exact Teardown.step_fail (running_of_step taken) fails
  | destroy wake remaining control destroyed =>
      obtain ⟨first, living, _⟩ := ThreadPool.destroyMember_eq_some destroyed
      have made : state.event (.process (.main wake)) = some .destroy := by
        simp [event, control, living]
      rw [made]
      have stopped : state.teardown.client.phase = .stopped := congrArg Control.phase control
      exact Teardown.step_destroy (running_of_step taken) stopped destroyed
  | close wake control ended =>
      simp [Machine.Follows, event, control, ended, teardown, Kitchen.client, Control.phase,
        KitchenWorker.goto]

/-- The teardown in a kitchen is reachable. -/
theorem teardown_of_reachable {state : Demolition nCooks}
    (reached : (machine nCooks limit).Reachable state) :
    (Teardown.machine nCooks).Reachable state.teardown :=
  (refines_teardown nCooks limit).reachable (fun _ _ => trivial) reached

/-- The kitchen takes the steps that neither fail nor destroy. -/
def observe (state : Demolition nCooks) (label : KitchenLabel nCooks) :
    Option (KitchenLabel nCooks) :=
  match label with
  | .process (.main _) =>
      match state.kitchen.site.process.control with
      | .joining => if state.remaining = [] then some label else none
      | _ => some label
  | .process (.cook index) =>
      if state.pool.LockFails state.remaining index then none else some label
  | _ => some label

theorem observe_work {state : Demolition nCooks} {label : KitchenLabel nCooks}
    (apart : ∀ wake, label = .process (.main wake) →
      state.kitchen.site.process.control ≠ .joining)
    (locks : ∀ index, label = .process (.cook index) →
      ¬state.pool.LockFails state.remaining index) : state.observe label = some label := by
  unfold observe
  split
  · rename_i wake
    split
    · exact absurd ‹_› (apart wake rfl)
    · rfl
  · rename_i index
    exact if_neg (locks index rfl)
  · rfl

theorem observe_destroy {state : Demolition nCooks} {wake : Fin nCooks → Bool}
    {remaining : List Member} (control : state.kitchen.site.process.control = .joining)
    (destroyed : state.pool.destroyMember state.remaining = some remaining) :
    state.observe (.process (.main wake)) = none := by
  obtain ⟨first, living, _⟩ := ThreadPool.destroyMember_eq_some destroyed
  simp [observe, control, living]

theorem observe_close {state : Demolition nCooks} {wake : Fin nCooks → Bool}
    (control : state.kitchen.site.process.control = .joining) (ended : state.remaining = []) :
    state.observe (.process (.main wake)) = some (.process (.main wake)) := by
  simp [observe, control, ended]

/-- The main thread closes when every cook has left. -/
theorem close_step {kitchen : Kitchen nCooks} (wake : Fin nCooks → Bool)
    (control : kitchen.site.process.control = .joining)
    (left : ∀ index, kitchen.site.process.pool.threads index = .exited) :
    (Kitchen.machine nCooks limit).step kitchen (.process (.main wake)) = some { kitchen with
      site := { kitchen.site with process := kitchen.site.process.goto .closing } } := by
  simp only [Kitchen.machine, Kitchen.step, KitchenWorker.step, KitchenWorker.run, control,
    KitchenWorker.resetPool, if_pos left, Option.map_some]

/-- The main thread closes only when every cook has left. -/
theorem left_of_close {kitchen next : Kitchen nCooks} {wake : Fin nCooks → Bool}
    (control : kitchen.site.process.control = .joining)
    (taken : kitchen.step limit (.process (.main wake)) = some next) :
    (∀ index, kitchen.site.process.pool.threads index = .exited) ∧
      next = { kitchen with
        site := { kitchen.site with process := kitchen.site.process.goto .closing } } := by
  obtain ⟨site, joined, rfl⟩ := Option.map_eq_some_iff.mp taken
  simp only [KitchenWorker.step, KitchenWorker.run, control, KitchenWorker.resetPool] at joined
  obtain ⟨process, reset, rfl⟩ := Option.map_eq_some_iff.mp joined
  split at reset
  · cases reset
    exact ⟨‹_›, rfl⟩
  · cases reset

/-- A kitchen with any reset runs a kitchen that begins its reset when every cook has left. -/
theorem refines_kitchen (nCooks : Nat) (limit : Option Nat) :
    Machine.Refinement (machine nCooks limit) (Kitchen.machine nCooks limit) Demolition.kitchen
      observe := by
  refine .of_follows rfl fun {state next label} reached taken => ?_
  cases transition_of_step taken with
  | work label kitchen apart locks moved =>
      rw [observe_work apart locks]
      exact moved
  | fail index fails =>
      simp only [observe, if_pos fails]
      rfl
  | destroy wake remaining control destroyed =>
      rw [observe_destroy control destroyed]
      rfl
  | close wake control ended =>
      rw [observe_close control ended]
      have left := Teardown.joined_of_reachable (teardown_of_reachable reached)
        (by rw [teardown, ended]; exact List.not_mem_nil)
      exact close_step wake control left

/-- The kitchen in a reset is reachable. -/
theorem kitchen_of_reachable {state : Demolition nCooks}
    (reached : (machine nCooks limit).Reachable state) :
    (Kitchen.machine nCooks limit).Reachable state.kitchen :=
  (refines_kitchen nCooks limit).reachable (fun _ _ => trivial) reached

/-- A pool whose members are destroyed is stopped. -/
theorem stopped_of_begun {state : Demolition nCooks}
    (reached : (machine nCooks limit).Reachable state)
    (begun : state.remaining ≠ Member.destructionOrder) :
    state.kitchen.site.process.control.phase = .stopped := by
  by_contra serves
  exact begun (Teardown.whole_of_reachable (teardown_of_reachable reached) serves).1

/-- Only the end of the reset lets the process close. -/
theorem joined_step {kitchen next : Kitchen nCooks} {label : KitchenLabel nCooks}
    (taken : kitchen.step limit label = some next)
    (apart : ∀ wake, label = .process (.main wake) → kitchen.site.process.control ≠ .joining)
    (joined : next.site.process.control.joined = true) :
    kitchen.site.process.control.joined = true := by
  rcases Kitchen.step_cases taken with ⟨moved, site, rfl, rfl, stepped⟩ | ⟨_, same, _⟩
  · cases stepped with
    | join wake control => exact absurd control (apart wake rfl)
    | close wake control =>
        rw [control]
        rfl
    | advance wake process moves =>
        cases moves with
        | wake running => cases running <;> cases joined
        | start | accepted | readStock | readCook | build | responded | sample | timeOut | idle
        | busy => cases joined
    | pollEmpty | pollShutdown | poll | accept | refuse | request | ignore | sendFull | respond
    | stop | notify => cases joined
    | cook | consume | serve | wakeSpuriously | regenerate => exact joined
  · rwa [same] at joined

/-- A kitchen that closes goes on to its exit. -/
theorem joined_stays {kitchen next : Kitchen nCooks} {label : KitchenLabel nCooks}
    (taken : kitchen.step limit label = some next)
    (joined : kitchen.site.process.control.joined = true) :
    next.site.process.control.joined = true := by
  by_cases main : label.Main
  · obtain ⟨wake, moved⟩ := Kitchen.main_step taken main
    exact moved.closes joined
  · rwa [Kitchen.control_step taken main]

/-- Every member is destroyed before the process closes. -/
theorem gone_of_reachable {state : Demolition nCooks}
    (reached : (machine nCooks limit).Reachable state) :
    state.kitchen.site.process.control.joined = true → state.remaining = [] := by
  refine reached.invariant (motive := fun state =>
    state.kitchen.site.process.control.joined = true → state.remaining = [])
    (fun joined => by cases joined) ?_
  intro state next label _ gone _ taken joined
  cases transition_of_step taken with
  | work label kitchen apart _ moved => exact gone (joined_step moved apart joined)
  | fail => exact gone joined
  | destroy wake remaining control =>
      rw [control] at joined
      cases joined
  | close wake control ended => exact ended

/-- The reset only destroys members. -/
theorem remaining_step {state next : Demolition nCooks} {label : KitchenLabel nCooks}
    (taken : state.step limit label = some next) : next.remaining <:+ state.remaining := by
  cases transition_of_step taken with
  | work | fail | close => exact List.suffix_rfl
  | destroy wake remaining control destroyed =>
      obtain ⟨first, living, _⟩ := ThreadPool.destroyMember_eq_some destroyed
      rw [living]
      exact List.suffix_cons first remaining

/-- A step that does not abort is a step of the kitchen or destroys a member. -/
theorem observe_of_step {state next : Demolition nCooks} {label : KitchenLabel nCooks}
    (taken : state.step limit label = some next) (runs : next.aborted = false) :
    state.observe label = some label ∨ next.remaining.length < state.remaining.length := by
  cases transition_of_step taken with
  | work label kitchen apart locks => exact .inl (observe_work apart locks)
  | fail => cases runs
  | destroy wake remaining control destroyed =>
      obtain ⟨first, living, _⟩ := ThreadPool.destroyMember_eq_some destroyed
      rw [living]
      exact .inr (Nat.lt_succ_self _)
  | close wake control ended => exact .inl (observe_close control ended)

/-- The reset takes its step when the kitchen does. -/
theorem exists_step {state : Demolition nCooks} {label : KitchenLabel nCooks}
    {kitchen : Kitchen nCooks} (runs : state.aborted = false)
    (moved : state.kitchen.step limit label = some kitchen) :
    ∃ next, state.step limit label = some next := by
  by_cases resets : ∃ wake, label = .process (.main wake) ∧
      state.kitchen.site.process.control = .joining
  · obtain ⟨wake, rfl, control⟩ := resets
    by_cases living : state.remaining = []
    · exact ⟨_, step_of_transition runs (.close wake control living)⟩
    · obtain ⟨rest, destroyed⟩ :=
        ThreadPool.exists_destroyMember living (left_of_close control moved).1
      exact ⟨_, step_of_transition runs (.destroy wake rest control destroyed)⟩
  have apart := fun wake same control => resets ⟨wake, same, control⟩
  by_cases fails : ∃ index, label = .process (.cook index) ∧
      state.pool.LockFails state.remaining index
  · obtain ⟨index, rfl, fails⟩ := fails
    exact ⟨_, step_of_transition runs (.fail index fails)⟩
  · have locks := fun index same fails' => fails ⟨index, same, fails'⟩
    exact ⟨_, step_of_transition runs (.work label kitchen apart locks moved)⟩

/-- A reset that begins when every cook has left runs to its end. -/
theorem reachable_ended (remaining : List Member) (state : Demolition nCooks)
    (living : state.remaining = remaining) (reached : (machine nCooks limit).Reachable state)
    (runs : state.aborted = false) (control : state.kitchen.site.process.control = .joining)
    (left : ∀ index, state.pool.threads index = .exited) :
    (machine nCooks limit).Reachable { state with remaining := [] } := by
  induction remaining generalizing state with
  | nil => exact living ▸ reached
  | cons first rest ih =>
      have destroyed : state.pool.destroyMember state.remaining = some rest := by
        rw [living]
        exact if_pos fun _ => left
      have taken : (machine nCooks limit).step state (.process (.main fun _ => false)) =
          some { state with remaining := rest } :=
        step_of_transition runs (.destroy _ rest control destroyed)
      exact ih { state with remaining := rest } rfl (.step reached trivial taken) runs control left

/-- A process with the reset follows a kitchen. -/
structure Follows (kitchen : Kitchen nCooks) (state : Demolition nCooks) : Prop where
  same : state.kitchen = kitchen
  runs : state.aborted = false
  whole : kitchen.site.process.control.joined = true ∨ state.remaining = Member.destructionOrder

/-- No lock fails in a process that follows a kitchen. -/
theorem Follows.locks {kitchen : Kitchen nCooks} {state : Demolition nCooks}
    (follows : Follows kitchen state) (valid : kitchen.site.process.Valid) (index : Fin nCooks) :
    ¬state.pool.LockFails state.remaining index := by
  intro fails
  rcases follows.whole with joined | whole
  · refine fails.active ?_
    rw [pool, follows.same]
    exact valid.joined joined index
  · have gone := fails.1
    rw [whole] at gone
    exact gone (by decide)

/-- A process with the reset follows each step of a kitchen. -/
theorem Follows.step {kitchen next : Kitchen nCooks} {label : KitchenLabel nCooks}
    {state : Demolition nCooks} (follows : Follows kitchen state)
    (reached : (machine nCooks limit).Reachable state) (valid : kitchen.site.process.Valid)
    (taken : kitchen.step limit label = some next) :
    ∃ later, (machine nCooks limit).Reachable later ∧ Follows next later := by
  obtain ⟨rfl, runs, whole⟩ := follows
  by_cases resets : ∃ wake, label = .process (.main wake) ∧
      state.kitchen.site.process.control = .joining
  · obtain ⟨wake, rfl, control⟩ := resets
    obtain ⟨left, rfl⟩ := left_of_close control taken
    have ended := reachable_ended state.remaining state rfl reached runs control left
    let gone : Demolition nCooks := { state with remaining := [] }
    have runs : gone.aborted = false := runs
    have closed : (machine nCooks limit).step gone (.process (.main wake)) = some { gone with
        kitchen := { state.kitchen with site := { state.kitchen.site with
          process := state.kitchen.site.process.goto .closing } } } :=
      step_of_transition runs (.close wake control rfl)
    exact ⟨_, .step ended trivial closed, rfl, runs, .inl rfl⟩
  · have apart := fun wake same control => resets ⟨wake, same, control⟩
    have moved : (machine nCooks limit).step state label = some { state with kitchen := next } :=
      step_of_transition runs (.work label next apart
        (fun index _ => Follows.locks ⟨rfl, runs, whole⟩ valid index) taken)
    refine ⟨_, .step reached trivial moved, rfl, runs, whole.imp_left fun joined => ?_⟩
    exact joined_stays taken joined

/-- The pool is gone, its cooks are joined and the shutdown packet is the last one. -/
structure Exited (state : Demolition nCooks) : Prop where
  exits : state.kitchen.site.process.hasExited = true
  runs : state.aborted = false
  gone : state.remaining = []
  joined : ∀ index, state.pool.threads index = .exited
  last : ∃ earlier, state.kitchen.site.resultQueue.sent = earlier ++ [{ type := .shutdown }]

/-- A process that exits has joined its cooks before its last packet. -/
theorem exited_of_reachable {state : Demolition nCooks}
    (reached : (machine nCooks limit).Reachable state)
    (exits : state.kitchen.site.process.hasExited = true) (runs : state.aborted = false) :
    state.Exited := by
  have inside := kitchen_of_reachable reached
  have joined : state.kitchen.site.process.control.joined = true := by
    unfold KitchenWorker.hasExited at exits
    split at exits
    · rename_i control
      rw [control]
      rfl
    · cases exits
  obtain ⟨_, honest⟩ := Kitchen.accounted_of_reachable inside
  obtain ⟨_, earlier, last, _⟩ := honest.closed exits
  exact ⟨exits, runs, gone_of_reachable reached joined,
    (Kitchen.valid_of_reachable inside).joined joined, earlier, last⟩

/-- A cook has locked the destroyed mutex, and the process has sent no shutdown packet. -/
structure Killed (state : Demolition nCooks) : Prop where
  aborted : state.aborted = true
  fails : ∃ index, state.pool.LockFails state.remaining index
  silent : ∀ packet ∈ state.kitchen.site.resultQueue.sent, packet.type ≠ .shutdown

/-- An aborted process was in its reset. -/
theorem Killed.begun {state : Demolition nCooks} (killed : state.Killed) :
    state.remaining ≠ Member.destructionOrder := by
  intro whole
  obtain ⟨index, gone, _⟩ := killed.fails
  rw [whole] at gone
  exact gone (by decide)

/-- An aborted process sends no shutdown packet. -/
theorem killed_of_reachable {state : Demolition nCooks}
    (reached : (machine nCooks limit).Reachable state) (aborted : state.aborted = true) :
    state.Killed := by
  have inside := kitchen_of_reachable reached
  obtain ⟨index, fails⟩ := Teardown.fails_of_reachable (teardown_of_reachable reached) aborted
  have stays := Kitchen.stays_of_active inside fails.active
  obtain ⟨_, honest⟩ := Kitchen.accounted_of_reachable inside
  exact ⟨aborted, ⟨index, fails⟩, honest.open' stays⟩

/-- A process that has ended does not sleep. -/
theorem not_sleeping_of_ended {state : Demolition nCooks}
    (reached : (machine nCooks limit).Reachable state) (ended : state.hasEnded = true)
    {running : Bool} {wakeTime : Nat} :
    state.kitchen.site.process.control ≠ .sleeping running wakeTime := by
  intro sleeps
  rcases Bool.or_eq_true _ _ ▸ ended with aborted | exits
  · have stopped := stopped_of_begun reached (killed_of_reachable reached aborted).begun
    rw [sleeps] at stopped
    cases stopped
  · simp [KitchenWorker.hasExited, sleeps] at exits

/-- A process that has ended takes no step. -/
theorem disabled_of_ended {state : Demolition nCooks} (reached : (machine nCooks limit).Reachable state)
    (ended : state.hasEnded = true) (thread : KitchenLabel nCooks → Prop)
    (own : ∀ label, thread label → ∃ moved, label = .process moved) :
    ¬(machine nCooks limit).Enables thread state := by
  rintro ⟨label, next, chosen, taken⟩
  obtain ⟨moved, rfl⟩ := own label chosen
  have taken : state.step limit (.process moved) = some next := taken
  have exits : state.kitchen.site.process.hasExited = true := by
    rwa [hasEnded, running_of_step taken, Bool.false_or] at ended
  have inside := kitchen_of_reachable reached
  cases transition_of_step taken with
  | work label kitchen _ _ moved =>
      exact Kitchen.disabled_of_exited inside exits thread own ⟨_, kitchen, chosen, moved⟩
  | fail index fails =>
      have stays := Kitchen.stays_of_active inside fails.active
      rw [stays] at exits
      cases exits
  | destroy _ _ control | close _ control => simp [KitchenWorker.hasExited, control] at exits

/-- What the threads and the environment of a kitchen do for its progress, with any reset. -/
structure Scheduled (execution : (machine nCooks limit).Execution) : Prop where
  main : execution.Fair KitchenLabel.Main
  cook : ∀ index, execution.Fair (KitchenLabel.Cook index)
  regenerator : execution.Fair KitchenLabel.Regenerator
  clock : ∀ moment running wakeTime,
    (execution.state moment).kitchen.site.process.control = .sleeping running wakeTime →
      ∃ later, moment ≤ later ∧ wakeTime ≤ (execution.state later).kitchen.now
  room : Again fun moment => (execution.state moment).hasEnded = true ∨
    hasRoom limit (execution.state moment).kitchen.site.resultQueue.pending = true
  readable : ∀ moment, ∀ packet ∈ (execution.state moment).kitchen.site.orderQueue.sent,
    packet.Readable

/-- The check of a run: the process has ended and was sent readable packets. -/
theorem scheduled_of_run {labels : List (KitchenLabel nCooks)}
    (ended : ((machine nCooks none).run (fun _ _ => true) (machine nCooks none).initial labels).any
      (fun state => state.hasEnded && state.kitchen.site.orderQueue.sent.all fun packet =>
        packet.type ≠ .pizza || (unpack packet.pizza).isSome) = true) :
    Scheduled (Machine.Execution.resting (machine nCooks none) labels) := by
  obtain ⟨last, ran, ended⟩ := (Option.any_eq_true _ _).mp ended
  rw [Bool.and_eq_true, List.all_eq_true] at ended
  obtain ⟨ended, readable⟩ := ended
  let execution := Machine.Execution.resting (machine nCooks none) labels
  let inside := execution.map (refines_kitchen nCooks none)
  have ends : ∀ {moment}, labels.length ≤ moment → execution.state moment = last :=
    Machine.Execution.state_resting ran
  have reached : (machine nCooks none).Reachable last := ends le_rfl ▸ execution.reachable labels.length
  have rests := fun thread own => Machine.Execution.fair_resting ran
    (disabled_of_ended reached ended thread own)
  have late : ∀ moment, inside.state (max moment labels.length) = last.kitchen := fun moment =>
    congrArg Demolition.kitchen (ends (le_max_right _ _))
  refine ⟨rests _ ?_, fun index => rests _ ?_, rests _ ?_, ?_, fun moment => ⟨moment, le_rfl, .inr rfl⟩, ?_⟩
  · rintro (_ | _ | moved | _) chosen <;> first | exact ⟨moved, rfl⟩ | cases chosen
  · rintro (_ | _ | moved | _) chosen <;> first | exact ⟨moved, rfl⟩ | cases chosen
  · rintro (_ | _ | moved | _) chosen <;> first | exact ⟨moved, rfl⟩ | cases chosen
  · intro moment running wakeTime sleeps
    refine Kitchen.slept_of_awake inside (le_max_left moment labels.length) ?_ sleeps
    rw [late]
    exact not_sleeping_of_ended reached ended
  · intro moment packet sent
    have kept := (Kitchen.orders_later inside (le_max_left moment labels.length)).1.subset sent
    rw [late] at kept
    exact Kitchen.readable_of_check (readable packet kept)

section Scheduled

variable {execution : (machine nCooks limit).Execution}

/-- A thread of a process that is never aborted gets its turns in the kitchen inside. -/
theorem fair_kitchen (runs : ∀ moment, (execution.state moment).aborted = false)
    {thread : KitchenLabel nCooks → Prop} (fair : execution.Fair thread) :
    (execution.map (refines_kitchen nCooks limit)).Fair thread := by
  refine fair.map_measured (refines_kitchen nCooks limit) (fun state => state.remaining.length)
    ?_ ?_ ?_
  · intro moment
    rcases execution.step_cases moment with ⟨same, _⟩ | ⟨label, _, taken⟩
    · rw [same]
    · exact (remaining_step taken).length_le
  · intro moment label labelled own
    rcases observe_of_step (execution.taken labelled) (runs (moment + 1)) with observed | less
    · exact .inl ⟨label, observed, own⟩
    · exact .inr less
  · intro moment _ again
    obtain ⟨later, late, label, kitchen, own, moved⟩ := again moment
    obtain ⟨next, taken⟩ := exists_step (runs later) moved
    exact ⟨later, late, label, next, own, taken⟩

variable (scheduled : Scheduled execution)
include scheduled

end Scheduled

/-- The only cook is baking when the mutex is destroyed, and it finishes its first pizza of two. -/
def killedLabels : List (KitchenLabel 1) :=
  let main : KitchenLabel 1 := .process (.main fun _ => true)
  let cook : KitchenLabel 1 := .process (.cook (Fin.last 0))
  let pause : KitchenLabel 1 := .elapse kPollInterval
  let pizza : KitchenLabel 1 := .deliver { type := .pizza, pizza := pack ⟨.margarita, .s⟩ }
  [pizza, pizza, .deliver { type := .shutdown }] ++ List.replicate 6 main ++ [pause] ++
    List.replicate 6 main ++ List.replicate 3 cook ++ [pause] ++ List.replicate 4 main ++ [pause] ++
    List.replicate 9 main ++ List.replicate 4 cook

/-- The second pizza of the run is never answered. -/
example : ((machine 1 none).run (fun _ _ => true) (machine 1 none).initial killedLabels).any
    (fun state => state.aborted && state.kitchen.site.orderQueue.received.countP Packet.isPizza = 2 &&
      state.kitchen.site.resultQueue.sent.countP Packet.isAnswer = 1) = true := by
  decide

end Plazza.Demolition
