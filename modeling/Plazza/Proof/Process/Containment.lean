import Plazza.Construction.Fork

namespace Plazza.Child
open Plazza.Foundation

/-- The child runs no code of the call chain and touches no queue of the kitchens. -/
structure Contained (child : Child Unit) : Prop where
  resumed : ∀ frame, .resumed frame ∉ child.events
  shutdown : ∀ kitchenId, .sentShutdown kitchenId ∉ child.events
  queues : ∀ path, .removedQueue path ∉ child.events
  anchors : ∀ path, .removedAnchor path ∉ child.events

/-- The constructor of the process never returns to its caller in the child. -/
theorem process_last {routine : Child Unit} (quiet : ∀ message, routine.ending ≠ .raised message) :
    (process routine).events = routine.events ∧ (process routine).ending.continues = false := by
  unfold process
  cases ends : routine.ending with
  | value =>
      constructor
      · rw [Trace.events_bind _ ends]
        exact List.append_nil _
      · rw [Trace.ending_bind _ ends]
        rfl
  | raised message => exact absurd ends (quiet message)
  | exited | aborted | stuck => exact Trace.bind_of_last _ (by rw [ends]; rfl)

/-- Without an exception of the routine the whole call chain adds nothing. -/
theorem main_events {routine : Child Unit} (quiet : ∀ message, routine.ending ≠ .raised message)
    (delivery : Nat → Delivery) (kitchens : List KitchenHandle) (kitchenId : Nat) :
    (main delivery kitchens kitchenId routine).events = routine.events := by
  obtain ⟨constructed, never⟩ := process_last quiet
  have spawned : (spawnKitchen kitchenId routine).events = routine.events ∧
      (spawnKitchen kitchenId routine).ending.continues = false := by
    obtain ⟨events, last⟩ := Trace.bind_of_last (fun _ => Trace.emit (.resumed .spawnKitchen)) never
    rw [spawnKitchen, Trace.ensuring_of_last _ last]
    exact ⟨events.trans constructed, last⟩
  have dispatched : (dispatch kitchenId routine).events = routine.events ∧
      (dispatch kitchenId routine).ending.continues = false := by
    obtain ⟨events, last⟩ := Trace.bind_of_last (fun _ => Trace.emit (.resumed .dispatch)) spawned.2
    exact ⟨events.trans spawned.1, last⟩
  have handled : (handleLine kitchenId routine).events = routine.events ∧
      (handleLine kitchenId routine).ending.continues = false := by
    rw [handleLine, Trace.catching_of_last _ dispatched.2]
    exact dispatched
  have ran : (run kitchenId routine).events = routine.events ∧
      (run kitchenId routine).ending.continues = false := by
    obtain ⟨events, last⟩ := Trace.bind_of_last (fun _ => Trace.emit (.resumed .run)) handled.2
    exact ⟨events.trans handled.1, last⟩
  obtain ⟨events, last⟩ := Trace.bind_of_last (fun _ => Trace.emit (.resumed .main)) ran.2
  have whole : ((run kitchenId routine >>= fun _ => Trace.emit (.resumed .main)).ensuring
      (destroyLoadBalancer delivery kitchens)).ending.continues = false := by
    rwa [Trace.ensuring_of_last _ last]
  rw [main, Trace.catching_of_last _ whole, Trace.ensuring_of_last _ last, events, ran.1]

/-- The routine itself removes nothing and sends nothing to another kitchen. -/
theorem kitchenRoutine_events (kitchenId : Nat) (points : Points) :
    (kitchenRoutine kitchenId points).events = [] := by
  refine Trace.bind_silent rfl fun _ => Trace.ensuring_silent ?_ rfl
  refine Trace.bind_silent rfl fun _ => Trace.ensuring_silent ?_ rfl
  exact Trace.bind_silent rfl fun _ => Trace.ensuring_silent rfl rfl

/-- An exception of the routine makes the child remove the queues of its own kitchen. -/
theorem spawnKitchen_raised {routine : Child Unit} {message : String}
    (thrown : routine.ending = .raised message) (kitchenId : Nat) :
    .removedQueue (resultPath kitchenId) ∈ (spawnKitchen kitchenId routine).events ∧
      (spawnKitchen kitchenId routine).ending = .raised message := by
  have passed : (process routine >>= fun _ => Trace.emit (.resumed .spawnKitchen)).ending =
      .raised message := Trace.ending_bind_raised _ (Trace.ending_bind_raised _ thrown)
  constructor
  · rw [spawnKitchen, Trace.events_ensuring _ (by rw [passed]; rfl)]
    exact List.mem_append_right _ List.mem_cons_self
  · rw [spawnKitchen, Trace.ending_ensuring rfl, passed]

/-- The shell throws the exception of the routine again. -/
theorem run_raised {routine : Child Unit} {message : String}
    (thrown : routine.ending = .raised message) (kitchenId : Nat) :
    .removedQueue (resultPath kitchenId) ∈ (run kitchenId routine).events ∧
      (run kitchenId routine).ending = .raised ("error: " ++ message) := by
  obtain ⟨removed, passed⟩ := spawnKitchen_raised thrown kitchenId
  have dispatched : (dispatch kitchenId routine).ending = .raised message :=
    Trace.ending_bind_raised _ passed
  constructor
  · exact Trace.mem_bind _ (Trace.mem_catching _ (Trace.mem_bind _ removed))
  · refine Trace.ending_bind_raised _ ?_
    rw [handleLine, Trace.ending_catching _ dispatched]
    rfl

/-- The child of a kitchen stays in its constructor exactly when the routine does not throw. -/
theorem contained_iff (delivery : Nat → Delivery) (kitchens : List KitchenHandle) (kitchenId : Nat)
    (points : Points) :
    Contained (main delivery kitchens kitchenId (kitchenRoutine kitchenId points)) ↔
      ∀ message, (kitchenRoutine kitchenId points).ending ≠ .raised message := by
  constructor
  · intro contained message thrown
    have removed := (run_raised thrown kitchenId).1
    exact contained.queues _ (Trace.mem_catching _ (Trace.mem_ensuring _ (Trace.mem_bind _ removed)))
  · intro quiet
    have silent : (main delivery kitchens kitchenId (kitchenRoutine kitchenId points)).events = [] :=
      (main_events quiet delivery kitchens kitchenId).trans (kitchenRoutine_events kitchenId points)
    constructor <;> intro _ member <;> rw [silent] at member <;> cases member

/-- A kitchen that cannot open its order queue shuts its sibling down. -/
theorem not_contained :
    ¬∀ (delivery : Nat → Delivery) (kitchens : List KitchenHandle) (kitchenId : Nat)
      (points : Points),
      Contained (main delivery kitchens kitchenId (kitchenRoutine kitchenId points)) := by
  intro contained
  have child := contained (fun _ => .sent) [.new 0 1] 1
    ⟨.raised kMqOpenFailed, .value (), .value (), .value (), .value ()⟩
  exact child.shutdown 0 (by decide)

/-- The destructor of the load balancer shuts every live kitchen down when each send succeeds. -/
theorem shutdown_sent {delivery : Nat → Delivery} {kitchens : List KitchenHandle}
    (sent : ∀ kitchen ∈ kitchens, delivery kitchen.id = .sent) :
    (shutdown delivery kitchens).ending = .value () ∧
      ∀ kitchen ∈ kitchens, kitchen.alive = true →
        .sentShutdown kitchen.id ∈ (shutdown delivery kitchens).events := by
  induction kitchens with
  | nil => exact ⟨rfl, nofun⟩
  | cons first rest ih =>
      obtain ⟨ending, later⟩ := ih fun kitchen member => sent kitchen (List.mem_cons_of_mem _ member)
      have delivered := sent first List.mem_cons_self
      have closed : (closeKitchen delivery first).ending = .value () := by
        rw [closeKitchen, delivered]
        split <;> rfl
      refine ⟨(Trace.ending_bind _ closed).trans ending, fun kitchen member alive => ?_⟩
      rw [shutdown, Trace.events_bind _ closed]
      rcases List.mem_cons.mp member with rfl | member
      · refine List.mem_append_left _ ?_
        rw [closeKitchen, alive, delivered]
        exact List.mem_cons_self
      · exact List.mem_append_right _ (later kitchen member alive)

/-- The handles own the queues of every kitchen. -/
theorem removed_destroyHandles {kitchens : List KitchenHandle} :
    ∀ kitchen ∈ kitchens, .removedQueue (orderPath kitchen.id) ∈ (destroyHandles kitchens).events := by
  induction kitchens with
  | nil => nofun
  | cons first rest ih =>
      intro kitchen member
      rw [destroyHandles,
        Trace.events_bind _ (rfl : (destroyHandle first.id).ending = .value ())]
      rcases List.mem_cons.mp member with rfl | member
      · exact List.mem_append_left _ (.tail _ (.tail _ (.head _)))
      · exact List.mem_append_right _ (ih kitchen member)

/-- An exception of the routine shuts every other kitchen down and removes its queues. -/
theorem main_raised {routine : Child Unit} {message : String}
    (thrown : routine.ending = .raised message) {delivery : Nat → Delivery}
    {kitchens : List KitchenHandle} (sent : ∀ kitchen ∈ kitchens, delivery kitchen.id = .sent)
    (kitchenId : Nat) :
    ∀ kitchen ∈ kitchens,
      .removedQueue (orderPath kitchen.id) ∈ (main delivery kitchens kitchenId routine).events ∧
      (kitchen.alive = true →
        .sentShutdown kitchen.id ∈ (main delivery kitchens kitchenId routine).events) := by
  obtain ⟨ending, closed⟩ := shutdown_sent sent
  have passed : (run kitchenId routine >>= fun _ => Trace.emit (.resumed .main)).ending =
      .raised ("error: " ++ message) :=
    Trace.ending_bind_raised _ (run_raised thrown kitchenId).2
  have unwound {event : ChildEvent}
      (member : event ∈ (destroyLoadBalancer delivery kitchens).events) :
      event ∈ (main delivery kitchens kitchenId routine).events := by
    refine Trace.mem_catching _ ?_
    rw [Trace.events_ensuring _ (by rw [passed]; rfl)]
    exact List.mem_append_right _ member
  intro kitchen member
  refine ⟨unwound ?_, fun alive => unwound (Trace.mem_bind _ (closed kitchen member alive))⟩
  rw [destroyLoadBalancer, Trace.events_bind _ ending]
  exact List.mem_append_right _ (removed_destroyHandles kitchen member)

end Plazza.Child
