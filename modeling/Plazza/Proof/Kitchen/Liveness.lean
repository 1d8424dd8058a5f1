import Plazza.Proof.Kitchen.Service
import Plazza.Construction.Exchange

namespace Plazza
open Plazza.Foundation

/-- The loop has ended or is in its last round. -/
def Control.leaves : Control → Bool
  | sampling running | checking running _ | sleeping running _ => !running
  | stopping | notifying | joining | closing | exited => true
  | starting | receiving | handling _ | accepting | refusing _ | readingStock _
  | readingCooks _ _ _ | responding _ => false

/-- A bound on the statements of the main thread up to its next receive. -/
def Control.distance (nCooks : Nat) : Control → Nat
  | starting | sleeping _ _ => 1
  | checking _ _ => 2
  | sampling _ => 3
  | accepting | refusing _ => 4
  | responding packets => 4 + packets.length
  | readingCooks _ _ statuses => 6 + statuses.length + 2 * (nCooks - statuses.length)
  | readingStock _ => 7 + 2 * nCooks
  | handling _ => 8 + 2 * nCooks
  | receiving | stopping | notifying | joining | closing | exited => 0

/-- A bound on the statements of the main thread up to its exit from the last round on. -/
def Control.departure : Control → Nat
  | sampling _ => 7
  | checking _ _ => 6
  | sleeping _ _ => 5
  | stopping => 4
  | notifying => 3
  | joining => 2
  | closing => 1
  | exited | starting | receiving | handling _ | accepting | refusing _ | readingStock _
  | readingCooks _ _ _ | responding _ => 0

/-- The replies that the main thread owes for the request in hand. -/
def Control.replies : Control → Nat
  | handling packet => [packet].countP Packet.isRequest
  | readingStock _ | readingCooks _ _ _ => 1
  | responding packets => packets.countP Packet.isReply
  | _ => 0

/-- A longer history has the tags of a shorter one. -/
theorem tags_mono (select : Packet → Bool) {first second : List Packet} (front : first <+: second) :
    tags select first ≤ tags select second :=
  Multiset.coe_le.mpr ((front.sublist.filter _).map _).subperm

/-- A response has a packet for each cook and the reply. -/
theorem length_sendStatusResponse {load capacity : Nat} {stock : Stock}
    {statuses : List CookStatus} {packets : List Packet}
    (built : sendStatusResponse load capacity stock statuses = some packets) :
    packets.length = statuses.length + 1 := by
  obtain ⟨packed, _, same⟩ := Option.bind_eq_some_iff.mp built
  obtain rfl := Option.some.inj same
  simp

/-- A response has one reply. -/
theorem replies_sendStatusResponse {load capacity : Nat} {stock : Stock}
    {statuses : List CookStatus} {packets : List Packet}
    (built : sendStatusResponse load capacity stock statuses = some packets) :
    packets.countP Packet.isReply = 1 := by
  obtain ⟨packed, _, same⟩ := Option.bind_eq_some_iff.mp built
  obtain rfl := Option.some.inj same
  have none' : (statuses.map fun status =>
      ({ type := .cookStatus, cook := packCook status } : Packet)).countP Packet.isReply = 0 :=
    List.countP_eq_zero.mpr fun packet member => by
      obtain ⟨_, _, rfl⟩ := List.mem_map.mp member
      simp [Packet.isReply]
  rw [List.countP_append, none']
  rfl

namespace KitchenWorker

variable {nCooks : Nat} {limit : Option Nat} {now : Nat}

/-- An advance within the loop ends it or comes closer to the next receive. -/
theorem Advance.closer {worker next : KitchenWorker nCooks} (moves : Advance now worker next)
    (stays : worker.control.leaves = false) :
    next.control.leaves = true ∨
      next.control.distance nCooks < worker.control.distance nCooks := by
  cases moves with
  | readCook load stock statuses control more =>
      right
      rw [control]
      simp only [goto, Control.distance, List.length_append, List.length_singleton]
      omega
  | build load stock statuses packets control all built =>
      right
      rw [control]
      simp only [goto, Control.distance, length_sendStatusResponse built]
      omega
  | wake running wakeTime control =>
      rw [control] at stays ⊢
      cases running with
      | false => cases stays
      | true => exact .inr Nat.one_pos
  | timeOut => exact .inl rfl
  | start control | accepted control | readStock _ control | responded control
  | sample _ control | idle _ _ control | busy _ _ control =>
      right
      rw [control]
      simp [goto, Control.distance]

/-- A main step within the loop ends it, receives a packet or comes closer to the next receive, and
a receive finds the queue empty only if it is empty. -/
theorem Transition.closer {site next : Site (KitchenWorker nCooks)} {wake : Fin nCooks → Bool}
    (moved : Transition limit now site (.main wake) next)
    (stays : site.process.control.leaves = false) (unread : site.orderQueue.pending ≠ []) :
    next.process.control.leaves = true ∨
      site.orderQueue.received.length < next.orderQueue.received.length ∨
        next.process.control.distance nCooks < site.process.control.distance nCooks := by
  cases moved with
  | advance _ process moves => exact (moves.closer stays).imp_right .inr
  | pollEmpty _ control empty =>
      unfold Fifo.receive at empty
      split at empty
      · exact absurd ‹_› unread
      · cases empty
  | pollShutdown => exact .inl rfl
  | poll _ packet orderQueue control received =>
      refine .inr (.inl ?_)
      rw [(Fifo.receive_eq_some_iff.mp received).2, List.length_append]
      exact Nat.lt_succ_self _
  | accept _ _ _ _ control | refuse _ _ control | request _ _ control | ignore _ _ control
  | sendFull _ _ control | respond _ _ _ control =>
      right; right
      rw [control]
      simp [goto, Control.distance] <;> omega
  | stop _ control | notify _ control | join _ control | close _ control =>
      rw [control] at stays
      cases stays

/-- A main step after the loop comes closer to the exit. -/
theorem Transition.departs {site next : Site (KitchenWorker nCooks)} {wake : Fin nCooks → Bool}
    (moved : Transition limit now site (.main wake) next)
    (leaves : site.process.control.leaves = true) :
    next.process.control.leaves = true ∧
      next.process.control.departure < site.process.control.departure := by
  cases moved with
  | advance _ process moves =>
      cases moves with
      | sample running control | idle running _ control | busy running _ control =>
          rw [control] at leaves ⊢
          exact ⟨leaves, by simp [goto, Control.departure]⟩
      | timeOut running _ control =>
          rw [control]
          exact ⟨rfl, by simp [goto, Control.departure]⟩
      | wake running _ control =>
          rw [control] at leaves ⊢
          cases running with
          | false => exact ⟨rfl, by simp [goto, Control.departure]⟩
          | true => cases leaves
      | start control | accepted control | readStock _ control | readCook _ _ _ control
      | build _ _ _ _ control | responded control =>
          rw [control] at leaves
          cases leaves
  | stop _ control | notify _ control | join _ control | close _ control =>
      rw [control]
      exact ⟨rfl, by simp [goto, Control.departure]⟩
  | pollEmpty _ control | pollShutdown _ _ _ control | poll _ _ _ control
  | accept _ _ _ _ control | refuse _ _ control | request _ _ control | ignore _ _ control
  | sendFull _ _ control | respond _ _ _ control =>
      rw [control] at leaves
      cases leaves

/-- A main step with a packet in hand gives it to the pool or answers it. -/
theorem Transition.handsOver {site next : Site (KitchenWorker nCooks)} {wake : Fin nCooks → Bool}
    (moved : Transition limit now site (.main wake) next) (busy : site.process.control.hand ≠ 0) :
    next.process.control.hand = 0 ∨
      next.process.control.distance nCooks < site.process.control.distance nCooks := by
  cases moved with
  | advance _ process moves => exact absurd moves.points.2.2.1 busy
  | refuse _ packet control =>
      right
      rw [control]
      simp only [goto, Control.distance]
      omega
  | accept | request | ignore | sendFull => exact .inl rfl
  | pollEmpty _ control | pollShutdown _ _ _ control | poll _ _ _ control | respond _ _ _ control
  | stop _ control | notify _ control | join _ control | close _ control =>
      rw [control] at busy
      exact absurd rfl busy

/-- A main step with a request to answer comes closer to the end of the response. -/
theorem Transition.answers {site next : Site (KitchenWorker nCooks)} {wake : Fin nCooks → Bool}
    (moved : Transition limit now site (.main wake) next)
    (busy : site.process.control.replies ≠ 0) :
    next.process.control.replies = 0 ∨
      next.process.control.distance nCooks < site.process.control.distance nCooks := by
  cases moved with
  | advance _ process moves =>
      have stays : site.process.control.leaves = false := by
        cases control : site.process.control <;> simp_all [Control.replies, Control.leaves]
      rcases moves.closer stays with left | closer
      · left
        cases control : process.control <;> simp_all [Control.replies, Control.leaves]
      · exact .inr closer
  | request _ packet control =>
      right
      rw [control]
      simp [goto, Control.distance]
  | respond _ packet rest control =>
      right
      rw [control]
      simp [goto, Control.distance]
  | accept | refuse | ignore | sendFull => exact .inl rfl
  | pollEmpty _ control | pollShutdown _ _ _ control | poll _ _ _ control
  | stop _ control | notify _ control | join _ control | close _ control =>
      rw [control] at busy
      exact absurd rfl busy

/-- The main thread leaves its sleep at the end of it. -/
theorem Transition.slept {site next : Site (KitchenWorker nCooks)} {wake : Fin nCooks → Bool}
    (moved : Transition limit now site (.main wake) next) {running : Bool} {wakeTime : Nat}
    (asleep : site.process.control = .sleeping running wakeTime) : wakeTime ≤ now := by
  cases moved with
  | advance _ process moves =>
      cases moves with
      | wake _ _ control elapsed =>
          rw [asleep] at control
          cases control
          exact elapsed
      | start control | accepted control | readStock _ control | readCook _ _ _ control
      | build _ _ _ _ control | responded control | sample _ control | timeOut _ _ control
      | idle _ _ control | busy _ _ control =>
          rw [asleep] at control
          cases control
  | pollEmpty _ control | pollShutdown _ _ _ control | poll _ _ _ control
  | accept _ _ _ _ control | refuse _ _ control | request _ _ control | ignore _ _ control
  | sendFull _ _ control | respond _ _ _ control | stop _ control | notify _ control
  | join _ control | close _ control =>
      rw [asleep] at control
      cases control

/-- Each transition keeps the received requests equal to the answered ones and the one in progress. -/
theorem Transition.replies {site next : Site (KitchenWorker nCooks)} {label : Label nCooks}
    (moved : Transition limit now site label next)
    (balance : site.orderQueue.received.countP Packet.isRequest =
      site.process.control.replies + site.resultQueue.sent.countP Packet.isReply) :
    next.orderQueue.received.countP Packet.isRequest =
      next.process.control.replies + next.resultQueue.sent.countP Packet.isReply := by
  cases moved with
  | advance wake process moves =>
      rw [balance]
      congr 1
      cases moves with
      | build load stock statuses packets control all built =>
          rw [control]
          exact (replies_sendStatusResponse built).symm
      | wake running _ control =>
          rw [control]
          cases running <;> rfl
      | start control | accepted control | readStock _ control | readCook _ _ _ control
      | responded control | sample _ control | timeOut _ _ control | idle _ _ control
      | busy _ _ control =>
          rw [control]
          rfl
  | pollEmpty _ control | stop _ control | notify _ control | join _ control =>
      rw [control] at balance
      exact balance
  | pollShutdown _ packet orderQueue control received shutdown =>
      rw [control] at balance
      rw [(Fifo.receive_eq_some_iff.mp received).2, List.countP_append, balance]
      simp [goto, Control.replies, Packet.isRequest, shutdown]
  | poll _ packet orderQueue control received =>
      rw [control] at balance
      rw [(Fifo.receive_eq_some_iff.mp received).2, List.countP_append, balance]
      simp [goto, Control.replies, add_comm]
  | accept _ packet _ _ control type | refuse _ packet control type | ignore _ packet control _ type
  | request _ packet control type =>
      rw [control] at balance
      rw [balance]
      simp [goto, Control.replies, Packet.isRequest, type]
  | sendFull _ packet control | close _ control =>
      rw [control] at balance
      rw [Fifo.sent_send, List.countP_append, balance]
      simp [goto, Control.replies, Packet.isReply]
  | respond _ packet rest control =>
      rw [control] at balance
      rw [Fifo.sent_send, List.countP_append, balance]
      simp only [goto, Control.replies, List.countP_cons, List.countP_nil]
      omega
  | serve =>
      rw [Fifo.sent_send, List.countP_append, balance]
      simp [Packet.isReply]
  | cook | consume | wakeSpuriously | regenerate => exact balance

end KitchenWorker

namespace Kitchen

variable {nCooks : Nat} {limit : Option Nat}

/-- A step of the main thread is a main transition of the process. -/
theorem main_step {kitchen next : Kitchen nCooks} {label : KitchenLabel nCooks}
    (taken : kitchen.step limit label = some next) (main : label.Main) :
    ∃ wake, KitchenWorker.Transition limit kitchen.now kitchen.site (.main wake) next.site := by
  cases label with
  | process moved =>
      obtain ⟨site, stepped, rfl⟩ := Option.map_eq_some_iff.mp taken
      cases moved with
      | main wake => exact ⟨wake, KitchenWorker.transition_of_step stepped⟩
      | cook | wakeSpuriously | regenerate => cases main
  | deliver | collect | elapse => cases main

/-- The loop does not begin again. -/
theorem leaves_stable :
    (machine nCooks limit).Stable fun kitchen => kitchen.site.process.control.leaves = true := by
  intro kitchen next label _ leaves taken
  by_cases main : label.Main
  · obtain ⟨wake, moved⟩ := main_step taken main
    exact (moved.departs leaves).1
  · rw [control_step taken main]
    exact leaves

/-- A received shutdown packet ends the loop. -/
theorem leaves_of_shutdown {kitchen : Kitchen nCooks}
    (reached : (machine nCooks limit).Reachable kitchen) :
    ∀ packet ∈ kitchen.site.orderQueue.received, packet.type = .shutdown →
      kitchen.site.process.control.leaves = true := by
  refine reached.invariant (motive := fun kitchen => ∀ packet ∈ kitchen.site.orderQueue.received,
    packet.type = .shutdown → kitchen.site.process.control.leaves = true)
    (fun _ member => by cases member) ?_
  intro kitchen next label reached before _ taken packet member shutdown
  by_cases old : packet ∈ kitchen.site.orderQueue.received
  · exact leaves_stable reached (before packet old shutdown) taken
  rcases step_cases taken with ⟨moved, site, rfl, rfl, stepped⟩ | ⟨other, _⟩
  · cases stepped with
    | poll _ packet' orderQueue _ received other =>
        rw [(Fifo.receive_eq_some_iff.mp received).2] at member
        rcases List.mem_append.mp member with earlier | last
        · exact absurd earlier old
        · obtain rfl := List.mem_singleton.mp last
          exact absurd shutdown other
    | pollShutdown => rfl
    | advance | pollEmpty | accept | refuse | request | ignore | sendFull | respond | stop | notify
    | join | close | cook | consume | serve | wakeSpuriously | regenerate => exact absurd member old
  · cases label with
    | process moved => exact absurd rfl (other moved)
    | deliver | elapse =>
        cases taken
        exact absurd member old
    | collect =>
        obtain ⟨_, _, rfl⟩ := Option.map_eq_some_iff.mp taken
        exact absurd member old

/-- The histories of the queues of a later moment extend those of an earlier one. -/
theorem orders_later (execution : (machine nCooks limit).Execution) {start moment : Nat}
    (late : start ≤ moment) :
    (execution.state start).site.orderQueue.sent <+: (execution.state moment).site.orderQueue.sent ∧
      (execution.state start).site.orderQueue.received <+:
        (execution.state moment).site.orderQueue.received :=
  Machine.Execution.keeps (motive := fun kitchen : Kitchen nCooks =>
      (execution.state start).site.orderQueue.sent <+: kitchen.site.orderQueue.sent ∧
        (execution.state start).site.orderQueue.received <+: kitchen.site.orderQueue.received)
    ⟨List.prefix_rfl, List.prefix_rfl⟩
    (fun _ _ _ before _ taken => ⟨before.1.trans (orderQueue_step taken).1,
      before.2.trans (orderQueue_step taken).2⟩) late

/-- The results that a kitchen has sent stay sent. -/
theorem results_step {kitchen next : Kitchen nCooks} {label : KitchenLabel nCooks}
    (taken : kitchen.step limit label = some next) :
    kitchen.site.resultQueue.sent <+: next.site.resultQueue.sent := by
  cases label with
  | deliver | elapse =>
      cases taken
      exact List.prefix_rfl
  | collect =>
      obtain ⟨_, received, rfl⟩ := Option.map_eq_some_iff.mp taken
      rw [Fifo.sent_receive received]
  | process label =>
      obtain ⟨site, stepped, rfl⟩ := Option.map_eq_some_iff.mp taken
      cases KitchenWorker.transition_of_step stepped with
      | sendFull | respond | close | serve =>
          rw [Fifo.sent_send]
          exact List.prefix_append _ _
      | advance | pollEmpty | pollShutdown | poll | accept | refuse | request | ignore | stop
      | notify | join | cook | consume | wakeSpuriously | regenerate => exact List.prefix_rfl

theorem results_later (execution : (machine nCooks limit).Execution) {start moment : Nat}
    (late : start ≤ moment) :
    (execution.state start).site.resultQueue.sent <+:
      (execution.state moment).site.resultQueue.sent :=
  Machine.Execution.keeps (motive := fun kitchen : Kitchen nCooks =>
      (execution.state start).site.resultQueue.sent <+: kitchen.site.resultQueue.sent)
    List.prefix_rfl (fun _ _ _ before _ taken => before.trans (results_step taken)) late

/-- A received request is answered or in hand. -/
theorem replies_of_reachable {kitchen : Kitchen nCooks}
    (reached : (machine nCooks limit).Reachable kitchen) :
    kitchen.site.orderQueue.received.countP Packet.isRequest =
      kitchen.site.process.control.replies + kitchen.site.resultQueue.sent.countP Packet.isReply := by
  refine reached.invariant (motive := fun kitchen =>
    kitchen.site.orderQueue.received.countP Packet.isRequest =
      kitchen.site.process.control.replies + kitchen.site.resultQueue.sent.countP Packet.isReply)
    rfl ?_
  intro kitchen next label _ balance _ taken
  cases label with
  | deliver | elapse =>
      cases taken
      exact balance
  | collect =>
      obtain ⟨_, received, rfl⟩ := Option.map_eq_some_iff.mp taken
      rw [Fifo.sent_receive received]
      exact balance
  | process label =>
      obtain ⟨site, stepped, rfl⟩ := Option.map_eq_some_iff.mp taken
      exact (KitchenWorker.transition_of_step stepped).replies balance

/-- A process that has exited takes no step. -/
theorem disabled_of_exited {kitchen : Kitchen nCooks}
    (reached : (machine nCooks limit).Reachable kitchen)
    (exits : kitchen.site.process.hasExited = true) (thread : KitchenLabel nCooks → Prop)
    (own : ∀ label, thread label → ∃ moved, label = .process moved) :
    ¬(machine nCooks limit).Enables thread kitchen := by
  rintro ⟨label, next, chosen, taken⟩
  obtain ⟨moved, rfl⟩ := own label chosen
  obtain ⟨site, stepped, rfl⟩ := Option.map_eq_some_iff.mp taken
  have runs := (KitchenWorker.transition_of_step stepped).active (valid_of_reachable reached)
  rw [runs] at exits
  cases exits

/-- A kitchen that sleeps and goes on later has slept to the end. -/
theorem slept_of_awake (execution : (machine nCooks limit).Execution) {moment last : Nat}
    (late : moment ≤ last) {running : Bool} {wakeTime : Nat}
    (awake : (execution.state last).site.process.control ≠ .sleeping running wakeTime)
    (sleeps : (execution.state moment).site.process.control = .sleeping running wakeTime) :
    ∃ later, moment ≤ later ∧ wakeTime ≤ (execution.state later).now := by
  by_contra never
  have early : ∀ later, moment ≤ later → ¬wakeTime ≤ (execution.state later).now :=
    fun later late elapsed => never ⟨later, late, elapsed⟩
  have still : (execution.state last).site.process.control = .sleeping running wakeTime := by
    refine Machine.Execution.keeps (motive := fun kitchen : Kitchen nCooks =>
      kitchen.site.process.control = .sleeping running wakeTime) sleeps ?_ late
    intro between label since asleep _ taken
    by_cases main : label.Main
    · obtain ⟨wake, moved⟩ := main_step taken main
      exact absurd (moved.slept asleep) (early between since)
    · rw [control_step taken main, asleep]
  exact awake still

/-- A kitchen that sleeps and exits later has slept to the end. -/
theorem slept_of_exited (execution : (machine nCooks limit).Execution) {moment last : Nat}
    (late : moment ≤ last) (exits : (execution.state last).site.process.hasExited = true)
    {running : Bool} {wakeTime : Nat}
    (sleeps : (execution.state moment).site.process.control = .sleeping running wakeTime) :
    ∃ later, moment ≤ later ∧ wakeTime ≤ (execution.state later).now :=
  slept_of_awake execution late (fun still => by simp [KitchenWorker.hasExited, still] at exits) sleeps

/-- A run that ends with the exit of the kitchen is a scheduled execution. -/
theorem scheduled_of_exited {labels : List (KitchenLabel nCooks)} {last : Kitchen nCooks}
    (ran : (machine nCooks none).run (fun _ _ => true) (machine nCooks none).initial labels =
      some last) (exits : last.site.process.hasExited = true)
    (readable : ∀ packet ∈ last.site.orderQueue.sent, packet.Readable) :
    Scheduled (Machine.Execution.resting (machine nCooks none) labels) := by
  have ends : ∀ {moment}, labels.length ≤ moment →
      (Machine.Execution.resting (machine nCooks none) labels).state moment = last :=
    Machine.Execution.state_resting ran
  have reached : (machine nCooks none).Reachable last :=
    ends le_rfl ▸ Machine.Execution.reachable _ labels.length
  have rests := fun thread own => Machine.Execution.fair_resting ran
    (disabled_of_exited reached exits thread own)
  refine ⟨rests _ ?_, fun index => rests _ ?_, rests _ ?_, ?_, fun moment => ⟨moment, le_rfl, .inr rfl⟩, ?_⟩
  · rintro (_ | _ | moved | _) chosen <;> first | exact ⟨moved, rfl⟩ | cases chosen
  · rintro (_ | _ | moved | _) chosen <;> first | exact ⟨moved, rfl⟩ | cases chosen
  · rintro (_ | _ | moved | _) chosen <;> first | exact ⟨moved, rfl⟩ | cases chosen
  · intro moment running wakeTime sleeps
    refine slept_of_exited _ (le_max_left moment labels.length) ?_ sleeps
    rw [ends (le_max_right _ _)]
    exact exits
  · intro moment packet sent
    have kept := (orders_later _ (le_max_left moment labels.length)).1.subset sent
    rw [ends (le_max_right _ _)] at kept
    exact readable packet kept

/-- The check of a packet in a run. -/
theorem readable_of_check {packet : Packet}
    (checked : (decide (packet.type ≠ .pizza) || (unpack packet.pizza).isSome) = true) :
    packet.Readable := by
  intro pizza
  simp only [pizza, ne_eq, not_true_eq_false, decide_false, Bool.false_or] at checked
  exact Option.isSome_iff_exists.mp checked

/-- The check of a run: the kitchen has exited and was sent readable packets. -/
theorem scheduled_of_run {labels : List (KitchenLabel nCooks)}
    (ended : ((machine nCooks none).run (fun _ _ => true) (machine nCooks none).initial labels).any
      (fun kitchen => kitchen.site.process.hasExited && kitchen.site.orderQueue.sent.all fun packet =>
        packet.type ≠ .pizza || (unpack packet.pizza).isSome) = true) :
    Scheduled (Machine.Execution.resting (machine nCooks none) labels) := by
  obtain ⟨last, ran, ended⟩ := (Option.any_eq_true _ _).mp ended
  rw [Bool.and_eq_true, List.all_eq_true] at ended
  exact scheduled_of_exited ran ended.1 fun packet sent => readable_of_check (ended.2 packet sent)

/-- The only cook of a kitchen serves a pizza and sleeps, the main thread answers a request, handles the
shutdown packet and stops the pool, and the cook leaves. -/
def stoppedLabels : List (KitchenLabel 1) :=
  let main : KitchenLabel 1 := .process (.main fun _ => true)
  let cook : KitchenLabel 1 := .process (.cook (Fin.last 0))
  let pause : KitchenLabel 1 := .elapse kPollInterval
  [.deliver { type := .pizza, pizza := pack ⟨.margarita, .s⟩ }, .deliver { type := .statusRequest },
    .deliver { type := .shutdown }] ++
  List.replicate 6 main ++ List.replicate 7 cook ++ [pause] ++ List.replicate 11 main ++ [pause] ++
  List.replicate 4 main ++ [pause] ++ List.replicate 3 main ++ [cook]

/-- The kitchen exits. -/
def closingLabels : List (KitchenLabel 1) :=
  stoppedLabels ++ List.replicate 2 (.process (.main fun _ => true))

theorem scheduled_closing :
    Scheduled (Machine.Execution.resting (machine 1 none) closingLabels) :=
  scheduled_of_run (by decide)

section Scheduled

variable {execution : (machine nCooks limit).Execution} (scheduled : Scheduled execution)
include scheduled

/-- The rule for the main thread: its steps lower the rank and the other ones leave it. -/
theorem leadsTo_of_main {before after : Kitchen nCooks → Prop} (rank : Kitchen nCooks → Nat)
    (keep : ∀ {kitchen next label}, (machine nCooks limit).Reachable kitchen → before kitchen →
      kitchen.step limit label = some next → after next ∨ before next ∧
        (rank next < rank kitchen ∨ rank next = rank kitchen ∧ ¬label.Main))
    (runs : ∀ {kitchen}, before kitchen → kitchen.site.process.hasExited = false) :
    execution.LeadsTo before after := by
  refine Machine.Execution.leadsTo_of_rank scheduled.main rank keep fun moment rests => ?_
  obtain ⟨later, late, ready⟩ := ready_of_rest scheduled moment (runs (rests moment le_rfl).1)
    fun later late => (rests later late).2
  exact ⟨later, late, enables_main (stocked_of_reachable (execution.reachable later)) ready⟩

/-- A kitchen that has left its loop exits. -/
theorem exited_of_leaves :
    execution.LeadsTo (fun kitchen => kitchen.site.process.control.leaves = true)
      fun kitchen => kitchen.site.process.hasExited = true := by
  have departs : execution.LeadsTo
      (fun kitchen => kitchen.site.process.control.leaves = true ∧
        kitchen.site.process.hasExited = false)
      fun kitchen => kitchen.site.process.hasExited = true := by
    refine leadsTo_of_main scheduled (fun kitchen => kitchen.site.process.control.departure) ?_
      fun here => here.2
    rintro kitchen next label reached ⟨leaves, _⟩ taken
    cases exits : next.site.process.hasExited with
    | true => exact .inl rfl
    | false =>
        refine .inr ⟨⟨leaves_stable reached leaves taken, rfl⟩, ?_⟩
        by_cases main : label.Main
        · obtain ⟨wake, moved⟩ := main_step taken main
          exact .inl (moved.departs leaves).2
        · exact .inr ⟨by rw [control_step taken main], main⟩
  refine .cases (fun _ : Unit => departs) fun {kitchen} _ leaves => ?_
  cases exits : kitchen.site.process.hasExited with
  | true => exact .inl rfl
  | false => exact .inr ⟨(), leaves, rfl⟩

/-- The next unread packet is received, unless the loop ends before. -/
theorem received_next (count : Nat) :
    execution.LeadsTo
      (fun kitchen => (kitchen.site.orderQueue.received.length = count ∧
        count < kitchen.site.orderQueue.sent.length) ∧
          kitchen.site.process.control.leaves = false)
      fun kitchen => kitchen.site.process.control.leaves = true ∨
        count < kitchen.site.orderQueue.received.length := by
  refine leadsTo_of_main scheduled (fun kitchen => kitchen.site.process.control.distance nCooks) ?_
    fun {kitchen} here => ?_
  · rintro kitchen next label reached ⟨⟨received, unread⟩, stays⟩ taken
    cases left : next.site.process.control.leaves with
    | true => exact .inl (.inl rfl)
    | false =>
        have queue := orderQueue_step taken
        by_cases more : count < next.site.orderQueue.received.length
        · exact .inl (.inr more)
        refine .inr ⟨⟨⟨?_, unread.trans_le queue.1.length_le⟩, rfl⟩, ?_⟩
        · have grows := queue.2.length_le
          omega
        by_cases main : label.Main
        · obtain ⟨wake, moved⟩ := main_step taken main
          have pending : kitchen.site.orderQueue.pending ≠ [] := by
            rw [Fifo.sent, List.length_append] at unread
            exact List.ne_nil_of_length_pos (by omega)
          rcases moved.closer stays pending with gone | grew | closer
          · rw [left] at gone
            cases gone
          · exact absurd (received ▸ grew) more
          · exact .inl closer
        · exact .inr ⟨by rw [control_step taken main], main⟩
  · unfold KitchenWorker.hasExited
    split
    · rename_i control
      rw [control] at here
      cases here.2
    · rfl

/-- Every packet is received, unless the loop ends before. -/
theorem received_count (count : Nat) :
    execution.LeadsTo (fun kitchen => count < kitchen.site.orderQueue.sent.length)
      fun kitchen => kitchen.site.process.control.leaves = true ∨
        count < kitchen.site.orderQueue.received.length := by
  refine .of_counter (fun _ waits taken => waits.trans_le (orderQueue_step taken).1.length_le)
    _ count fun value less => .cases (fun _ : Unit => received_next scheduled value)
      fun {kitchen} _ ⟨unread, received⟩ => ?_
  cases left : kitchen.site.process.control.leaves with
  | true => exact .inl (.inl rfl)
  | false => exact .inr ⟨(), ⟨received, less.trans_lt unread⟩, rfl⟩

/-- The packets that a kitchen was sent are received, unless it exits before. -/
theorem leadsTo_received (sent : List Packet) :
    execution.LeadsTo (fun kitchen => kitchen.site.orderQueue.sent = sent) fun kitchen =>
      kitchen.site.process.hasExited = true ∨ sent <+: kitchen.site.orderQueue.received := by
  rintro moment rfl
  cases length : (execution.state moment).site.orderQueue.sent.length with
  | zero =>
      rw [List.length_eq_zero_iff.mp length]
      exact ⟨moment, le_rfl, .inr List.nil_prefix⟩
  | succ count =>
      obtain ⟨middle, late, left | received⟩ := received_count scheduled count moment (by omega)
      · obtain ⟨later, beyond, exits⟩ := exited_of_leaves scheduled middle left
        exact ⟨later, late.trans beyond, .inl exits⟩
      · refine ⟨middle, late, .inr ?_⟩
        have sent := (orders_later execution late).1
        have history : (execution.state middle).site.orderQueue.received <+:
            (execution.state middle).site.orderQueue.sent := List.prefix_append _ _
        exact List.prefix_of_prefix_length_le sent history (by omega)

/-- A kitchen receives every packet of its order queue, unless it exits before. -/
theorem received_of_fair (moment : Nat) :
    ∃ later, moment ≤ later ∧
      ((execution.state later).site.process.hasExited = true ∨
        (execution.state moment).site.orderQueue.sent <+:
          (execution.state later).site.orderQueue.received) :=
  leadsTo_received scheduled _ moment rfl

omit scheduled in
/-- All three packets of the run are received. -/
theorem received_closing :
    ∃ execution : (machine 1 none).Execution, Scheduled execution ∧
      (execution.state 3).site.orderQueue.sent.length = 3 ∧
      ∃ later, 3 ≤ later ∧ ((execution.state later).site.process.hasExited = true ∨
        (execution.state 3).site.orderQueue.sent <+:
          (execution.state later).site.orderQueue.received) :=
  ⟨_, scheduled_closing, by decide, received_of_fair scheduled_closing 3⟩

/-- A shutdown packet ends the process. -/
theorem leadsTo_exited :
    execution.LeadsTo
      (fun kitchen => ∃ packet ∈ kitchen.site.orderQueue.sent, packet.type = .shutdown)
      fun kitchen => kitchen.site.process.hasExited = true := by
  rintro moment ⟨packet, sent, shutdown⟩
  obtain ⟨middle, late, exits | received⟩ := leadsTo_received scheduled _ moment rfl
  · exact ⟨middle, late, exits⟩
  · have leaves := leaves_of_shutdown (execution.reachable middle) packet (received.subset sent)
      shutdown
    obtain ⟨later, beyond, exits⟩ := exited_of_leaves scheduled middle leaves
    exact ⟨later, late.trans beyond, exits⟩

/-- The main thread gets through what it is busy with. -/
theorem free_of_busy (busy : Control → Prop) (idle : ¬busy .exited)
    (closer : ∀ {now wake} {site next : Site (KitchenWorker nCooks)},
      KitchenWorker.Transition limit now site (.main wake) next →
      busy site.process.control → ¬busy next.process.control ∨
        next.process.control.distance nCooks < site.process.control.distance nCooks) :
    execution.LeadsTo (fun kitchen => busy kitchen.site.process.control)
      fun kitchen => ¬busy kitchen.site.process.control := by
  refine leadsTo_of_main scheduled (fun kitchen => kitchen.site.process.control.distance nCooks) ?_
    fun {kitchen} here => ?_
  · intro kitchen next label _ here taken
    by_cases free : busy next.site.process.control
    · refine .inr ⟨free, ?_⟩
      by_cases main : label.Main
      · obtain ⟨wake, moved⟩ := main_step taken main
        exact .inl ((closer moved here).resolve_left fun done => done free)
      · exact .inr ⟨by rw [control_step taken main], main⟩
    · exact .inl free
  · unfold KitchenWorker.hasExited
    split
    · rename_i control
      rw [control] at here
      exact absurd here idle
    · rfl

/-- The pizza packets that a kitchen has received are answered with done and full packets. -/
theorem leadsTo_answered (received : List Packet) :
    execution.LeadsTo (fun kitchen => kitchen.site.orderQueue.received = received) fun kitchen =>
      tags Packet.isPizza received ≤ tags Packet.isAnswer kitchen.site.resultQueue.sent := by
  rintro moment rfl
  obtain ⟨middle, late, free⟩ : ∃ middle, moment ≤ middle ∧
      (execution.state middle).site.process.control.hand = 0 := by
    by_cases free : (execution.state moment).site.process.control.hand = 0
    · exact ⟨moment, le_rfl, free⟩
    · obtain ⟨middle, late, done⟩ := free_of_busy scheduled (fun control => control.hand ≠ 0)
        (fun busy => busy rfl) (fun moved busy => (moved.handsOver busy).imp_left not_not.mpr)
        moment free
      exact ⟨middle, late, not_not.mp done⟩
  obtain ⟨later, beyond, finished⟩ := PoolClient.leadsTo_finished (pool_fair scheduled) _ middle rfl
  refine ⟨later, late.trans beyond, ?_⟩
  obtain ⟨before, honest⟩ := accounted_of_reachable (execution.reachable middle)
  obtain ⟨after, _⟩ := accounted_of_reachable (execution.reachable later)
  -- a free main thread has answered or accepted everything that it has received
  have balance : tags Packet.isPizza (execution.state middle).site.orderQueue.received =
      ((execution.state middle).site.process.pool.accepted.map Ticket.tag : List _) +
        tags Packet.isFull (execution.state middle).site.resultQueue.sent := by
    rw [honest.balance, Pizzeria.tags_isAnswer, before.done, before.accepted]
    change _ + (execution.state middle).site.process.pool.owes + _ = _
    rw [free, zero_add, add_assoc]
  calc tags Packet.isPizza (execution.state moment).site.orderQueue.received
      ≤ tags Packet.isPizza (execution.state middle).site.orderQueue.received :=
        tags_mono _ (orders_later execution late).2
    _ = ((execution.state middle).site.process.pool.accepted.map Ticket.tag : List _) +
          tags Packet.isFull (execution.state middle).site.resultQueue.sent := balance
    _ ≤ (execution.state later).site.process.pool.settled +
          tags Packet.isFull (execution.state later).site.resultQueue.sent := by
        refine add_le_add ?_ (tags_mono _ (results_later execution beyond))
        refine le_trans ?_ (ThreadPool.finished_le_settled _)
        have cooked := Multiset.map_le_map (f := Ticket.tag) (Multiset.coe_le.mpr finished)
        rwa [Multiset.map_coe, Multiset.map_coe, List.map_map] at cooked
    _ = tags Packet.isAnswer (execution.state later).site.resultQueue.sent := by
        rw [Pizzeria.tags_isAnswer, after.done]

/-- The status requests that a kitchen has received are answered with replies. -/
theorem leadsTo_replied (received : List Packet) :
    execution.LeadsTo (fun kitchen => kitchen.site.orderQueue.received = received) fun kitchen =>
      received.countP Packet.isRequest ≤
        kitchen.site.resultQueue.sent.countP Packet.isReply := by
  rintro moment rfl
  obtain ⟨later, late, free⟩ : ∃ later, moment ≤ later ∧
      (execution.state later).site.process.control.replies = 0 := by
    by_cases free : (execution.state moment).site.process.control.replies = 0
    · exact ⟨moment, le_rfl, free⟩
    · obtain ⟨later, late, done⟩ := free_of_busy scheduled (fun control => control.replies ≠ 0)
        (fun busy => busy rfl) (fun moved busy => (moved.answers busy).imp_left not_not.mpr) moment free
      exact ⟨later, late, not_not.mp done⟩
  refine ⟨later, late, ?_⟩
  have balance := replies_of_reachable (execution.reachable later)
  have grows := ((orders_later execution late).2.sublist.countP_le (p := Packet.isRequest))
  omega

/-- Every status request that a kitchen has received is answered with a reply. -/
theorem replied_of_fair (moment : Nat) :
    ∃ later, moment ≤ later ∧
      (execution.state moment).site.orderQueue.received.countP Packet.isRequest ≤
        (execution.state later).site.resultQueue.sent.countP Packet.isReply :=
  leadsTo_replied scheduled _ moment rfl

omit scheduled in
/-- The request of the run is answered. -/
theorem replied_closing :
    ∃ execution : (machine 1 none).Execution, Scheduled execution ∧
      (execution.state 19).site.orderQueue.received.countP Packet.isRequest = 1 ∧
      ∃ later, 19 ≤ later ∧
        (execution.state 19).site.orderQueue.received.countP Packet.isRequest ≤
          (execution.state later).site.resultQueue.sent.countP Packet.isReply :=
  ⟨_, scheduled_closing, by decide, replied_of_fair scheduled_closing 19⟩

end Scheduled

end Kitchen

end Plazza
