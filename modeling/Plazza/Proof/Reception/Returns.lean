import Plazza.Proof.Reception.Turns

namespace Plazza
open Plazza.Foundation

/-- The call goes through passes over the pending ids. -/
def Call.Collecting : Call → Prop
  | polling _ _ | answering _ _ _ _ _ => True
  | _ => False

namespace Pizzeria

section Process

variable {P : KitchenProcess} {nCooks : Nat} {limit : Option Nat} {contract : P.Contract}

/-- The reception waits only for a process that it has sent a shutdown packet. -/
def Summons (pizzeria : Pizzeria P) : Prop :=
  ∀ id, pizzeria.Awaits id →
    ∃ packet ∈ (pizzeria.sites id).orderQueue.sent, packet.type = .shutdown

/-- Every run keeps it so. -/
theorem summons_of_reachable (contract : P.Contract) {guard : Pizzeria P → PizzeriaLabel P → Prop}
    {pizzeria : Pizzeria P} (reached : (machine P nCooks limit).ReachableUnder guard pizzeria) :
    pizzeria.Summons := by
  refine reached.invariant (motive := Summons) (fun id ⟨_, _, awaits, _⟩ => by cases awaits) ?_
  rintro pizzeria next label before summons _ taken id ⟨index, handle, awaits, found, rfl⟩
  cases transition_of_step taken with
  | order | status | poll | close => cases awaits
  | skip _ chosen | erase _ chosen | spawn _ chosen | report _ _ chosen | destroy _ chosen =>
      subst awaits
      cases (next_awaiting chosen).1
  | apply position operation call kitchen outcome chosen here effect =>
      subst awaits
      cases (next_awaiting chosen).1
      obtain ⟨inside, _⟩ := List.getElem?_eq_some_iff.mp here
      simp only [touch, kitchens_record, List.getElem?_set_self inside] at found
      obtain rfl := Option.some.inj found
      cases effect
      simp only [touch, sites_record, Function.update_self]
      exact ⟨_, by rw [Fifo.sent_send]; exact List.mem_append_right _ (List.mem_singleton_self _), rfl⟩
  | kitchen moved label site spawned stepped =>
      obtain ⟨packet, sent, shutdown⟩ := summons handle.id ⟨index, handle, awaits, found, rfl⟩
      refine ⟨packet, ?_, shutdown⟩
      by_cases same : handle.id = moved
      · subst same
        simp only [Function.update_self]
        rwa [(Site.frame_step ((registered_of_reachable contract before).honest handle.id) stepped).1]
      · simpa only [Function.update_of_ne same] using sent
  | elapse => exact summons handle.id ⟨index, handle, awaits, found, rfl⟩

/-- The others leave a running call and the handles alone. -/
theorem call_step {pizzeria next : Pizzeria P} {label : PizzeriaLabel P}
    (moved : Transition nCooks limit pizzeria label next) (running : pizzeria.call ≠ .idle)
    (other : ¬label.Reception) :
    next.call = pizzeria.call ∧ next.kitchens = pizzeria.kitchens := by
  cases moved with
  | order _ _ _ idle | status idle | poll idle | close idle => exact absurd idle running
  | skip | apply | erase | spawn | report | destroy => exact absurd trivial other
  | kitchen | elapse => exact ⟨rfl, rfl⟩

/-- The reception is only destroyed together with its handles. -/
theorem next_destroyed {pizzeria : Pizzeria P} {action : Action}
    (chosen : pizzeria.next = some (action, .destroyed)) : action = .destroy := by
  unfold next at chosen
  repeat' split at chosen
  all_goals cases chosen
  rfl

/-- A destroyed reception has no handles. -/
theorem kitchens_of_destroyed {guard : Pizzeria P → PizzeriaLabel P → Prop} {pizzeria : Pizzeria P}
    (reached : (machine P nCooks limit).ReachableUnder guard pizzeria)
    (destroyed : pizzeria.call = .destroyed) : pizzeria.kitchens = [] := by
  revert destroyed
  refine reached.invariant (motive := fun pizzeria => pizzeria.call = .destroyed →
    pizzeria.kitchens = []) (fun idle => by cases idle) ?_
  intro pizzeria next label _ before _ taken destroyed
  cases transition_of_step taken with
  | order | status | poll | close => cases destroyed
  | skip _ chosen | apply _ _ _ _ _ chosen | erase _ chosen | spawn _ chosen | report _ _ chosen =>
      subst destroyed
      cases next_destroyed chosen
  | destroy => rfl
  | kitchen | elapse => exact before destroyed

/-- A call outside of `getStatus` does not enter it. -/
theorem elsewhere_step {pizzeria next : Pizzeria P} {label : PizzeriaLabel P}
    (registered : pizzeria.Registered contract)
    (moved : Transition nCooks limit pizzeria label next) (running : pizzeria.call ≠ .idle)
    (elsewhere : pizzeria.call.Elsewhere) : next.call.Elsewhere := by
  have stays : ∀ {action : Action} {call : Call}, pizzeria.next = some (action, call) →
      call.Elsewhere := by
    intro action call chosen
    obtain ⟨_, after, _⟩ | consults := consultation_of_next registered.ids chosen
    · exact after
    · generalize pizzeria.call = current at consults elsewhere
      cases consults <;> exact elsewhere.elim
  cases moved with
  | order _ _ _ idle | status idle | poll idle | close idle => exact absurd idle running
  | skip _ chosen | apply _ _ _ _ _ chosen | erase _ chosen | spawn _ chosen | report _ _ chosen
  | destroy _ chosen => exact stays chosen
  | kitchen | elapse => exact elsewhere

/-- `requestStatusForAll` goes on or begins the first pass. -/
theorem requesting_step {pizzeria next : Pizzeria P} {label : PizzeriaLabel P}
    (moved : Transition nCooks limit pizzeria label next)
    (requesting : ∃ index pendingIDs, pizzeria.call = .requesting index pendingIDs) :
    (∃ index pendingIDs, next.call = .requesting index pendingIDs) ∨ next.call.Collecting := by
  obtain ⟨index, pendingIDs, running⟩ := requesting
  have continues : ∀ {action : Action} {call : Call}, pizzeria.next = some (action, call) →
      (∃ index pendingIDs, call = .requesting index pendingIDs) ∨ call.Collecting := by
    intro action call chosen
    cases consultation_of_requesting running chosen with
    | asked => exact .inr trivial
    | ask | pass => exact .inl ⟨_, _, rfl⟩
  cases moved with
  | order _ _ _ idle | status idle | poll idle | close idle =>
      rw [running] at idle
      cases idle
  | skip _ chosen | apply _ _ _ _ _ chosen | erase _ chosen | spawn _ chosen | report _ _ chosen
  | destroy _ chosen => exact continues chosen
  | kitchen | elapse => exact .inl ⟨index, pendingIDs, running⟩

/-- The passes over the pending ids send nothing and end with the call. -/
theorem next_collecting {pizzeria : Pizzeria P} {action : Action} {call : Call}
    (registered : pizzeria.Registered contract) (collecting : pizzeria.call.Collecting)
    (chosen : pizzeria.next = some (action, call)) :
    (call = .idle ∨ call.Collecting) ∧
      ∀ index operation, action = .apply index operation → operation = .handle := by
  obtain ⟨elsewhere, _⟩ | consults := consultation_of_next registered.ids chosen
  · cases running : pizzeria.call <;> rw [running] at elsewhere collecting <;>
      first | exact collecting.elim | exact elsewhere.elim
  · generalize pizzeria.call = current at consults collecting
    cases consults with
    | asked | ask | pass => exact collecting.elim
    | finish => exact ⟨.inl rfl, by simp⟩
    | again | drop | enter | answered | lost | wait => exact ⟨.inr trivial, by simp⟩
    | hear => exact ⟨.inr trivial, fun _ _ same => (Action.apply.inj same).2.symm⟩

/-- The passes go on until the call returns. -/
theorem collecting_step {pizzeria next : Pizzeria P} {label : PizzeriaLabel P}
    (registered : pizzeria.Registered contract)
    (moved : Transition nCooks limit pizzeria label next) (collecting : pizzeria.call.Collecting) :
    next.call = .idle ∨ next.call.Collecting := by
  cases moved with
  | order _ _ _ idle | status idle | poll idle | close idle =>
      rw [idle] at collecting
      exact collecting.elim
  | skip _ chosen | apply _ _ _ _ _ chosen | erase _ chosen | spawn _ chosen | report _ _ chosen
  | destroy _ chosen => exact (next_collecting registered collecting chosen).1
  | kitchen | elapse => exact .inr collecting

end Process

variable {nCooks : Nat} {limit : Option Nat}

/-- The passes send nothing to a kitchen. -/
theorem orders_of_collecting {pizzeria next : Pizzeria (KitchenWorker.process nCooks limit)}
    {label : PizzeriaLabel (KitchenWorker.process nCooks limit)}
    (reached : (machine (KitchenWorker.process nCooks limit) nCooks limit).Reachable pizzeria)
    (moved : Transition nCooks limit pizzeria label next) (collecting : pizzeria.call.Collecting)
    {id : Nat} (spawned : id < pizzeria.nextKitchenId) :
    (next.sites id).orderQueue.sent = (pizzeria.sites id).orderQueue.sent := by
  have registered := registered_of_reachable (KitchenWorker.contract nCooks limit) reached
  refine forall_sites (fun other site => other = id →
    site.orderQueue.sent = (pizzeria.sites id).orderQueue.sent) moved
    (fun same => absurd same spawned.ne') ?_ ?_ (by rintro _ rfl; rfl) id rfl
  · intro index operation handle outcome _ chosen _ effect here same
    obtain rfl := (next_collecting registered collecting chosen).2 index operation rfl
    cases effect
    exact here same
  · intro other label site _ _ stepped here same
    rw [(Site.frame_step (registered.honest other) stepped).1]
    exact here same

/-- A kitchen has exited or has sent a reply to every request. -/
def Answers (site : Site (KitchenWorker nCooks)) : Prop :=
  site.process.hasExited = true ∨
    site.orderQueue.sent.countP Packet.isRequest ≤ site.resultQueue.sent.countP Packet.isReply

/-- A kitchen that has answered stays so while no request is sent. -/
theorem answers_step {pizzeria next : Pizzeria (KitchenWorker.process nCooks limit)}
    {label : PizzeriaLabel (KitchenWorker.process nCooks limit)}
    (reached : (machine (KitchenWorker.process nCooks limit) nCooks limit).Reachable pizzeria)
    (moved : Transition nCooks limit pizzeria label next) (collecting : pizzeria.call.Collecting)
    (id : Nat) (answers : Answers (pizzeria.sites id)) : Answers (next.sites id) := by
  have registered := registered_of_reachable (KitchenWorker.contract nCooks limit) reached
  refine forall_sites (fun other site => other = id → Answers site) moved
    (fun _ => .inr (Nat.zero_le _)) ?_ ?_ (by rintro _ rfl; exact answers) id rfl
  · intro index operation handle outcome _ chosen _ effect here same
    obtain rfl := (next_collecting registered collecting chosen).2 index operation rfl
    cases effect with
    | handle packet resultQueue _ _ received =>
        rcases here same with exits | enough
        · exact .inl exits
        · exact .inr (by rw [Fifo.sent_receive received]; exact enough)
  · intro other label site _ _ stepped here same
    rcases here same with exits | enough
    · have runs : (pizzeria.sites other).process.hasExited = false :=
        Site.exited_step (registered.honest other) stepped
      rw [exits] at runs
      cases runs
    · have taken : Kitchen.step limit ⟨pizzeria.sites other, pizzeria.now⟩ (.process label) =
          some ⟨site, pizzeria.now⟩ := Option.map_eq_some_iff.mpr ⟨site, stepped, rfl⟩
      have grows := (Kitchen.results_step taken).sublist.countP_le (p := Packet.isReply)
      refine .inr (le_trans ?_ grows)
      rw [(Site.frame_step (registered.honest other) stepped).1]
      exact enough

/-- A live kitchen that has answered is settled while its reply is awaited. -/
theorem settled_of_answers {pizzeria : Pizzeria (KitchenWorker.process nCooks limit)}
    (reached : (machine (KitchenWorker.process nCooks limit) nCooks limit).Reachable pizzeria)
    {kitchen : KitchenHandle} (member : kitchen ∈ pizzeria.kitchens) (alive : kitchen.alive = true)
    (awaited : kitchen.id ∈ pizzeria.call.awaitedIDs)
    (answers : Answers (pizzeria.sites kitchen.id)) : (pizzeria.sites kitchen.id).Settled := by
  rcases answers with exits | enough
  · exact .inl exits
  right
  obtain ⟨exchanges, consulted⟩ := exists_consulted reached
  have asked := (consulted.truthful kitchen.id).asked
  have owed := consulted.owed kitchen member alive
  have waits := List.count_pos_iff.mpr awaited
  rw [← asked, Fifo.sent, List.countP_append] at enough
  obtain ⟨packet, pending, reply⟩ := List.countP_pos_iff.mp
    (show 0 < (pizzeria.sites kitchen.id).resultQueue.pending.countP Packet.isReply by omega)
  exact ⟨packet, pending, of_decide_eq_true reply⟩

/-- Every process that was spawned has exited when the reception is destroyed. -/
theorem exited_of_destroyed {pizzeria : Pizzeria (KitchenWorker.process nCooks limit)}
    (reached : (machine (KitchenWorker.process nCooks limit) nCooks limit).Reachable pizzeria)
    (destroyed : pizzeria.call = .destroyed) {id : Nat} (spawned : id < pizzeria.nextKitchenId) :
    (pizzeria.sites id).process.hasExited = true :=
  (closing_of_reachable (KitchenWorker.contract nCooks limit) reached).gone id spawned
    (by rw [kitchens_of_destroyed reached destroyed]; exact fun _ none => by cases none)

/-- No kitchen thread has a step once every process has exited. -/
theorem disabled_of_exited {pizzeria : Pizzeria (KitchenWorker.process nCooks limit)}
    (reached : (machine (KitchenWorker.process nCooks limit) nCooks limit).Reachable pizzeria)
    (exits : ∀ id < pizzeria.nextKitchenId, (pizzeria.sites id).process.hasExited = true)
    (id : Nat) (thread : KitchenLabel nCooks → Prop) :
    ¬(machine (KitchenWorker.process nCooks limit) nCooks limit).Enables
      (PizzeriaLabel.Kitchen id thread) pizzeria := by
  rintro ⟨label, next, chosen, taken⟩
  cases label with
  | kitchen moved label =>
      have moves : Transition nCooks limit pizzeria (.kitchen moved label) next :=
        transition_of_step taken
      cases moves with
      | kitchen _ _ site spawned stepped =>
          have registered := registered_of_reachable (KitchenWorker.contract nCooks limit) reached
          have runs : (pizzeria.sites moved).process.hasExited = false :=
            Site.exited_step (registered.honest moved) stepped
          rw [exits moved spawned] at runs
          cases runs
  | order | status | poll | close | reception | elapse => cases chosen

/-- An execution in which every process exits is scheduled when the reception gets its turns. -/
theorem scheduled_of_exited
    {execution : (machine (KitchenWorker.process nCooks limit) nCooks limit).Execution} (start : Nat)
    (reception : execution.Fair PizzeriaLabel.Reception)
    (exits : ∀ moment, start ≤ moment → ∀ id < (execution.state moment).nextKitchenId,
      ((execution.state moment).sites id).process.hasExited = true) : Scheduled execution := by
  have rests := fun id thread => Machine.Execution.fair_of_disabled
    fun moment (late : start ≤ moment) =>
      disabled_of_exited (execution.reachable moment) (exits moment late) id thread
  refine ⟨reception, fun id => rests id _, fun id _ => rests id _, fun id => rests id _, ?_⟩
  intro id moment running wakeTime sleeps
  have spawned : id < (execution.state moment).nextKitchenId := by
    by_contra beyond
    have fresh := (registered_of_reachable (KitchenWorker.contract nCooks limit)
      (execution.reachable moment)).unspawned id (Nat.not_lt.mp beyond)
    rw [fresh] at sleeps
    cases sleeps
  have still := Machine.Execution.stays (spawned_stable id) (le_max_left moment start) spawned
  exact Kitchen.slept_of_exited (execution.map (refines_kitchen nCooks limit id))
    (le_max_left moment start) (exits _ (le_max_right _ _) id still) sleeps

/-- A destroyed reception has no statement. -/
theorem disabled_of_destroyed {pizzeria : Pizzeria (KitchenWorker.process nCooks limit)}
    (destroyed : pizzeria.call = .destroyed) :
    ¬(machine (KitchenWorker.process nCooks limit) nCooks limit).Enables PizzeriaLabel.Reception
      pizzeria := by
  rintro ⟨label, next, chosen, taken⟩
  cases label with
  | reception =>
      obtain ⟨_, statement, _⟩ := Option.bind_eq_some_iff.mp taken
      rw [Pizzeria.next, destroyed] at statement
      cases statement
  | order | status | poll | close | kitchen | elapse => cases chosen

/-- A run that ends with the destruction of the reception is a scheduled execution. -/
theorem scheduled_of_destroyed
    {labels : List (PizzeriaLabel (KitchenWorker.process nCooks limit))}
    {last : Pizzeria (KitchenWorker.process nCooks limit)}
    (ran : (machine (KitchenWorker.process nCooks limit) nCooks limit).run (fun _ _ => true)
      (machine (KitchenWorker.process nCooks limit) nCooks limit).initial labels = some last)
    (destroyed : last.call = .destroyed) :
    Scheduled (Machine.Execution.resting
      (machine (KitchenWorker.process nCooks limit) nCooks limit) labels) := by
  refine scheduled_of_exited labels.length
    (Machine.Execution.fair_resting ran (disabled_of_destroyed destroyed)) fun moment late id spawned =>
      exited_of_destroyed (Machine.Execution.reachable _ moment) ?_ spawned
  rw [Machine.Execution.state_resting ran late, destroyed]

/-- The reception serves an order, asks for the status, handles the done packet and shuts down. -/
def serviceLabels : List (PizzeriaLabel (KitchenWorker.process 1 (some 10))) :=
  let reception (count : Nat) : List (PizzeriaLabel (KitchenWorker.process 1 (some 10))) :=
    List.replicate count .reception
  let main (count : Nat) : List (PizzeriaLabel (KitchenWorker.process 1 (some 10))) :=
    List.replicate count (.kitchen 0 (.main fun _ => true))
  let cook (count : Nat) : List (PizzeriaLabel (KitchenWorker.process 1 (some 10))) :=
    List.replicate count (.kitchen 0 (.cook (Fin.last 0)))
  let pause : PizzeriaLabel (KitchenWorker.process 1 (some 10)) := .elapse kPollInterval
  .order [⟨.margarita, .s, 1⟩] :: reception 4 ++ main 6 ++ cook 7 ++ pause ::
    .status :: reception 2 ++ main 11 ++ reception 6 ++ .poll :: reception 4 ++
    .close :: reception 1 ++ pause :: main 4 ++ pause :: main 3 ++ cook 1 ++ main 2 ++ reception 2

theorem scheduled_service :
    Scheduled (Machine.Execution.resting
      (machine (KitchenWorker.process 1 (some 10)) 1 (some 10)) serviceLabels) := by
  obtain ⟨last, ran, destroyed⟩ := (Option.any_eq_true _ _).mp
    (show ((machine (KitchenWorker.process 1 (some 10)) 1 (some 10)).run (fun _ _ => true)
      (machine (KitchenWorker.process 1 (some 10)) 1 (some 10)).initial serviceLabels).any
      (fun pizzeria => decide (pizzeria.call = .destroyed)) = true by decide)
  exact scheduled_of_destroyed ran (of_decide_eq_true destroyed)

theorem roomy_service : Roomy 1 (some 10) := by
  intro capacity same
  obtain rfl := Option.some.inj same
  decide

/-- The shutdown of the reception is never left. -/
theorem ending_stable : (machine (KitchenWorker.process nCooks limit) nCooks limit).Stable
    fun pizzeria => pizzeria.call.ending = true :=
  fun _ here taken => ending_of_step (transition_of_step taken) here

section Scheduled

variable {execution : (machine (KitchenWorker.process nCooks limit) nCooks limit).Execution}
  (scheduled : Scheduled execution) (roomy : Roomy nCooks limit)
include scheduled roomy

/-- A process that the reception waits for exits. -/
theorem exited_of_awaits (moment : Nat) (id : Nat)
    (awaits : (execution.state moment).Awaits id) :
    ∃ later, moment ≤ later ∧ ((execution.state later).sites id).process.hasExited = true := by
  have reached := execution.reachable moment
  have registered := registered_of_reachable (KitchenWorker.contract nCooks limit) reached
  obtain ⟨packet, sent, shutdown⟩ :=
    summons_of_reachable (KitchenWorker.contract nCooks limit) reached id awaits
  obtain ⟨index, handle, _, found, rfl⟩ := awaits
  have spawned := registered.spawned handle (List.mem_of_getElem? found)
  exact Kitchen.leadsTo_exited (scheduled.kitchen roomy spawned) moment ⟨packet, sent, shutdown⟩

/-- A running call that rests has a step again. -/
theorem enabled_of_rest (moment : Nat)
    (runs : ∀ later, moment ≤ later → (execution.state later).call ≠ .idle ∧
      (execution.state later).call ≠ .destroyed)
    (rests : ∀ later, moment ≤ later → ¬execution.Takes PizzeriaLabel.Reception later) :
    ∃ later, moment ≤ later ∧ (machine (KitchenWorker.process nCooks limit) nCooks limit).Enables
      PizzeriaLabel.Reception (execution.state later) := by
  have stands : ∀ {later}, moment ≤ later →
      (execution.state later).call = (execution.state moment).call ∧
        (execution.state later).kitchens = (execution.state moment).kitchens := by
    intro later late
    refine Machine.Execution.keeps (motive := fun pizzeria : Pizzeria _ =>
      pizzeria.call = (execution.state moment).call ∧
        pizzeria.kitchens = (execution.state moment).kitchens) ⟨rfl, rfl⟩ ?_ late
    intro between label since before labelled taken
    obtain ⟨call, kitchens⟩ := call_step (transition_of_step taken) (runs between since).1
      fun own => rests between since ⟨label, labelled, own⟩
    exact ⟨call.trans before.1, kitchens.trans before.2⟩
  by_cases awaiting : ∃ id, (execution.state moment).Awaits id
  · obtain ⟨id, awaits⟩ := awaiting
    obtain ⟨later, late, exits⟩ := exited_of_awaits scheduled roomy moment id awaits
    refine ⟨later, late, enables_reception roomy (execution.reachable later) (runs later late) ?_⟩
    obtain ⟨index, handle, call, found, rfl⟩ := awaits
    rintro _ ⟨other, known, waits, there, rfl⟩
    rw [(stands late).1, call] at waits
    cases waits
    rw [(stands late).2] at there
    obtain rfl := Option.some.inj (found.symm.trans there)
    exact exits
  · exact ⟨moment, le_rfl, enables_reception roomy (execution.reachable moment)
      (runs moment le_rfl) fun id awaits => absurd ⟨id, awaits⟩ awaiting⟩

/-- The rule for the reception: a call that never repeats a pass does its work. -/
theorem leadsTo_of_work
    {before after : Pizzeria (KitchenWorker.process nCooks limit) → Prop}
    (keep : ∀ {pizzeria next label},
      (machine (KitchenWorker.process nCooks limit) nCooks limit).Reachable pizzeria →
      before pizzeria → Transition nCooks limit pizzeria label next → after next ∨ before next)
    (runs : ∀ {pizzeria},
      (machine (KitchenWorker.process nCooks limit) nCooks limit).Reachable pizzeria →
      before pizzeria →
        (pizzeria.call ≠ .idle ∧ pizzeria.call ≠ .destroyed) ∧ ¬pizzeria.Keeps) :
    execution.LeadsTo before after := by
  refine Machine.Execution.leadsTo_of_rank scheduled.reception (work nCooks) ?_ ?_
  · intro pizzeria next label reached here taken
    have moved := transition_of_step taken
    have registered := registered_of_reachable (KitchenWorker.contract nCooks limit) reached
    refine (keep reached here moved).imp_right fun there => ⟨there, ?_⟩
    by_cases own : label = .reception
    · subst own
      exact .inl ((work_lt registered (length_sent_le reached) moved).resolve_right
        (runs reached here).2)
    · refine .inr ⟨work_eq registered moved (runs reached here).1.1 own, ?_⟩
      intro reception
      cases label <;> first | exact own rfl | cases reception
  · intro moment rests
    exact enabled_of_rest scheduled roomy moment
      (fun later late => (runs (execution.reachable later) (rests later late).1).1)
      fun later late => (rests later late).2

/-- A call outside of `getStatus` ends. -/
theorem ended_of_elsewhere :
    execution.LeadsTo (fun pizzeria => pizzeria.call.Elsewhere)
      fun pizzeria => pizzeria.call = .idle ∨ pizzeria.call = .destroyed := by
  have works : execution.LeadsTo
      (fun pizzeria => pizzeria.call.Elsewhere ∧ pizzeria.call ≠ .idle ∧ pizzeria.call ≠ .destroyed)
      fun pizzeria => pizzeria.call = .idle ∨ pizzeria.call = .destroyed := by
    refine leadsTo_of_work scheduled roomy ?_ ?_
    · rintro pizzeria next label reached ⟨elsewhere, running, _⟩ moved
      have registered := registered_of_reachable (KitchenWorker.contract nCooks limit) reached
      by_cases ended : next.call = .idle ∨ next.call = .destroyed
      · exact .inl ended
      · exact .inr ⟨elsewhere_step registered moved running elsewhere, not_or.mp ended⟩
    · rintro pizzeria _ ⟨elsewhere, runs⟩
      refine ⟨runs, ?_⟩
      rintro ⟨_, _, _, _, _, call, _⟩
      rw [call] at elsewhere
      exact elsewhere
  refine .cases (fun _ : Unit => works) fun {pizzeria} _ elsewhere => ?_
  by_cases ended : pizzeria.call = .idle ∨ pizzeria.call = .destroyed
  · exact .inl ended
  · exact .inr ⟨(), elsewhere, not_or.mp ended⟩

/-- The shutdown of the reception ends. -/
theorem destroyed_of_ending :
    execution.LeadsTo (fun pizzeria => pizzeria.call.ending = true)
      fun pizzeria => pizzeria.call = .destroyed := by
  intro moment ending
  have elsewhere : (execution.state moment).call.Elsewhere := by
    cases call : (execution.state moment).call <;> rw [call] at ending <;> trivial
  obtain ⟨later, late, idle | destroyed⟩ := ended_of_elsewhere scheduled roomy moment elsewhere
  · have still : (execution.state later).call.ending = true :=
      Machine.Execution.stays ending_stable late ending
    rw [idle] at still
    cases still
  · exact ⟨later, late, destroyed⟩

/-- Every kitchen answers while the passes go on. -/
theorem answers_of_collecting (moment : Nat)
    (collecting : ∀ later, moment ≤ later → (execution.state later).call.Collecting) :
    ∃ later, moment ≤ later ∧ ∀ id, Answers ((execution.state later).sites id) := by
  have lasts : ∀ id {start later}, moment ≤ start → start ≤ later →
      Answers ((execution.state start).sites id) → Answers ((execution.state later).sites id) := by
    intro id start later begun late answers
    refine Machine.Execution.keeps (motive := fun pizzeria : Pizzeria
      (KitchenWorker.process nCooks limit) => Answers (pizzeria.sites id)) answers ?_ late
    intro between label since before _ taken
    exact answers_step (execution.reachable between) (transition_of_step taken)
      (collecting between (begun.trans since)) id before
  have each : ∀ id : Fin (execution.state moment).nextKitchenId, ∃ later, moment ≤ later ∧
      Answers ((execution.state later).sites id) := by
    intro id
    have kitchen := scheduled.kitchen roomy id.isLt
    obtain ⟨middle, late, exits | received⟩ := Kitchen.leadsTo_received kitchen _ moment rfl
    · exact ⟨middle, late, .inl exits⟩
    obtain ⟨later, beyond, replied⟩ := Kitchen.leadsTo_replied kitchen _ middle rfl
    have orders : ((execution.state later).sites id).orderQueue.sent =
        ((execution.state moment).sites id).orderQueue.sent := by
      refine Machine.Execution.keeps (motive := fun pizzeria : Pizzeria _ =>
        (pizzeria.sites id).orderQueue.sent = ((execution.state moment).sites id).orderQueue.sent)
        rfl ?_ (late.trans beyond)
      intro between label since before _ taken
      exact (orders_of_collecting (execution.reachable between) (transition_of_step taken)
        (collecting between since)
        (Machine.Execution.stays (spawned_stable id) since id.isLt)).trans before
    refine ⟨later, late.trans beyond, .inr ?_⟩
    rw [orders]
    exact (received.sublist.countP_le (p := Packet.isRequest)).trans replied
  obtain ⟨later, late, answers⟩ := exists_all (fun id : Fin _ => lasts id) each
  refine ⟨later, late, fun id => ?_⟩
  rcases Nat.lt_or_ge id (execution.state moment).nextKitchenId with spawned | unspawned
  · exact answers ⟨id, spawned⟩
  · refine lasts id le_rfl late ?_
    rw [(registered_of_reachable (KitchenWorker.contract nCooks limit)
      (execution.reachable moment)).unspawned id unspawned]
    exact .inr (Nat.zero_le _)

/-- The passes over the pending ids end. -/
theorem idle_of_collecting :
    execution.LeadsTo (fun pizzeria => pizzeria.call.Collecting) fun pizzeria =>
      pizzeria.call = .idle := by
  have works : execution.LeadsTo
      (fun pizzeria => pizzeria.call.Collecting ∧ ∀ id, Answers (pizzeria.sites id))
      fun pizzeria => pizzeria.call = .idle := by
    refine leadsTo_of_work scheduled roomy ?_ ?_
    · rintro pizzeria next label reached ⟨collecting, answers⟩ moved
      have registered := registered_of_reachable (KitchenWorker.contract nCooks limit) reached
      exact (collecting_step registered moved collecting).imp_right fun goes =>
        ⟨goes, fun id => answers_step reached moved collecting id (answers id)⟩
    · rintro pizzeria reached ⟨collecting, answers⟩
      refine ⟨⟨?_, ?_⟩, ?_⟩
      · intro idle
        rw [idle] at collecting
        exact collecting
      · intro destroyed
        rw [destroyed] at collecting
        exact collecting
      · rintro ⟨kept, id, index, rest, kitchen, running, found, empty, alive⟩
        have registered := registered_of_reachable (KitchenWorker.contract nCooks limit) reached
        obtain ⟨there, here, rfl⟩ := (consulting_of_reachable (KitchenWorker.contract nCooks limit)
          reached).answering kept id index rest false running
        obtain rfl := Option.some.inj (found.symm.trans here)
        have member := List.mem_of_getElem? found
        have awaited : kitchen.id ∈ pizzeria.call.awaitedIDs := by
          rw [running]
          exact List.mem_append_right _ List.mem_cons_self
        exact not_settled_of_empty registered
          (heeded_of_reachable (KitchenWorker.contract nCooks limit) reached kitchen member) alive empty
          (settled_of_answers reached member alive awaited (answers kitchen.id))
  intro moment collecting
  by_contra never
  have goes : ∀ later, moment ≤ later → (execution.state later).call.Collecting := by
    intro later late
    refine Machine.Execution.keeps (motive := fun pizzeria : Pizzeria _ => pizzeria.call.Collecting)
      collecting ?_ late
    intro between label since before _ taken
    have registered := registered_of_reachable (KitchenWorker.contract nCooks limit)
      (execution.reachable between)
    exact (collecting_step registered (transition_of_step taken) before).resolve_left fun idle =>
      never ⟨between + 1, by omega, idle⟩
  obtain ⟨middle, late, answers⟩ := answers_of_collecting scheduled roomy moment goes
  obtain ⟨later, beyond, idle⟩ := works middle ⟨goes middle late, answers⟩
  exact never ⟨later, late.trans beyond, idle⟩

/-- A call leads to its return or to the end of the reception. -/
theorem leadsTo_returned :
    execution.LeadsTo (fun _ => True) fun pizzeria =>
      pizzeria.call = .idle ∨ pizzeria.call = .destroyed := by
  intro moment _
  have requested : execution.LeadsTo
      (fun pizzeria => ∃ index pendingIDs, pizzeria.call = .requesting index pendingIDs)
      fun pizzeria => pizzeria.call.Collecting := by
    refine leadsTo_of_work scheduled roomy ?_ ?_
    · intro pizzeria next label reached requesting moved
      exact (requesting_step moved requesting).symm
    · rintro pizzeria _ ⟨index, pendingIDs, running⟩
      refine ⟨by simp [running], ?_⟩
      rintro ⟨_, _, _, _, _, answering, _⟩
      rw [running] at answering
      cases answering
  have collects := idle_of_collecting scheduled roomy
  cases call : (execution.state moment).call with
  | requesting index pendingIDs =>
      obtain ⟨later, late, idle⟩ := (requested.trans collects) moment ⟨index, pendingIDs, call⟩
      exact ⟨later, late, .inl idle⟩
  | polling | answering =>
      obtain ⟨later, late, idle⟩ := collects moment (by simp only [call]; trivial)
      exact ⟨later, late, .inl idle⟩
  | idle | updating | draining | dispatching | shuttingDown | awaiting | destroyed =>
      exact ended_of_elsewhere scheduled roomy moment (by simp only [call]; trivial)

/-- The shutdown of the reception ends, and then every kitchen process has exited. -/
theorem closed_of_fair (moment : Nat)
    (ending : (execution.state moment).call.ending = true) :
    ∃ later, moment ≤ later ∧ (execution.state later).call = .destroyed ∧
      ∀ id < (execution.state later).nextKitchenId,
        ((execution.state later).sites id).process.hasExited = true := by
  obtain ⟨later, late, destroyed⟩ := destroyed_of_ending scheduled roomy moment ending
  exact ⟨later, late, destroyed, fun id spawned =>
    exited_of_destroyed (execution.reachable later) destroyed spawned⟩

omit scheduled roomy in
/-- The shutdown of the run ends. -/
theorem closed_service :
    ∃ execution : (machine (KitchenWorker.process 1 (some 10)) 1 (some 10)).Execution,
      Scheduled execution ∧ ∃ moment later, moment ≤ later ∧
        (execution.state later).call = .destroyed ∧
          ∀ id < (execution.state later).nextKitchenId,
            ((execution.state later).sites id).process.hasExited = true := by
  obtain ⟨moment, ending⟩ := Machine.Execution.exists_resting
    (machine (KitchenWorker.process 1 (some 10)) 1 (some 10)) (List.take_prefix 45 serviceLabels)
    (fun pizzeria => pizzeria.call.ending) (by decide)
  exact ⟨_, scheduled_service, moment, closed_of_fair scheduled_service roomy_service moment ending⟩

end Scheduled

end Pizzeria

end Plazza
