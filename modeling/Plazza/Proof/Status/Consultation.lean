import Plazza.Proof.Reception.Closing
import Plazza.Proof.Status.Decode

namespace Plazza
open Plazza.Foundation

/-- The reception still waits for the replies of these kitchens. -/
def Call.awaitedIDs : Call → List Nat
  | requesting _ pendingIDs => pendingIDs
  | polling kept rest => kept ++ rest
  | answering kept id _ rest gotReply => if gotReply then kept ++ rest else kept ++ id :: rest
  | _ => []

/-- The ids that the call of `getStatus` goes through. -/
def Call.listedIDs : Call → List Nat
  | requesting _ pendingIDs => pendingIDs
  | polling kept rest => kept ++ rest
  | answering kept id _ rest _ => kept ++ id :: rest
  | _ => []

/-- The call of `getStatus` has passed the position in `requestStatusForAll`. -/
def Call.Asked (position : Nat) : Call → Prop
  | requesting index _ => position < index
  | polling _ _ | answering _ _ _ _ _ => True
  | _ => False

/-- The reception is not in `getStatus`. -/
def Call.Elsewhere : Call → Prop
  | requesting _ _ | polling _ _ | answering _ _ _ _ _ => False
  | _ => True

namespace Pizzeria

variable {P : KitchenProcess} {nCooks : Nat} {limit : Option Nat}

/-- The statements of `getStatus` from one call state to the next. -/
inductive Consultation (pizzeria : Pizzeria P) : Call → Action → Call → Prop
  | asked (index : Nat) (pendingIDs : List Nat) (past : pizzeria.kitchens[index]? = none) :
      Consultation pizzeria (.requesting index pendingIDs) .skip (.polling [] pendingIDs)
  | ask (index : Nat) (pendingIDs : List Nat) (kitchen : KitchenHandle)
      (found : pizzeria.kitchens[index]? = some kitchen) (alive : kitchen.alive = true) :
      Consultation pizzeria (.requesting index pendingIDs) (.apply index .request)
        (.requesting (index + 1) (pendingIDs ++ [kitchen.id]))
  | pass (index : Nat) (pendingIDs : List Nat) (kitchen : KitchenHandle)
      (found : pizzeria.kitchens[index]? = some kitchen) (dead : kitchen.alive = false) :
      Consultation pizzeria (.requesting index pendingIDs) .skip (.requesting (index + 1) pendingIDs)
  | finish : Consultation pizzeria (.polling [] []) .report .idle
  | again (id : Nat) (kept : List Nat) :
      Consultation pizzeria (.polling (id :: kept) []) .skip (.polling [] (id :: kept))
  | drop (kept : List Nat) (id : Nat) (rest : List Nat)
      (dead : ∀ kitchen ∈ pizzeria.kitchens, kitchen.id = id → kitchen.alive = false) :
      Consultation pizzeria (.polling kept (id :: rest)) .skip (.polling kept rest)
  | enter (kept : List Nat) (id : Nat) (rest : List Nat) (index : Nat) (kitchen : KitchenHandle)
      (found : pizzeria.kitchens[index]? = some kitchen) (same : kitchen.id = id) :
      Consultation pizzeria (.polling kept (id :: rest)) .skip (.answering kept id index rest false)
  | hear (kept : List Nat) (id index : Nat) (rest : List Nat) (gotReply : Bool)
      (kitchen : KitchenHandle) (packet : Packet) (found : pizzeria.kitchens[index]? = some kitchen)
      (oldest : pizzeria.inbox kitchen = some packet) :
      Consultation pizzeria (.answering kept id index rest gotReply) (.apply index .handle)
        (.answering kept id index rest (gotReply || packet.isReply))
  | answered (kept : List Nat) (id index : Nat) (rest : List Nat) :
      Consultation pizzeria (.answering kept id index rest true) .skip (.polling kept rest)
  | lost (kept : List Nat) (id index : Nat) (rest : List Nat) (kitchen : KitchenHandle)
      (found : pizzeria.kitchens[index]? = some kitchen) (dead : kitchen.alive = false) :
      Consultation pizzeria (.answering kept id index rest false) .skip (.polling kept rest)
  | wait (kept : List Nat) (id index : Nat) (rest : List Nat) :
      Consultation pizzeria (.answering kept id index rest false) .skip (.polling (kept ++ [id]) rest)

/-- A position and an id name the same handle. -/
theorem eq_of_id {kitchens : List KitchenHandle} (ids : (kitchens.map KitchenHandle.id).Nodup)
    {kitchen other : KitchenHandle} (member : kitchen ∈ kitchens) (inside : other ∈ kitchens)
    (same : kitchen.id = other.id) : kitchen = other := by
  exact List.inj_on_of_nodup_map ids member inside same

/-- `requestStatusForAll` asks the live kitchens in order. -/
theorem consultation_of_requesting {pizzeria : Pizzeria P} {action : Action} {call : Call}
    {index : Nat} {pendingIDs : List Nat} (running : pizzeria.call = .requesting index pendingIDs)
    (chosen : pizzeria.next = some (action, call)) :
    Consultation pizzeria (.requesting index pendingIDs) action call := by
  rw [next, running] at chosen
  dsimp only at chosen
  split at chosen
  · cases chosen
    exact .asked index pendingIDs ‹_›
  · rename_i kitchen found
    split at chosen <;> cases chosen
    · exact .ask index pendingIDs kitchen found ‹_›
    · exact .pass index pendingIDs kitchen found (Bool.eq_false_of_not_eq_true ‹_›)

/-- A pass over the pending ids enters the live kitchens and drops the others. -/
theorem consultation_of_polling {pizzeria : Pizzeria P} {action : Action} {call : Call}
    (ids : (pizzeria.kitchens.map KitchenHandle.id).Nodup) {kept : List Nat} {id : Nat}
    {rest : List Nat} (running : pizzeria.call = .polling kept (id :: rest))
    (chosen : pizzeria.next = some (action, call)) :
    Consultation pizzeria (.polling kept (id :: rest)) action call := by
  cases position : pizzeria.kitchens.findIdx? fun kitchen => kitchen.id = id with
  | none =>
      have leaves : call = .polling kept rest ∧ action = .skip := by
        cases kept <;> rw [next, running] at chosen <;> simp only [position] at chosen <;>
          cases chosen <;> exact ⟨rfl, rfl⟩
      obtain ⟨rfl, rfl⟩ := leaves
      refine .drop kept id rest fun kitchen member same => ?_
      have other := List.findIdx?_eq_none_iff.mp position kitchen member
      exact absurd same (by simpa using other)
  | some index =>
      obtain ⟨inside, here, _⟩ := List.findIdx?_eq_some_iff_getElem.mp position
      have same : pizzeria.kitchens[index].id = id := by simpa using here
      have found : pizzeria.kitchens[index]? = some pizzeria.kitchens[index] :=
        List.getElem?_eq_getElem inside
      have entered : (if pizzeria.kitchens[index].alive = true then
            some (Action.skip, Call.answering kept id index rest false)
          else some (Action.skip, Call.polling kept rest)) = some (action, call) := by
        cases kept <;> rw [next, running] at chosen <;>
          simpa only [position, found, Option.map_some, Option.getD_some] using chosen
      split at entered <;> cases entered
      · exact .enter kept id rest index _ found same
      · rename_i dead
        refine .drop kept id rest fun kitchen member twin => ?_
        rw [eq_of_id ids member (List.getElem_mem inside) (twin.trans same.symm)]
        simpa using dead

/-- `processPendingKitchen` reads one packet at a time and leaves when it stops. -/
theorem consultation_of_answering {pizzeria : Pizzeria P} {action : Action} {call : Call}
    {kept : List Nat} {id index : Nat} {rest : List Nat} {gotReply : Bool}
    (running : pizzeria.call = .answering kept id index rest gotReply)
    (chosen : pizzeria.next = some (action, call)) :
    Consultation pizzeria (.answering kept id index rest gotReply) action call := by
  rw [next, running] at chosen
  dsimp only at chosen
  split at chosen
  · cases chosen
  · rename_i kitchen found
    split at chosen
    · rename_i packet oldest
      cases chosen
      exact .hear kept id index rest gotReply kitchen packet found oldest
    · split at chosen <;> cases chosen
      · rename_i done
        cases gotReply with
        | true => exact .answered kept id index rest
        | false => exact .lost kept id index rest kitchen found (by simpa using done)
      · rename_i waits
        obtain rfl : gotReply = false := by
          cases gotReply with
          | false => rfl
          | true => simp at waits
        exact .wait kept id index rest

/-- The reception stays out of `getStatus` or takes a statement of it. -/
theorem consultation_of_next {pizzeria : Pizzeria P} {action : Action} {call : Call}
    (ids : (pizzeria.kitchens.map KitchenHandle.id).Nodup)
    (chosen : pizzeria.next = some (action, call)) :
    (pizzeria.call.Elsewhere ∧ call.Elsewhere ∧ ∀ index, action ≠ .apply index .request) ∨
      Consultation pizzeria pizzeria.call action call := by
  cases running : pizzeria.call with
  | requesting index pendingIDs => exact .inr (consultation_of_requesting running chosen)
  | polling kept rest =>
      cases rest with
      | nil =>
          cases kept with
          | nil =>
              rw [next, running] at chosen
              cases chosen
              exact .inr .finish
          | cons id kept =>
              rw [next, running] at chosen
              cases chosen
              exact .inr (.again id kept)
      | cons id rest => exact .inr (consultation_of_polling ids running chosen)
  | answering kept id index rest gotReply => exact .inr (consultation_of_answering running chosen)
  | dispatching todo origin spawned =>
      left
      rcases todo with _ | ⟨pizza, rest⟩ <;> cases spawned <;> rw [next, running] at chosen <;>
        dsimp only at chosen
      all_goals try split at chosen
      all_goals cases chosen
      all_goals exact ⟨trivial, trivial, by intro index same; cases same⟩
  | idle | updating | draining | shuttingDown | awaiting | destroyed =>
      left
      rw [next, running] at chosen
      dsimp only at chosen
      repeat' split at chosen
      all_goals cases chosen
      all_goals exact ⟨trivial, trivial, by intro index same; cases same⟩

/-- The running call of `getStatus` knows each kitchen that it has asked once. -/
structure Consulting (pizzeria : Pizzeria P) : Prop where
  requested : ∀ index pendingIDs, pizzeria.call = .requesting index pendingIDs →
    pendingIDs = ((pizzeria.kitchens.take index).filter KitchenHandle.alive).map KitchenHandle.id
  answering : ∀ kept id index rest gotReply,
    pizzeria.call = .answering kept id index rest gotReply →
      ∃ kitchen, pizzeria.kitchens[index]? = some kitchen ∧ kitchen.id = id
  listed : pizzeria.call.listedIDs.Nodup

/-- Outside of `getStatus` there is nothing to know. -/
theorem Consulting.elsewhere {pizzeria : Pizzeria P} (elsewhere : pizzeria.call.Elsewhere) :
    pizzeria.Consulting := by
  refine ⟨?_, ?_, ?_⟩
  · intro index pendingIDs running
    rw [running] at elsewhere
    exact elsewhere.elim
  · intro kept id index rest gotReply running
    rw [running] at elsewhere
    exact elsewhere.elim
  · cases running : pizzeria.call <;> rw [running] at elsewhere <;>
      first | exact elsewhere.elim | exact List.nodup_nil

/-- The ids of some handles in the order of the list are distinct. -/
theorem nodup_requested {kitchens : List KitchenHandle}
    (ids : (kitchens.map KitchenHandle.id).Nodup) (index : Nat) :
    (((kitchens.take index).filter KitchenHandle.alive).map KitchenHandle.id).Nodup :=
  ids.sublist ((List.filter_sublist.trans (List.take_sublist _ _)).map _)

/-- A handle is not among the handles before it. -/
theorem not_mem_requested {kitchens : List KitchenHandle} {index : Nat} {kitchen : KitchenHandle}
    (ids : (kitchens.map KitchenHandle.id).Nodup) (found : kitchens[index]? = some kitchen) :
    kitchen.id ∉ ((kitchens.take index).filter KitchenHandle.alive).map KitchenHandle.id := by
  obtain ⟨inside, rfl⟩ := List.getElem?_eq_some_iff.mp found
  have first := ids.sublist ((List.take_sublist (index + 1) kitchens).map KitchenHandle.id)
  rw [List.take_succ_eq_append_getElem inside, List.map_append, List.map_singleton,
    List.nodup_append] at first
  intro member
  have earlier := (List.filter_sublist.map KitchenHandle.id).mem member
  exact first.2.2 _ earlier _ (List.mem_singleton.mpr rfl) rfl

/-- A pass over distinct ids may leave one out. -/
theorem nodup_drop {kept rest : List Nat} {id : Nat} (listed : (kept ++ id :: rest).Nodup) :
    (kept ++ rest).Nodup :=
  listed.sublist ((List.sublist_cons_self id rest).append_left kept)

/-- A call state of `getStatus` that has asked the kitchens below an index knows them. -/
theorem Consulting.requesting {pizzeria : Pizzeria P}
    (ids : (pizzeria.kitchens.map KitchenHandle.id).Nodup) {index : Nat} {pendingIDs : List Nat}
    (running : pizzeria.call = .requesting index pendingIDs)
    (asked : pendingIDs =
      ((pizzeria.kitchens.take index).filter KitchenHandle.alive).map KitchenHandle.id) :
    pizzeria.Consulting := by
  refine ⟨?_, ?_, ?_⟩
  · intro other pending same
    obtain ⟨rfl, rfl⟩ := Call.requesting.inj (running.symm.trans same)
    exact asked
  · intro kept id index rest gotReply same
    cases running.symm.trans same
  · rw [running, asked]
    exact nodup_requested ids index

/-- A pass over the pending ids asks no kitchen. -/
theorem Consulting.polling {pizzeria : Pizzeria P} {kept rest : List Nat}
    (running : pizzeria.call = .polling kept rest) (listed : (kept ++ rest).Nodup) :
    pizzeria.Consulting := by
  refine ⟨?_, ?_, ?_⟩
  · intro index pendingIDs same
    cases running.symm.trans same
  · intro kept id index rest gotReply same
    cases running.symm.trans same
  · rw [running]
    exact listed

/-- The entered kitchen has the id of the pass. -/
theorem Consulting.entered {pizzeria : Pizzeria P} {kept rest : List Nat} {id index : Nat}
    {gotReply : Bool} (running : pizzeria.call = .answering kept id index rest gotReply)
    {kitchen : KitchenHandle} (found : pizzeria.kitchens[index]? = some kitchen)
    (same : kitchen.id = id) (listed : (kept ++ id :: rest).Nodup) : pizzeria.Consulting := by
  refine ⟨?_, ?_, ?_⟩
  · intro index pendingIDs other
    cases running.symm.trans other
  · intro kept' id' index' rest' gotReply' other
    obtain ⟨rfl, rfl, rfl, rfl, rfl⟩ := Call.answering.inj (running.symm.trans other)
    exact ⟨kitchen, found, same⟩
  · rw [running]
    exact listed

/-- Every statement of the reception keeps the knowledge of the running call. -/
theorem Consulting.reception {pizzeria next : Pizzeria P} {contract : P.Contract}
    (consulting : pizzeria.Consulting) (registered : pizzeria.Registered contract)
    (moved : Transition nCooks limit pizzeria .reception next) : next.Consulting := by
  have ids := registered.ids_step moved
  cases moved with
  | skip call chosen =>
      obtain ⟨_, elsewhere, _⟩ | consults := consultation_of_next registered.ids chosen
      · exact .elsewhere elsewhere
      · obtain ⟨requested, answering, listed⟩ := consulting
        generalize running : pizzeria.call = before at consults listed
        cases consults with
        | asked index pendingIDs past =>
            exact .polling rfl listed
        | pass index pendingIDs kitchen found dead =>
            obtain ⟨inside, rfl⟩ := List.getElem?_eq_some_iff.mp found
            refine .requesting registered.ids rfl ?_
            rw [requested index pendingIDs running, List.take_succ_eq_append_getElem inside,
              List.filter_append, List.filter_singleton, dead, cond_false, List.append_nil]
        | again id kept => exact .polling rfl (by simpa [Call.listedIDs] using listed)
        | drop kept id rest dead => exact .polling rfl (nodup_drop listed)
        | enter kept id rest index kitchen found same => exact .entered rfl found same listed
        | answered kept id index rest => exact .polling rfl (nodup_drop listed)
        | lost kept id index rest kitchen found dead => exact .polling rfl (nodup_drop listed)
        | wait kept id index rest =>
            refine .polling rfl ?_
            rw [List.append_assoc]
            exact listed
  | apply index operation call handle outcome chosen found effect =>
      obtain ⟨_, elsewhere, _⟩ | consults := consultation_of_next registered.ids chosen
      · exact .elsewhere elsewhere
      · obtain ⟨requested, answering, listed⟩ := consulting
        generalize running : pizzeria.call = before at consults listed
        cases consults with
        | ask index pendingIDs kitchen here alive =>
            obtain rfl := Option.some.inj (found.symm.trans here)
            obtain ⟨inside, rfl⟩ := List.getElem?_eq_some_iff.mp found
            refine .requesting ids rfl ?_
            cases effect
            simp only [touch, kitchens_record]
            rw [requested index pendingIDs running,
              List.take_succ_eq_append_getElem (by simpa using inside),
              List.take_set_of_le le_rfl, List.getElem_set_self, List.filter_append,
              List.filter_singleton]
            simp [alive]
        | hear kept id index rest gotReply kitchen packet here oldest =>
            obtain ⟨known, there, same⟩ := answering kept id index rest gotReply running
            obtain rfl := Option.some.inj (found.symm.trans there)
            obtain ⟨inside, _⟩ := List.getElem?_eq_some_iff.mp found
            have stays : (pizzeria.kitchens.set index outcome.kitchen)[index]? =
                some outcome.kitchen := List.getElem?_set_self inside
            refine .entered rfl ?_ (effect.id.trans same) listed
            simpa only [touch, kitchens_record] using stays
  | report call reports chosen =>
      obtain ⟨_, elsewhere, _⟩ | consults := consultation_of_next registered.ids chosen
      · exact .elsewhere elsewhere
      · generalize pizzeria.call = before at consults
        cases consults
        exact .elsewhere trivial
  | erase call chosen | spawn call chosen | destroy call chosen =>
      obtain ⟨_, elsewhere, _⟩ | consults := consultation_of_next registered.ids chosen
      · exact .elsewhere elsewhere
      · generalize pizzeria.call = before at consults
        cases consults

/-- Every run keeps the knowledge of the running call. -/
theorem consulting_of_reachable (contract : P.Contract)
    {guard : Pizzeria P → PizzeriaLabel P → Prop} {pizzeria : Pizzeria P}
    (reached : (machine P nCooks limit).ReachableUnder guard pizzeria) : pizzeria.Consulting := by
  refine reached.invariant (.elsewhere trivial) fun {state next label} before consulting _ taken => ?_
  have moved := transition_of_step taken
  have registered := registered_of_reachable contract before
  cases label with
  | reception => exact consulting.reception registered moved
  | status =>
      cases moved
      exact .requesting registered.ids rfl rfl
  | order | poll | close =>
      cases moved
      exact .elsewhere trivial
  | kitchen id label =>
      cases moved
      exact ⟨consulting.requested, consulting.answering, consulting.listed⟩
  | elapse duration =>
      cases moved
      exact ⟨consulting.requested, consulting.answering, consulting.listed⟩

/-- Outside of `getStatus` no reply is awaited. -/
theorem awaitedIDs_of_elsewhere {call : Call} (elsewhere : call.Elsewhere) :
    call.awaitedIDs = [] := by
  cases call <;> first | exact elsewhere.elim | rfl

/-- Outside of `getStatus` no kitchen has been asked. -/
theorem not_asked_of_elsewhere {call : Call} {position : Nat} (elsewhere : call.Elsewhere) :
    ¬call.Asked position := by
  cases call <;> first | exact elsewhere.elim | exact id

/-- A statement that neither skips nor takes an operation belongs to no running call of `getStatus`
or ends it. -/
theorem elsewhere_of_next {pizzeria : Pizzeria P} {action : Action} {call : Call}
    (ids : (pizzeria.kitchens.map KitchenHandle.id).Nodup)
    (chosen : pizzeria.next = some (action, call)) (acts : action ≠ .skip)
    (other : ∀ index operation, action ≠ .apply index operation) :
    pizzeria.call.awaitedIDs = [] ∧ call.Elsewhere := by
  obtain ⟨before, after, _⟩ | consults := consultation_of_next ids chosen
  · exact ⟨awaitedIDs_of_elsewhere before, after⟩
  · generalize pizzeria.call = current at consults
    cases consults <;> first
      | exact ⟨rfl, trivial⟩
      | exact absurd rfl acts
      | exact absurd rfl (other _ _)

/-- A statement without an operation awaits the same live kitchens as before. -/
theorem awaited_skip {pizzeria : Pizzeria P} {call : Call} (consulting : pizzeria.Consulting)
    (ids : (pizzeria.kitchens.map KitchenHandle.id).Nodup)
    (chosen : pizzeria.next = some (.skip, call)) {kitchen : KitchenHandle}
    (member : kitchen ∈ pizzeria.kitchens) (alive : kitchen.alive = true) :
    call.awaitedIDs.count kitchen.id = pizzeria.call.awaitedIDs.count kitchen.id := by
  obtain ⟨before, after, _⟩ | consults := consultation_of_next ids chosen
  · rw [awaitedIDs_of_elsewhere before, awaitedIDs_of_elsewhere after]
  · have known := consulting.answering
    generalize running : pizzeria.call = current at consults
    have leaves : ∀ {kept rest : List Nat} {id : Nat}, id ≠ kitchen.id →
        (kept ++ rest).count kitchen.id = (kept ++ id :: rest).count kitchen.id := by
      intro kept rest id other
      rw [List.count_append, List.count_append, List.count_cons_of_ne other]
    cases consults with
    | asked | pass | enter | answered => rfl
    | again id kept => simp [Call.awaitedIDs]
    | drop kept id rest dead =>
        refine leaves ?_
        rintro rfl
        exact absurd alive (by simp [dead kitchen member rfl])
    | lost kept id index rest other found dead =>
        obtain ⟨there, here, rfl⟩ := known kept id index rest false running
        obtain rfl := Option.some.inj (found.symm.trans here)
        refine leaves fun same => ?_
        obtain rfl := eq_of_id ids (List.mem_of_getElem? found) member same
        exact absurd alive (by simp [dead])
    | wait kept id index rest => simp [Call.awaitedIDs]

/-- A statement without an operation has asked the same live kitchens as before. -/
theorem asked_skip {pizzeria : Pizzeria P} {call : Call}
    (ids : (pizzeria.kitchens.map KitchenHandle.id).Nodup)
    (chosen : pizzeria.next = some (.skip, call)) {position : Nat} {kitchen : KitchenHandle}
    (found : pizzeria.kitchens[position]? = some kitchen) (alive : kitchen.alive = true)
    (asked : call.Asked position) : pizzeria.call.Asked position := by
  obtain ⟨_, after, _⟩ | consults := consultation_of_next ids chosen
  · exact absurd asked (not_asked_of_elsewhere after)
  · generalize pizzeria.call = current at consults
    cases consults with
    | asked index pendingIDs past =>
        obtain ⟨inside, _⟩ := List.getElem?_eq_some_iff.mp found
        exact lt_of_lt_of_le inside (List.getElem?_eq_none_iff.mp past)
    | pass index pendingIDs other here dead =>
        refine lt_of_le_of_ne (Nat.le_of_lt_succ asked) ?_
        rintro rfl
        obtain rfl := Option.some.inj (found.symm.trans here)
        exact absurd alive (by simp [dead])
    | again | drop | enter | answered | lost | wait => exact trivial

/-- Only a request adds its position to the asked ones. -/
theorem asked_apply {pizzeria : Pizzeria P} {index : Nat} {operation : Operation} {call : Call}
    (ids : (pizzeria.kitchens.map KitchenHandle.id).Nodup)
    (chosen : pizzeria.next = some (.apply index operation, call)) {position : Nat}
    (asked : call.Asked position) :
    (operation = .request ∧ position = index) ∨ pizzeria.call.Asked position := by
  obtain ⟨_, after, _⟩ | consults := consultation_of_next ids chosen
  · exact absurd asked (not_asked_of_elsewhere after)
  · generalize pizzeria.call = current at consults
    cases consults with
    | ask pendingIDs kitchen found alive =>
        rcases Nat.lt_succ_iff_lt_or_eq.mp asked with earlier | last
        · exact .inr earlier
        · exact .inl ⟨rfl, last⟩
    | hear => exact .inr trivial

/-- An operation awaits no other kitchen than before. -/
theorem awaited_other {pizzeria : Pizzeria P} {index : Nat} {operation : Operation} {call : Call}
    (consulting : pizzeria.Consulting) (ids : (pizzeria.kitchens.map KitchenHandle.id).Nodup)
    (chosen : pizzeria.next = some (.apply index operation, call)) {kitchen : KitchenHandle}
    (found : pizzeria.kitchens[index]? = some kitchen) {id : Nat} (other : id ≠ kitchen.id) :
    call.awaitedIDs.count id = pizzeria.call.awaitedIDs.count id := by
  obtain ⟨before, after, _⟩ | consults := consultation_of_next ids chosen
  · rw [awaitedIDs_of_elsewhere before, awaitedIDs_of_elsewhere after]
  · have known := consulting.answering
    generalize running : pizzeria.call = current at consults
    cases consults with
    | ask index pendingIDs handle here alive =>
        obtain rfl := Option.some.inj (found.symm.trans here)
        simp only [Call.awaitedIDs, List.count_append, List.count_singleton]
        simp [other.symm]
    | hear kept asked index rest gotReply handle packet here oldest =>
        obtain ⟨there, same, rfl⟩ := known kept asked index rest gotReply running
        obtain rfl := Option.some.inj (found.symm.trans same)
        cases gotReply with
        | true => simp [Call.awaitedIDs]
        | false =>
            cases packet.isReply <;> simp [Call.awaitedIDs, other.symm]

/-- A request begins to await its kitchen, a reply ends it, and no other operation changes it. -/
theorem awaited_apply {pizzeria : Pizzeria P} {index : Nat} {operation : Operation} {call : Call}
    (consulting : pizzeria.Consulting) (ids : (pizzeria.kitchens.map KitchenHandle.id).Nodup)
    (chosen : pizzeria.next = some (.apply index operation, call)) {kitchen : KitchenHandle}
    (found : pizzeria.kitchens[index]? = some kitchen) :
    (operation = .request ∧ kitchen.alive = true ∧
        pizzeria.call.awaitedIDs.count kitchen.id = 0 ∧ call.awaitedIDs.count kitchen.id = 1) ∨
      (operation ≠ .request ∧ pizzeria.call.awaitedIDs.count kitchen.id = 0 ∧
        call.awaitedIDs.count kitchen.id = 0) ∨
      (operation = .handle ∧ ∃ packet, pizzeria.inbox kitchen = some packet ∧
        pizzeria.call.awaitedIDs.count kitchen.id = 1 ∧
        call.awaitedIDs.count kitchen.id = if packet.isReply then 0 else 1) := by
  obtain ⟨before, after, other⟩ | consults := consultation_of_next ids chosen
  · rw [awaitedIDs_of_elsewhere before, awaitedIDs_of_elsewhere after]
    refine .inr (.inl ⟨?_, rfl, rfl⟩)
    rintro rfl
    exact other index rfl
  · obtain ⟨requested, known, listed⟩ := consulting
    generalize running : pizzeria.call = current at consults listed
    cases consults with
    | ask index pendingIDs handle here alive =>
        obtain rfl := Option.some.inj (found.symm.trans here)
        have absent : pendingIDs.count kitchen.id = 0 := by
          rw [requested index pendingIDs running]
          exact List.count_eq_zero.mpr (not_mem_requested ids found)
        refine .inl ⟨rfl, alive, absent, ?_⟩
        simp [Call.awaitedIDs, absent]
    | hear kept asked index rest gotReply handle packet here oldest =>
        obtain ⟨there, same, rfl⟩ := known kept asked index rest gotReply running
        obtain rfl := Option.some.inj (found.symm.trans same)
        obtain rfl := Option.some.inj (found.symm.trans here)
        have absent : (kept ++ rest).count kitchen.id = 0 :=
          List.count_eq_zero.mpr (List.nodup_cons.mp (List.nodup_middle.mp listed)).1
        have once : (kept ++ kitchen.id :: rest).count kitchen.id = 1 :=
          List.count_eq_one_of_mem listed (by simp)
        cases gotReply with
        | true => exact .inr (.inl ⟨nofun, absent, absent⟩)
        | false =>
            refine .inr (.inr ⟨rfl, packet, oldest, once, ?_⟩)
            cases packet.isReply with
            | true => exact absent
            | false => exact once

end Pizzeria

end Plazza
