import Plazza.Proof.Reception.StatusReply
import Plazza.Proof.Reception.Steps
import Plazza.Proof.Status.Responses

namespace Plazza
open Plazza.Foundation

/-- The status shows what one execution has read, in the widths of the wire. -/
structure Response.ShownBy (response : Response) (status : KitchenStatus) : Prop where
  load : status.load = response.load % 2 ^ 8
  capacity : status.capacity = response.capacity % 2 ^ 8
  cooks : status.cooks = response.statuses.map narrowed
  stock : ∀ ingredient, ∃ units, response.stock ingredient = some units ∧
    status.stock ingredient = some (units % 2 ^ 32)

theorem receiveAll_append (kitchen : KitchenHandle) (first second : List Packet) :
    receiveAll kitchen (first ++ second) =
      (receiveAll kitchen first).bind fun kitchen => receiveAll kitchen second :=
  List.foldlM_append

/-- The reception shows a complete response and keeps nothing of it. -/
theorem Response.Complete.receiveAll {nCooks : Nat} {response : Response}
    (complete : response.Complete nCooks) {kitchen : KitchenHandle}
    (empty : kitchen.pendingCooks = []) :
    ∃ received, Plazza.receiveAll kitchen response.packets = some received ∧
      received.pendingCooks = [] ∧ received.status.id = kitchen.status.id ∧
      response.ShownBy received.status := by
  obtain ⟨cooks, _, statuses⟩ := complete.cooks
  have built := complete.built
  rw [statuses] at built
  obtain ⟨received, decoded, load, capacity, shown, stock, rest, id⟩ :=
    receiveAll_response kitchen built
  refine ⟨received, decoded, rest, id, load, capacity, ?_, stock⟩
  rw [shown, empty, List.nil_append, statuses, List.map_map]
  rfl

/-- After complete responses the reception shows the last of them. -/
theorem receiveAll_responses {nCooks : Nat} {responses : List Response}
    (complete : ∀ response ∈ responses, response.Complete nCooks) {kitchen : KitchenHandle}
    (empty : kitchen.pendingCooks = []) :
    ∃ received, receiveAll kitchen (responses.flatMap Response.packets) = some received ∧
      received.pendingCooks = [] ∧ received.status.id = kitchen.status.id ∧
      ∀ response ∈ responses.getLast?, response.ShownBy received.status := by
  induction responses using List.reverseRecOn with
  | nil => exact ⟨kitchen, rfl, empty, rfl, nofun⟩
  | append_singleton earlier last ih =>
      obtain ⟨middle, before, clear, id, _⟩ := ih fun response member =>
        complete response (List.mem_append_left _ member)
      obtain ⟨received, after, rest, same, shown⟩ := (complete last (by simp)).receiveAll clear
      refine ⟨received, ?_, rest, same.trans id, fun response member => ?_⟩
      · rw [List.flatMap_append, receiveAll_append, before, List.flatMap_singleton]
        exact after
      · rw [List.getLast?_append, List.getLast?_singleton] at member
        obtain rfl : last = response := by simpa using member
        exact shown

/-- The handle shows exactly the received packets of the responses. -/
def Heard (nCooks : Nat) (kitchen : KitchenHandle) (packets : List Packet) : Prop :=
  ∃ decoded, receiveAll (KitchenHandle.new kitchen.id nCooks) (packets.filter Packet.isStatus) =
    some decoded ∧ decoded.pendingCooks = kitchen.pendingCooks ∧ decoded.status = kitchen.status

/-- Any other packet leaves the shown status as it is. -/
theorem handlePacket_other {kitchen next : KitchenHandle} {packet : Packet}
    {report : Option DoneReport} (other : packet.isStatus = false)
    (handled : handlePacket kitchen packet = some (next, report)) :
    next.pendingCooks = kitchen.pendingCooks ∧ next.status = kitchen.status := by
  unfold handlePacket at handled
  split at handled
  · obtain ⟨result, done, same⟩ := Option.map_eq_some_iff.mp handled
    simp only [handleDonePacket, Option.bind_eq_bind, Option.bind_eq_some_iff] at done
    obtain ⟨_, _, _, _, kept⟩ := done
    obtain rfl := Option.some.inj kept
    cases same
    exact ⟨rfl, rfl⟩
  · rename_i type
    simp [Packet.isStatus, type] at other
  · rename_i type
    simp [Packet.isStatus, type] at other
  all_goals
    cases handled
    exact ⟨rfl, rfl⟩

/-- A packet of a response changes the shown status of two handles in the same way. -/
theorem handlePacket_status {kitchen twin next : KitchenHandle} {packet : Packet}
    {report : Option DoneReport} (status : packet.isStatus = true)
    (cooks : twin.pendingCooks = kitchen.pendingCooks) (shown : twin.status = kitchen.status)
    (handled : handlePacket kitchen packet = some (next, report)) :
    ∃ after, (handlePacket twin packet).map Prod.fst = some after ∧
      after.pendingCooks = next.pendingCooks ∧ after.status = next.status := by
  unfold handlePacket at handled ⊢
  split at handled
  · rename_i type
    simp [Packet.isStatus, type] at status
  · rename_i type
    obtain ⟨result, decoded, same⟩ := Option.map_eq_some_iff.mp handled
    simp only [handleCookStatusPacket, Option.bind_eq_bind, Option.bind_eq_some_iff] at decoded
    obtain ⟨state, stateKnown, kind, kindKnown, size, sizeKnown, recipe, created, kept⟩ := decoded
    obtain rfl := Option.some.inj kept
    cases same
    simp only [handleCookStatusPacket, stateKnown, kindKnown, sizeKnown, created,
      Option.bind_eq_bind, Option.bind_some, Option.pure_def, Option.map_some, cooks, shown]
    exact ⟨_, rfl, rfl, rfl⟩
  · rename_i type
    cases handled
    refine ⟨_, rfl, rfl, ?_⟩
    simp only [handleStatusReplyPacket, cooks, shown]
  · rename_i type
    simp [Packet.isStatus, type] at status
  · rename_i type
    simp [Packet.isStatus, type] at status
  · rename_i _ notCook notReply _ _
    have informs : packet.type = .cookStatus ∨ packet.type = .statusReply := by
      simpa [Packet.isStatus] using status
    exact absurd informs (not_or.mpr ⟨notCook, notReply⟩)

/-- Each handled packet keeps the handle in step with the received packets. -/
theorem Heard.handle {nCooks : Nat} {kitchen next : KitchenHandle} {packets : List Packet}
    {packet : Packet} {report : Option DoneReport} (heard : Heard nCooks kitchen packets)
    (handled : Handled kitchen packet next report) : Heard nCooks next (packets ++ [packet]) := by
  obtain ⟨decoded, received, cooks, shown⟩ := heard
  unfold Heard
  rw [handled.id, List.filter_append, receiveAll_append, received, List.filter_singleton,
    Option.bind_some]
  cases status : packet.isStatus with
  | false =>
      obtain ⟨sameCooks, sameStatus⟩ := handlePacket_other status handled.eq
      exact ⟨decoded, rfl, cooks.trans sameCooks.symm, shown.trans sameStatus.symm⟩
  | true =>
      obtain ⟨after, step, sameCooks, sameStatus⟩ := handlePacket_status status cooks shown handled.eq
      refine ⟨after, ?_, sameCooks, sameStatus⟩
      change receiveAll decoded [packet] = some after
      rw [receiveAll, List.foldlM_cons, step]
      rfl

end Plazza
