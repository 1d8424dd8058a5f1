import Plazza.Proof.Reception.Books
import Plazza.Proof.Reception.Conservation

namespace Plazza
open Plazza.Foundation

namespace Pizzeria

variable {P : KitchenProcess} {nCooks : Nat} {limit : Option Nat} {contract : P.Contract}

/-- The pizzas that were ordered and have no handled answer. -/
def outstanding (pizzeria : Pizzeria P) : Nat :=
  pizzeria.books.todo.length + pizzeria.books.owed.card

/-- A site has at least as many pizza packets as handled answers. -/
theorem answers_le {pizzeria : Pizzeria P} (registered : pizzeria.Registered contract) (id : Nat) :
    (pizzeria.sites id).resultQueue.received.countP Packet.isAnswer ≤
      (pizzeria.sites id).orderQueue.sent.countP Packet.isPizza := by
  have account := congrArg Multiset.card (registered.honest id).account
  simp only [Multiset.card_add, card_tags] at account
  omega

/-- The recorded loads count outstanding pizzas. -/
theorem sum_load_le {pizzeria : Pizzeria P} (registered : pizzeria.Registered contract)
    (balanced : pizzeria.Balanced nCooks) :
    (pizzeria.kitchens.map KitchenHandle.load).sum ≤ pizzeria.books.owed.card := by
  let sent (id : Nat) : Nat := (pizzeria.sites id).orderQueue.sent.countP Packet.isPizza
  let answered (id : Nat) : Nat := (pizzeria.sites id).resultQueue.received.countP Packet.isAnswer
  have loads : (pizzeria.kitchens.map KitchenHandle.load).sum =
      ∑ id ∈ (pizzeria.kitchens.map KitchenHandle.id).toFinset, (sent id - answered id) := by
    rw [List.sum_toFinset _ registered.ids, List.map_map]
    refine congrArg List.sum (List.map_congr_left fun kitchen member => ?_)
    have balance := (balanced.accounts kitchen member).balance
    simp only [Function.comp, sent, answered]
    omega
  have listed : (pizzeria.kitchens.map KitchenHandle.id).toFinset ⊆
      Finset.range pizzeria.nextKitchenId := by
    intro id member
    obtain ⟨kitchen, inside, rfl⟩ := List.mem_map.mp (List.mem_toFinset.mp member)
    exact Finset.mem_range.mpr (registered.spawned kitchen inside)
  have all : ∑ id ∈ Finset.range pizzeria.nextKitchenId, (sent id - answered id) +
      ∑ id ∈ Finset.range pizzeria.nextKitchenId, answered id =
        ∑ id ∈ Finset.range pizzeria.nextKitchenId, sent id := by
    rw [← Finset.sum_add_distrib]
    exact Finset.sum_congr rfl fun id _ => Nat.sub_add_cancel (answers_le registered id)
  have sents : pizzeria.books.sent.card = ∑ id ∈ Finset.range pizzeria.nextKitchenId, sent id := by
    simp only [books, total, sentTags, Multiset.card_sum, card_tags, sent]
  have answers : (pizzeria.books.done + pizzeria.books.full).card =
      ∑ id ∈ Finset.range pizzeria.nextKitchenId, answered id := by
    simp only [books, total, handledTags, ← Finset.sum_add_distrib, ← tags_isAnswer,
      Multiset.card_sum, card_tags, answered]
  have owed : pizzeria.books.sent.card ≤
      pizzeria.books.owed.card + (pizzeria.books.done + pizzeria.books.full).card := by
    rw [← Multiset.card_add]
    exact Multiset.card_le_card le_tsub_add
  have less := Finset.sum_le_sum_of_subset (f := fun id => sent id - answered id) listed
  omega

/-- The loops of `dispatch` follow the erasure of the dead handles, and they send and spawn. -/
theorem next_dispatches {pizzeria : Pizzeria P} {action : Action} {todo : List Pizza} {origin : Int}
    {spawned : Bool} (chosen : pizzeria.next = some (action, .dispatching todo origin spawned)) :
    action = .erase ∨ (∃ todo origin spawned, pizzeria.call = .dispatching todo origin spawned) ∧
      (action = .spawn ∨ ∃ index pizza origin, action = .apply index (.send pizza origin)) := by
  unfold next at chosen
  repeat' split at chosen
  all_goals cases chosen
  · exact .inl rfl
  · exact .inr ⟨⟨_, _, _, ‹_›⟩, .inr ⟨_, _, _, rfl⟩⟩
  · exact .inr ⟨⟨_, _, _, ‹_›⟩, .inl rfl⟩
  · exact .inr ⟨⟨_, _, _, ‹_›⟩, .inr ⟨_, _, _, rfl⟩⟩

/-- Every listed kitchen is alive while the loops of `dispatch` run. -/
theorem alive_of_dispatching {guard : Pizzeria P → PizzeriaLabel P → Prop} {pizzeria : Pizzeria P}
    (reached : (machine P nCooks limit).ReachableUnder guard pizzeria) :
    (∃ todo origin spawned, pizzeria.call = .dispatching todo origin spawned) →
      ∀ kitchen ∈ pizzeria.kitchens, kitchen.alive = true := by
  refine reached.invariant (motive := fun pizzeria =>
    (∃ todo origin spawned, pizzeria.call = .dispatching todo origin spawned) →
      ∀ kitchen ∈ pizzeria.kitchens, kitchen.alive = true) (by rintro ⟨_, _, _, ⟨⟩⟩) ?_
  rintro pizzeria next label _ alive _ taken ⟨todo, origin, spawned, running⟩ kitchen member
  cases transition_of_step taken with
  | order | status | poll | close => cases running
  | skip call chosen | report call _ chosen | destroy call chosen =>
      subst running
      obtain other | ⟨_, other | ⟨_, _, _, other⟩⟩ := next_dispatches chosen <;> cases other
  | erase => exact (List.mem_filter.mp member).2
  | apply index operation call handle outcome chosen found effect =>
      subst running
      obtain other | ⟨before, other | ⟨_, _, _, sends⟩⟩ := next_dispatches chosen
      · cases other
      · cases other
      · cases sends
        simp only [touch, kitchens_record] at member
        rcases List.mem_or_eq_of_mem_set member with inside | rfl
        · exact alive before kitchen inside
        · cases effect
          exact alive before handle (List.mem_of_getElem? found)
  | spawn call chosen =>
      subst running
      obtain other | ⟨before, _⟩ := next_dispatches chosen
      · cases other
      · rcases List.mem_append.mp member with inside | fresh
        · exact alive before kitchen inside
        · rw [List.mem_singleton.mp fresh]
          rfl
  | kitchen | elapse => exact alive ⟨todo, origin, spawned, running⟩ kitchen member

/-- A kitchen is spawned for a pizza when no listed kitchen can take it. -/
theorem unchosen_of_spawn {pizzeria : Pizzeria P} {call : Call}
    (chosen : pizzeria.next = some (.spawn, call)) :
    ∃ pizza rest origin, pizzeria.call = .dispatching (pizza :: rest) origin false ∧
      bestKitchen pizzeria.kitchens = none := by
  unfold next at chosen
  repeat' split at chosen
  all_goals cases chosen
  exact ⟨_, _, _, ‹_›, ‹_›⟩

/-- The reception lists no more kitchens than the most outstanding pizzas of the run need. -/
theorem length_kitchens_of_reachable (contract : P.Contract) (positive : 0 < 2 * nCooks % 2 ^ 64)
    {most : Nat} {pizzeria : Pizzeria P}
    (reached : (machine P nCooks limit).ReachableUnder
      (fun pizzeria _ => pizzeria.outstanding ≤ most) pizzeria) :
    2 * nCooks % 2 ^ 64 * pizzeria.kitchens.length < most + 2 * nCooks % 2 ^ 64 := by
  refine reached.invariant (motive := fun pizzeria =>
    2 * nCooks % 2 ^ 64 * pizzeria.kitchens.length < most + 2 * nCooks % 2 ^ 64) ?_ ?_
  · exact (Nat.mul_zero _).trans_lt (positive.trans_le (Nat.le_add_left _ _))
  intro pizzeria next label before bound few taken
  have shrinks : next.kitchens.length ≤ pizzeria.kitchens.length →
      2 * nCooks % 2 ^ 64 * next.kitchens.length < most + 2 * nCooks % 2 ^ 64 :=
    fun less => (Nat.mul_le_mul_left _ less).trans_lt bound
  cases transition_of_step taken with
  | order | status | poll | close | skip | report | kitchen | elapse => exact bound
  | apply => exact shrinks (by simp [touch])
  | erase => exact shrinks (List.length_filter_le _ _)
  | destroy => exact shrinks (Nat.zero_le _)
  | spawn call chosen =>
      obtain ⟨pizza, rest, origin, running, unchosen⟩ := unchosen_of_spawn chosen
      have registered := registered_of_reachable contract before
      have balanced := balanced_of_reachable contract before
      have full : ∀ load ∈ pizzeria.kitchens.map KitchenHandle.load, 2 * nCooks % 2 ^ 64 ≤ load := by
        intro load member
        obtain ⟨kitchen, inside, rfl⟩ := List.mem_map.mp member
        rw [← (balanced.accounts kitchen inside).capacity]
        exact Nat.not_lt.mp fun room => bestKitchen_none unchosen kitchen inside
          ⟨alive_of_dispatching before ⟨_, _, _, running⟩ kitchen inside, room⟩
      have loads := List.card_nsmul_le_sum _ _ full
      rw [List.length_map, smul_eq_mul, Nat.mul_comm] at loads
      have sum := sum_load_le registered balanced
      have waits : 0 < pizzeria.books.todo.length := by
        simp [books, running, Call.todo, tagged]
      rw [List.length_append, List.length_singleton, Nat.mul_succ]
      unfold outstanding at few
      omega

/-- Three pizzas at once need two kitchens of one cook. -/
theorem length_kitchens_of_three :
    ∃ pizzeria, (machine (KitchenWorker.process 1 none) 1 none).ReachableUnder
        (fun pizzeria _ => pizzeria.outstanding ≤ 3) pizzeria ∧
      pizzeria.kitchens.length = 2 ∧
      2 * 1 % 2 ^ 64 * pizzeria.kitchens.length < 3 + 2 * 1 % 2 ^ 64 := by
  obtain ⟨pizzeria, reached, listed⟩ :=
    (machine (KitchenWorker.process 1 none) 1 none).exists_reachableUnder
      (fun pizzeria _ => decide (pizzeria.outstanding ≤ 3))
      (.order [⟨.margarita, .s, 3⟩] :: List.replicate 7 .reception)
      (fun pizzeria => decide (pizzeria.kitchens.length = 2)) (by decide)
  have few := reached.mono fun _ _ => of_decide_eq_true
  exact ⟨pizzeria, few, of_decide_eq_true listed,
    length_kitchens_of_reachable (KitchenWorker.contract 1 none) (by decide) few⟩

end Pizzeria

end Plazza
