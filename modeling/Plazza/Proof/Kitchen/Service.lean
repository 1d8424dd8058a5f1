import Plazza.Proof.Kitchen.Turns
import Plazza.Proof.Reception.Books

namespace Plazza
open Plazza.Foundation

/-- The done packet of the pizza is sent and the worker still holds the pizza. -/
def Position.paid : Position → Multiset (PackedPizza × Int)
  | served ticket | cooked ticket => {ticket.tag}
  | _ => 0

namespace ThreadPool

variable {nCooks : Nat}

/-- The pizzas whose done packets are sent. -/
def settled (pool : ThreadPool nCooks) : Multiset (PackedPizza × Int) :=
  ((pool.finished.map fun entry => entry.2.tag : List _) : Multiset _) +
    ∑ index, (pool.threads index).paid

theorem settled_move (pool : ThreadPool nCooks) (index : Fin nCooks) (position : Position)
    (same : position.paid = (pool.threads index).paid) :
    (pool.move index position).settled = pool.settled := by
  simp only [settled, move, sum_update_same Position.paid pool.threads index position same]

theorem settled_woken (pool : ThreadPool nCooks) (wake : Fin nCooks → Bool) :
    settled { pool with threads := wakeThreads pool.threads wake } = pool.settled := by
  simp only [settled, view_wakeThreads Position.paid rfl]

theorem settled_addPizza (pool : ThreadPool nCooks) (pizza : Ticket) (wake : Fin nCooks → Bool) :
    (pool.addPizza pizza wake).2.settled = pool.settled := by
  unfold addPizza
  split
  · rfl
  · exact settled_woken pool wake

/-- Only a worker that sends its done packet settles a pizza. -/
theorem settled_workerLoop {pool next : ThreadPool nCooks} {index : Fin nCooks}
    (worked : pool.workerLoop index = some next) :
    (∃ pizza, pool.threads index = .baking pizza ∧ next.settled = pool.settled + {pizza.tag}) ∨
      (∀ pizza, pool.threads index ≠ .baking pizza) ∧ next.settled = pool.settled := by
  cases step_of_workerLoop worked with
  | sleep tests | leave tests | pop _ _ tests =>
      refine .inr ⟨by rcases tests with stands | stands <;> simp [stands], ?_⟩
      exact settled_move pool index _ (by rw [view_of_tests Position.paid rfl tests]; rfl)
  | prepare pizza stands =>
      exact .inr ⟨by simp [stands], settled_move pool index _ (by rw [stands]; rfl)⟩
  | bake pizza stands =>
      exact .inr ⟨by simp [stands], settled_move pool index _ (by rw [stands]; rfl)⟩
  | serve pizza stands =>
      refine .inl ⟨pizza, stands, ?_⟩
      have moved := sum_update Position.paid pool.threads index (.served pizza)
      have none' : (pool.threads index).paid = 0 := by rw [stands]; rfl
      rw [none', add_zero] at moved
      simp only [settled, move, moved, add_assoc]
      rfl
  | release pizza stands =>
      exact .inr ⟨by simp [stands], settled_move pool index _ (by rw [stands]; rfl)⟩
  | finish pizza stands =>
      refine .inr ⟨by simp [stands], ?_⟩
      have moved := sum_update Position.paid pool.threads index .locking
      have one : (pool.threads index).paid = {pizza.tag} := by rw [stands]; rfl
      have none' : Position.locking.paid = 0 := rfl
      rw [one, none', add_zero] at moved
      simp only [settled, finishPizza, move, List.map_append, List.map_cons, List.map_nil,
        ← Multiset.coe_add, Multiset.coe_singleton, ← moved]
      ac_rfl

/-- A finished pizza is settled. -/
theorem finished_le_settled (pool : ThreadPool nCooks) :
    ((pool.finished.map fun entry => entry.2.tag : List _) : Multiset _) ≤ pool.settled :=
  Multiset.le_add_right _ _

end ThreadPool

namespace Kitchen

variable {nCooks : Nat} {limit : Option Nat}

/-- The done packets are those of the settled pizzas, and every accepted pizza is owed or settled. -/
structure Accounted (site : Site (KitchenWorker nCooks)) : Prop where
  done : tags Packet.isDone site.resultQueue.sent = site.process.pool.settled
  accepted : ((site.process.pool.accepted.map Ticket.tag : List _) : Multiset _) =
    site.process.pool.owes + site.process.pool.settled

/-- A step that leaves the histories and the positions alone keeps the accounts. -/
theorem Accounted.keep {site next : Site (KitchenWorker nCooks)} (accounted : Accounted site)
    (done : tags Packet.isDone next.resultQueue.sent = tags Packet.isDone site.resultQueue.sent)
    (accepted : next.process.pool.accepted = site.process.pool.accepted)
    (owes : next.process.pool.owes = site.process.pool.owes)
    (settled : next.process.pool.settled = site.process.pool.settled) : Accounted next where
  done := by rw [done, settled, accounted.done]
  accepted := by rw [accepted, owes, settled, accounted.accepted]

/-- A packet that is not a done packet leaves the done packets as they are. -/
theorem done_send {queue : Fifo Packet} {packet : Packet} (other : packet.type ≠ .done) :
    tags Packet.isDone (queue.send packet).sent = tags Packet.isDone queue.sent := by
  simp [Fifo.sent_send, tags_singleton, Packet.isDone, other]

/-- A worker step that sends nothing keeps the accounts. -/
theorem Accounted.work {site next : Site (KitchenWorker nCooks)} (accounted : Accounted site)
    {index : Fin nCooks} (worked : site.process.pool.workerLoop index = some next.process.pool)
    (results : next.resultQueue = site.resultQueue)
    (other : ∀ ticket, site.process.pool.threads index ≠ .baking ticket) : Accounted next := by
  refine accounted.keep (by rw [results]) ?_ ?_ ?_
  · generalize next.process.pool = pool at worked
    cases ThreadPool.step_of_workerLoop worked <;> rfl
  · rcases ThreadPool.owes_workerLoop worked with ⟨ticket, baking, _⟩ | ⟨_, same⟩
    · exact absurd baking (other ticket)
    · exact same
  · rcases ThreadPool.settled_workerLoop worked with ⟨ticket, baking, _⟩ | ⟨_, same⟩
    · exact absurd baking (other ticket)
    · exact same

/-- Each transition keeps the accounts. -/
theorem Accounted.step {now : Nat} {site next : Site (KitchenWorker nCooks)}
    {label : KitchenWorker.Label nCooks} (valid : site.process.Valid) (accounted : Accounted site)
    (moved : KitchenWorker.Transition limit now site label next) : Accounted next := by
  cases moved with
  | advance wake process moves =>
      have pool := moves.points.1
      exact accounted.keep rfl (by rw [pool]) (by rw [pool]) (by rw [pool])
  | pollEmpty | pollShutdown | poll | refuse | request | ignore | stop | join | regenerate =>
      exact accounted.keep rfl rfl rfl rfl
  | accept wake packet ticket pool control pizza same notifies added =>
      have kept := ThreadPool.settled_addPizza site.process.pool ticket wake
      rw [added] at kept
      refine ⟨accounted.done.trans kept.symm, ?_⟩
      have more : pool.accepted = site.process.pool.accepted ++ [ticket] := by
        unfold ThreadPool.addPizza at added
        split at added <;> cases added
        rfl
      simp only [more, kept, ThreadPool.owes_addPizza added, List.map_append, List.map_cons,
        List.map_nil, ← Multiset.coe_add, Multiset.coe_singleton, accounted.accepted]
      ac_rfl
  | sendFull => exact accounted.keep (done_send (by simp)) rfl rfl rfl
  | respond wake packet rest control =>
      have informs := valid.informs
      rw [control] at informs
      refine accounted.keep (done_send ?_) rfl rfl rfl
      rcases informs packet List.mem_cons_self with type | type <;> simp [type]
  | notify =>
      exact accounted.keep rfl rfl (ThreadPool.owes_woken _ _) (ThreadPool.settled_woken _ _)
  | close => exact accounted.keep (done_send (by simp)) rfl rfl rfl
  | cook index pool worked other => exact accounted.work worked rfl fun ticket => (other ticket).2
  | consume index ticket pool needed stands worked =>
      exact accounted.work worked rfl fun other baking => by simp [stands] at baking
  | serve index ticket pool stands worked room =>
      rcases ThreadPool.settled_workerLoop worked with ⟨other, baking, settled⟩ | ⟨other, _⟩
      · rcases ThreadPool.owes_workerLoop worked with ⟨same, bakes, owes⟩ | ⟨none', _⟩
        · rw [stands] at baking bakes
          cases baking
          cases bakes
          have kept : pool.accepted = site.process.pool.accepted := by
            cases ThreadPool.step_of_workerLoop worked <;> rfl
          refine ⟨?_, ?_⟩
          · simp only [Fifo.sent_send, tags_append, accounted.done, settled]
            rfl
          · simp only [kept, accounted.accepted, owes, settled]
            ac_rfl
        · exact absurd stands (none' ticket)
      · exact absurd stands (other ticket)
  | wakeSpuriously index pool woken =>
      obtain ⟨asleep, rfl⟩ := KitchenWorker.waiting_of_wakeSpuriously woken
      exact accounted.keep rfl rfl (ThreadPool.owes_move _ index .woken (by rw [asleep]; rfl))
        (ThreadPool.settled_move _ index .woken (by rw [asleep]; rfl))

/-- Every run of a kitchen keeps its accounts and honours the contract with the reception. -/
theorem accounted_of_reachable {kitchen : Kitchen nCooks}
    (reached : (machine nCooks limit).Reachable kitchen) :
    Accounted kitchen.site ∧ kitchen.site.Honest (KitchenWorker.contract nCooks limit) := by
  refine reached.invariant (motive := fun kitchen => Accounted kitchen.site ∧
    kitchen.site.Honest (KitchenWorker.contract nCooks limit)) ?_ ?_
  · refine ⟨⟨?_, ?_⟩, Site.honest_fresh _⟩
    · simp [machine, Site.fresh, KitchenWorker.new, ThreadPool.settled, ThreadPool.start, Fifo.sent,
        Fifo.empty, tags, Position.paid]
    · simp [machine, Site.fresh, KitchenWorker.new, ThreadPool.owes, ThreadPool.settled,
        ThreadPool.start, Position.owes, Position.owed, Position.paid]
  · rintro kitchen next label reached ⟨accounted, honest⟩ - taken
    cases label with
    | deliver packet =>
        cases taken
        exact ⟨⟨accounted.done, accounted.accepted⟩, honest.of_queues rfl rfl rfl⟩
    | collect =>
        obtain ⟨⟨packet, queue⟩, received, rfl⟩ := Option.map_eq_some_iff.mp taken
        have same := Fifo.sent_receive received
        exact ⟨⟨by rw [← accounted.done, same], accounted.accepted⟩, honest.of_queues rfl rfl same⟩
    | process moved =>
        obtain ⟨site, stepped, rfl⟩ := Option.map_eq_some_iff.mp taken
        exact ⟨accounted.step (valid_of_reachable reached)
          (KitchenWorker.transition_of_step stepped), honest.step stepped⟩
    | elapse duration =>
        cases taken
        exact ⟨accounted, honest⟩

end Kitchen

end Plazza
