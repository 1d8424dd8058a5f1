import Plazza.Proof.Reception.Settlement

namespace Plazza
open Plazza.Foundation

namespace Books

/-- The accepted orders ask for these pizzas. -/
def asked (books : Books) : Multiset (PackedPizza × Int) :=
  (books.accepted.flatMap fun order => tagged order.2 order.1 : List (PackedPizza × Int))

/-- Every order keeps the id of its registration to itself, and no pizza is invented or lost. -/
structure Traced (books : Books) : Prop where
  nonneg : 0 ≤ books.ledger.nextOrderId
  ids : ∀ order ∈ books.accepted, order.1 ≤ books.ledger.nextOrderId
  pending : ∀ order ∈ books.ledger.pendingOrders,
    0 < order.1 ∧ order.1 ≤ books.ledger.nextOrderId
  distinct : (books.ledger.pendingOrders.map Prod.fst).Nodup
  announced : ∀ orderId ∈ books.ledger.announced,
    0 < orderId ∧ orderId ≤ books.ledger.nextOrderId
  conserved : books.asked = books.sent + (books.todo : Multiset (PackedPizza × Int))
  answered : books.done + books.full ≤ books.sent
  only : ∀ order ∈ books.accepted, order.1 ≠ 0 →
    books.asked.filter (fun tag => tag.2 = order.1) =
      (tagged order.2 order.1 : Multiset (PackedPizza × Int))

/-- All pizzas of one order have its id. -/
theorem filter_tagged (pizzas : List Pizza) (origin orderId : Int) :
    ((tagged pizzas origin : Multiset (PackedPizza × Int)).filter fun tag => tag.2 = orderId) =
      if origin = orderId then (tagged pizzas origin : Multiset (PackedPizza × Int)) else 0 := by
  split
  · rename_i same
    rw [Multiset.filter_eq_self]
    intro tag member
    obtain ⟨pizza, _, rfl⟩ := List.mem_map.mp (Multiset.mem_coe.mp member)
    exact same
  · rename_i apart
    rw [Multiset.filter_eq_nil]
    intro tag member
    obtain ⟨pizza, _, rfl⟩ := List.mem_map.mp (Multiset.mem_coe.mp member)
    exact apart

/-- A new order adds its pizzas. -/
theorem asked_append (books : Books) (ledger : Ledger) (order : Int × List Pizza)
    (todo : List (PackedPizza × Int)) :
    asked { books with ledger, accepted := books.accepted ++ [order], todo } =
      books.asked + (tagged order.2 order.1 : Multiset (PackedPizza × Int)) := by
  simp [asked]

/-- Every finished pizza was asked for. -/
theorem Traced.done_le_asked {books : Books} (traced : books.Traced) :
    books.done ≤ books.asked := by
  have sent : books.done ≤ books.sent := le_trans (Multiset.le_add_right _ _) traced.answered
  rw [traced.conserved]
  exact le_trans sent (Multiset.le_add_right _ _)

/-- No accepted order has asked under a later id. -/
theorem Traced.filter_later {books : Books} (traced : books.Traced) {orderId : Int}
    (later : books.ledger.nextOrderId < orderId) :
    books.asked.filter (fun tag => tag.2 = orderId) = 0 := by
  rw [Multiset.filter_eq_nil]
  intro tag member same
  obtain ⟨order, inside, here⟩ := List.mem_flatMap.mp (Multiset.mem_coe.mp member)
  obtain ⟨pizza, _, rfl⟩ := List.mem_map.mp here
  have bounded := traced.ids order inside
  simp only at same
  omega

/-- A new order is the only one with its id. -/
theorem Traced.only_append {books : Books} (traced : books.Traced) {origin : Int}
    (fresh : origin = 0 ∨ books.ledger.nextOrderId < origin) (pizzas : List Pizza) :
    ∀ order ∈ books.accepted ++ [(origin, pizzas)], order.1 ≠ 0 →
      (books.asked + (tagged pizzas origin : Multiset (PackedPizza × Int))).filter
        (fun tag => tag.2 = order.1) =
          (tagged order.2 order.1 : Multiset (PackedPizza × Int)) := by
  intro order member registered
  rw [Multiset.filter_add, filter_tagged]
  rcases List.mem_append.mp member with before | last
  · have bounded := traced.ids order before
    rw [if_neg (by omega), add_zero]
    exact traced.only order before registered
  · obtain rfl := List.mem_singleton.mp last
    simp only at registered
    rw [if_pos rfl, traced.filter_later (by omega), zero_add]

/-- An accepted order keeps the ids apart. -/
theorem Traced.order {books next : Books} {orders : List PizzaOrder} (traced : books.Traced)
    (taken : books.step (.order orders) = some next) : next.Traced := by
  simp only [step] at taken
  split at taken
  · rename_i sentAll
    obtain ⟨⟨ledger, origin⟩, called, rfl⟩ := Option.map_eq_some_iff.mp taken
    have nonneg := traced.nonneg
    have conserved := traced.conserved
    rw [sentAll, Multiset.coe_nil, add_zero] at conserved
    obtain ⟨total, _, change⟩ := Ledger.orderCallback_cases called
    rcases change with ⟨_, rfl, rfl⟩ | ⟨_, next, rfl⟩
    · refine ⟨nonneg, ?_, traced.pending, traced.distinct, traced.announced, ?_, traced.answered, ?_⟩
      · intro order member
        rcases List.mem_append.mp member with before | last
        · exact traced.ids order before
        · obtain rfl := List.mem_singleton.mp last
          exact nonneg
      · rw [asked_append, conserved]
      · rw [asked_append]
        exact traced.only_append (.inl rfl) _
    · refine ⟨by simp only; omega, ?_, ?_, ?_, ?_, ?_, traced.answered, ?_⟩
      · intro order member
        rcases List.mem_append.mp member with before | last
        · have bounded := traced.ids order before
          simp only
          omega
        · obtain rfl := List.mem_singleton.mp last
          exact le_rfl
      · intro order member
        rcases List.mem_append.mp member with before | last
        · have bounded := traced.pending order before
          simp only
          omega
        · obtain rfl := List.mem_singleton.mp last
          simp only
          omega
      · rw [List.map_append, List.nodup_append]
        refine ⟨traced.distinct, List.nodup_singleton _, ?_⟩
        intro orderId member other last
        obtain ⟨order, before, rfl⟩ := List.mem_map.mp member
        obtain rfl := List.mem_singleton.mp last
        have bounded := traced.pending order before
        omega
      · intro orderId member
        have bounded := traced.announced orderId member
        simp only
        omega
      · rw [asked_append, conserved]
      · rw [asked_append]
        exact traced.only_append (.inr (by omega)) _
  · cases taken

/-- A completion keeps the ids of the orders that stay pending. -/
theorem Traced.done {books next : Books} {tag : PackedPizza × Int} (traced : books.Traced)
    (taken : books.step (.done tag) = some next) : next.Traced := by
  simp only [step] at taken
  split at taken <;> cases taken
  rename_i owed
  have answered : books.done + {tag} + books.full ≤ books.sent := by
    rw [add_right_comm]
    exact owed
  cases front : books.ledger.pendingOrders with
  | nil =>
      simp only [Ledger.doneCallback_nil front]
      exact ⟨traced.nonneg, traced.ids, traced.pending, traced.distinct, traced.announced,
        traced.conserved, answered, traced.only⟩
  | cons order rest =>
      obtain ⟨orderId, count⟩ := order
      have pending := traced.pending
      have distinct := traced.distinct
      rw [front] at pending distinct
      have first := pending (orderId, count) List.mem_cons_self
      have others := fun order member => pending order (List.mem_cons_of_mem (orderId, count) member)
      rcases Ledger.doneCallback_cons front with ⟨_, called⟩ | ⟨_, called⟩
      · simp only [called]
        refine ⟨traced.nonneg, traced.ids, others, (List.nodup_cons.mp distinct).2, ?_,
          traced.conserved, answered, traced.only⟩
        intro announced member
        rcases List.mem_append.mp member with before | last
        · exact traced.announced announced before
        · obtain rfl := List.mem_singleton.mp last
          exact first
      · simp only [called]
        refine ⟨traced.nonneg, traced.ids, ?_, distinct, traced.announced, traced.conserved,
          answered, traced.only⟩
        intro order member
        rcases List.mem_cons.mp member with rfl | inside
        · exact first
        · exact others order inside

/-- Every entry keeps the orders traced. -/
theorem Traced.step {books next : Books} {entry : Entry} (traced : books.Traced)
    (taken : books.step entry = some next) : next.Traced := by
  cases entry with
  | order orders => exact traced.order taken
  | send =>
      simp only [Books.step] at taken
      split at taken <;> cases taken
      rename_i tag rest front
      refine ⟨traced.nonneg, traced.ids, traced.pending, traced.distinct, traced.announced, ?_,
        le_trans traced.answered (Multiset.le_add_right _ _), traced.only⟩
      have conserved := traced.conserved
      rw [front, ← Multiset.cons_coe, ← Multiset.singleton_add, ← add_assoc] at conserved
      exact conserved
  | done tag => exact traced.done taken
  | full tag =>
      simp only [Books.step] at taken
      split at taken <;> cases taken
      rename_i owed
      refine ⟨traced.nonneg, traced.ids, traced.pending, traced.distinct, traced.announced,
        traced.conserved, ?_, traced.only⟩
      rw [← add_assoc]
      exact owed

/-- Every run keeps the orders traced. -/
theorem traced_of_reachable {guard : Books → Entry → Prop} {books : Books}
    (reached : machine.ReachableUnder guard books) : books.Traced :=
  reached.invariant ⟨le_rfl, nofun, nofun, List.nodup_nil, nofun, rfl, le_rfl, nofun⟩
    fun _ traced _ taken => traced.step taken

/-- The completions of one order. -/
def finished (books : Books) (orderId : Int) : Nat :=
  books.done.countP fun tag => tag.2 = orderId

/-- A completion counts for the order of its pizza. -/
theorem finished_done (books : Books) (ledger : Ledger) (tag : PackedPizza × Int) (orderId : Int) :
    finished { books with ledger, done := books.done + {tag} } orderId =
      books.finished orderId + if tag.2 = orderId then 1 else 0 := by
  have one : ({tag} : Multiset (PackedPizza × Int)).countP (fun tag => tag.2 = orderId) =
      if tag.2 = orderId then 1 else 0 := by
    rw [← Multiset.cons_zero, Multiset.countP_cons, Multiset.countP_zero, zero_add]
  simp only [finished, Multiset.countP_add, one]

/-- A pending order counts exactly its own completions and an announced one has them all. -/
structure Faithful (books : Books) : Prop where
  pending : ∀ order ∈ books.accepted, ∀ remaining,
    (order.1, remaining) ∈ books.ledger.pendingOrders →
      remaining + books.finished order.1 = order.2.length
  announced : ∀ order ∈ books.accepted, order.1 ∈ books.ledger.announced →
    order.2.length ≤ books.finished order.1

/-- An order is registered with its number of pizzas, and a completion belongs to the oldest
pending order. -/
def inOrder (books : Books) : Entry → Bool
  | .order orders => (Ledger.orderTotal orders).all fun total : Int =>
      decide (total ≤ 0) || decide (total = (quantities orders : Int))
  | .done tag => books.ledger.pendingOrders.head?.all fun order => tag.2 = order.1
  | _ => true

/-- No pizza of a later order is finished. -/
theorem Traced.finished_later {books : Books} (traced : books.Traced) {orderId : Int}
    (later : books.ledger.nextOrderId < orderId) : books.finished orderId = 0 := by
  have less := Multiset.countP_le_of_le (fun tag => tag.2 = orderId) traced.done_le_asked
  rw [Multiset.countP_eq_card_filter _ books.asked, traced.filter_later later] at less
  exact Nat.le_zero.mp less

/-- An order registered with its number of pizzas starts with no completion. -/
theorem Faithful.order {books next : Books} {orders : List PizzaOrder} (faithful : books.Faithful)
    (traced : books.Traced) (allowed : books.inOrder (.order orders) = true)
    (taken : books.step (.order orders) = some next) : next.Faithful := by
  simp only [Books.step] at taken
  split at taken
  · obtain ⟨⟨ledger, origin⟩, called, rfl⟩ := Option.map_eq_some_iff.mp taken
    have nonneg := traced.nonneg
    obtain ⟨total, counted, change⟩ := Ledger.orderCallback_cases called
    rcases change with ⟨_, rfl, rfl⟩ | ⟨positive, next, rfl⟩
    · refine ⟨fun order member => ?_, fun order member known => ?_⟩
      · intro remaining known
        rcases List.mem_append.mp member with before | last
        · exact faithful.pending order before remaining known
        · obtain rfl := List.mem_singleton.mp last
          exact absurd (traced.pending _ known).1 (lt_irrefl _)
      · rcases List.mem_append.mp member with before | last
        · exact faithful.announced order before known
        · obtain rfl := List.mem_singleton.mp last
          exact absurd (traced.announced _ known).1 (lt_irrefl _)
    · have exact' : total = quantities orders := by
        rw [inOrder, counted, Option.all_some, Bool.or_eq_true] at allowed
        rcases allowed with none' | same
        · have none' := of_decide_eq_true none'
          omega
        · exact of_decide_eq_true same
      refine ⟨fun order member => ?_, fun order member known => ?_⟩
      · intro remaining known
        rcases List.mem_append.mp known with old | new
        · have bounded := traced.pending _ old
          rcases List.mem_append.mp member with before | last
          · exact faithful.pending order before remaining old
          · obtain rfl := List.mem_singleton.mp last
            simp only at bounded
            omega
        · obtain ⟨same, rfl⟩ := Prod.mk.inj (List.mem_singleton.mp new)
          rcases List.mem_append.mp member with before | last
          · have bounded := traced.ids order before
            omega
          · obtain rfl := List.mem_singleton.mp last
            have none' : finished books origin = 0 := traced.finished_later (by omega)
            have length := length_expand orders
            change remaining + (finished books origin : Int) = (expand orders).length
            omega
      · have bounded := traced.announced _ known
        rcases List.mem_append.mp member with before | last
        · exact faithful.announced order before known
        · obtain rfl := List.mem_singleton.mp last
          simp only at bounded
          omega
  · cases taken

/-- A completion of the oldest pending order counts for that order alone. -/
theorem Faithful.done {books next : Books} {tag : PackedPizza × Int} (faithful : books.Faithful)
    (traced : books.Traced) (allowed : books.inOrder (.done tag) = true)
    (taken : books.step (.done tag) = some next) : next.Faithful := by
  simp only [Books.step] at taken
  split at taken <;> cases taken
  have grows : ∀ (ledger : Ledger) (orderId : Int), books.finished orderId ≤
      finished { books with ledger, done := books.done + {tag} } orderId := by
    intro ledger orderId
    rw [finished_done]
    exact Nat.le_add_right _ _
  cases front : books.ledger.pendingOrders with
  | nil =>
      simp only [Ledger.doneCallback_nil front]
      refine ⟨?_, fun order member known =>
        le_trans (faithful.announced order member known) (grows _ _)⟩
      simp [front]
  | cons order rest =>
      obtain ⟨orderId, count⟩ := order
      have own : tag.2 = orderId := by simpa [inOrder, front] using allowed
      have distinct := traced.distinct
      rw [front, List.map_cons, List.nodup_cons] at distinct
      have others : ∀ order ∈ books.accepted, ∀ remaining, (order.1, remaining) ∈ rest →
          remaining + finished { books with
            ledger := books.ledger.doneCallback, done := books.done + {tag} } order.1 =
              order.2.length := by
        intro order member remaining inside
        have apart : tag.2 ≠ order.1 := by
          rw [own]
          rintro rfl
          exact distinct.1 (List.mem_map.mpr ⟨_, inside, rfl⟩)
        rw [finished_done, if_neg apart, add_zero]
        exact faithful.pending order member remaining (by rw [front]; exact .tail _ inside)
      have first : ∀ order ∈ books.accepted, order.1 = orderId →
          count + books.finished order.1 = order.2.length := by
        rintro order member rfl
        exact faithful.pending order member count (by rw [front]; exact .head _)
      rcases Ledger.doneCallback_cons front with ⟨last, called⟩ | ⟨_, called⟩
      · refine ⟨fun order member remaining inside => ?_, fun order member known => ?_⟩
        · simp only [called] at inside
          exact others order member remaining inside
        · simp only [called] at known
          rcases List.mem_append.mp known with before | here
          · exact le_trans (faithful.announced order member before) (grows _ _)
          · have same := List.mem_singleton.mp here
            have complete := first order member same
            rw [finished_done, if_pos (own.trans same.symm)]
            omega
      · refine ⟨fun order member remaining inside => ?_, fun order member known => ?_⟩
        · simp only [called] at inside
          rcases List.mem_cons.mp inside with here | inside
          · obtain ⟨same, rfl⟩ := Prod.mk.inj here
            have complete := first order member same
            rw [finished_done, if_pos (own.trans same.symm)]
            push_cast
            omega
          · exact others order member remaining inside
        · simp only [called] at known
          exact le_trans (faithful.announced order member known) (grows _ _)

/-- Every entry in order keeps the orders faithful. -/
theorem Faithful.step {books next : Books} {entry : Entry} (faithful : books.Faithful)
    (traced : books.Traced) (allowed : books.inOrder entry = true)
    (taken : books.step entry = some next) : next.Faithful := by
  cases entry with
  | order orders => exact faithful.order traced allowed taken
  | done tag => exact faithful.done traced allowed taken
  | send =>
      simp only [Books.step] at taken
      split at taken <;> cases taken
      exact ⟨faithful.pending, faithful.announced⟩
  | full tag =>
      simp only [Books.step] at taken
      split at taken <;> cases taken
      exact ⟨faithful.pending, faithful.announced⟩

/-- An announced order has a completion for each of its own pizzas. -/
theorem Faithful.announced_le {books : Books} (faithful : books.Faithful) (traced : books.Traced)
    {order : Int × List Pizza} (member : order ∈ books.accepted)
    (known : order.1 ∈ books.ledger.announced) :
    (tagged order.2 order.1 : Multiset (PackedPizza × Int)) ≤ books.done := by
  have registered := (traced.announced _ known).1
  have own := Multiset.filter_le_filter (fun tag => tag.2 = order.1) traced.done_le_asked
  rw [traced.only order member registered.ne'] at own
  have complete := faithful.announced order member known
  rw [finished, Multiset.countP_eq_card_filter] at complete
  have same := Multiset.eq_of_le_of_card_le own (by
    rw [Multiset.coe_card, tagged, List.length_map]
    exact complete)
  rw [← same]
  exact Multiset.filter_le _ _

end Books

namespace Pizzeria

variable {P : KitchenProcess} {nCooks : Nat} {limit : Option Nat}

/-- The reception counts each completion for the order of its pizza. -/
def countsInOrder (pizzeria : Pizzeria P) (label : PizzeriaLabel P) : Bool :=
  (pizzeria.entry label).all pizzeria.books.inOrder

/-- The reception has received a done packet for each pizza of every announced order. -/
def AnnouncedReady (pizzeria : Pizzeria P) : Prop :=
  ∀ order ∈ pizzeria.accepted, order.1 ∈ pizzeria.ledger.announced →
    (tagged order.2 order.1 : Multiset (PackedPizza × Int)) ≤
      pizzeria.total (handledTags Packet.isDone)

/-- Every run that counts completions in order announces only ready orders. -/
theorem announcedReady_of_reachable (contract : P.Contract) {pizzeria : Pizzeria P}
    (reached : (machine P nCooks limit).ReachableUnder
      (fun pizzeria label => countsInOrder pizzeria label) pizzeria) :
    pizzeria.AnnouncedReady := by
  have above : Books.machine.ReachableUnder (fun books entry => books.inOrder entry)
      pizzeria.books := by
    refine (refines_books contract).reachable ?_ reached
    intro state label event allowed observed
    rw [countsInOrder, observed] at allowed
    exact allowed
  have traced := Books.traced_of_reachable above
  have faithful : pizzeria.books.Faithful :=
    above.invariant ⟨nofun, nofun⟩ fun before faithful allowed taken =>
      faithful.step (Books.traced_of_reachable before) allowed taken
  exact fun order member known => faithful.announced_le traced member known

open KitchenWorker

/-- A kitchen with two cooks receives a fantasia and a margarita of two orders. -/
def twoOrdersRun : List (PizzeriaLabel (process 2 none)) :=
  .order [⟨.fantasia, .s, 1⟩] :: receptionSteps 2 4 ++ mainSteps 2 0 6 ++
    .order [⟨.margarita, .s, 1⟩] :: receptionSteps 2 5 ++ .elapse kPollInterval :: mainSteps 2 0 6

/-- Both orders are announced by one poll when the cook of the fantasia is first. -/
theorem announcedReady_after_poll :
    ∃ pizzeria, (machine (process 2 none) 2 none).ReachableUnder
        (fun pizzeria label => countsInOrder pizzeria label) pizzeria ∧
      pizzeria.ledger.announced = [1, 2] ∧ pizzeria.AnnouncedReady := by
  obtain ⟨pizzeria, reached, checked⟩ :=
    (machine (process 2 none) 2 none).exists_reachableUnder countsInOrder
      (twoOrdersRun ++ cookSteps 0 0 4 ++ cookSteps 0 1 4 ++ .poll :: receptionSteps 2 6)
      (fun pizzeria => pizzeria.ledger.announced = [1, 2]) (by decide)
  exact ⟨pizzeria, reached, of_decide_eq_true checked,
    announcedReady_of_reachable (contract 2 none) reached⟩

/-- The cook of the margarita is first. -/
def overtakingRun : List (PizzeriaLabel (process 2 none)) :=
  twoOrdersRun ++ cookSteps 0 0 1 ++ cookSteps 0 1 4 ++ .poll :: receptionSteps 2 5

/-- The margarita of the second order announces the first order, whose fantasia is not finished. -/
theorem not_announcedReady :
    ∃ pizzeria, (machine (process 2 none) 2 none).Reachable pizzeria ∧
      ¬ pizzeria.AnnouncedReady := by
  obtain ⟨pizzeria, reached, checked⟩ := (machine (process 2 none) 2 none).exists_reachable
    overtakingRun
    (fun pizzeria => pizzeria.accepted.any fun order =>
      order.1 ∈ pizzeria.ledger.announced ∧
        ¬ (tagged order.2 order.1 : Multiset (PackedPizza × Int)) ≤
          pizzeria.total (handledTags Packet.isDone)) (by decide)
  obtain ⟨order, member, missing⟩ := List.any_eq_true.mp checked
  obtain ⟨known, missing⟩ := of_decide_eq_true missing
  exact ⟨pizzeria, reached, fun ready => missing (ready order member known)⟩

end Pizzeria

end Plazza
