import Plazza.Proof.Reception.Frames
import Plazza.Foundation.Tally
import Mathlib.Algebra.Order.BigOperators.Group.Finset

namespace Plazza
open Plazza.Foundation

def Packet.isDone (packet : Packet) : Bool := packet.type = .done

def Packet.isFull (packet : Packet) : Bool := packet.type = .full

/-- The books of the reception forget the kitchens: they count the pizzas to send, the sent pizzas
and the handled answers, each with its order. -/
@[ext] structure Books where
  ledger : Ledger
  accepted : List (Int × List Pizza)
  todo : List (PackedPizza × Int)
  sent : Multiset (PackedPizza × Int)
  done : Multiset (PackedPizza × Int)
  full : Multiset (PackedPizza × Int)

/-- The books change with an order, with a sent pizza and with a handled answer. -/
inductive Entry where
  | order (orders : List PizzaOrder)
  | send
  | done (tag : PackedPizza × Int)
  | full (tag : PackedPizza × Int)

/-- An order tags each of its pizzas with its id. -/
def tagged (pizzas : List Pizza) (origin : Int) : List (PackedPizza × Int) :=
  pizzas.map fun pizza => (pack pizza, origin)

namespace Books

def initial : Books := ⟨Ledger.initial, [], [], 0, 0, 0⟩

/-- The owed pizzas are the sent ones without a handled answer. -/
def owed (books : Books) : Multiset (PackedPizza × Int) := books.sent - (books.done + books.full)

/-- A new order waits until the last one is sent, and only an owed pizza is answered. -/
def step (books : Books) : Entry → Option Books
  | .order orders =>
      if books.todo = [] then
        (books.ledger.orderCallback orders).map fun result => { books with
          ledger := result.1
          accepted := books.accepted ++ [(result.2, expand orders)]
          todo := tagged (expand orders) result.2 }
      else none
  | .send =>
      match books.todo with
      | [] => none
      | tag :: rest => some { books with todo := rest, sent := books.sent + {tag} }
  | .done tag =>
      if books.done + books.full + {tag} ≤ books.sent then
        some { books with ledger := books.ledger.doneCallback, done := books.done + {tag} }
      else none
  | .full tag =>
      if books.done + books.full + {tag} ≤ books.sent then
        some { books with full := books.full + {tag} }
      else none

def machine : Machine Books Entry where
  initial := initial
  step := step

end Books

/-- The running call has these pizzas left to send. -/
def Call.todo : Call → List Pizza
  | .updating _ todo _ | .draining _ todo _ | .dispatching todo _ _ => todo
  | _ => []

/-- The pizzas of the running call belong to this order. -/
def Call.origin : Call → Int
  | .updating _ _ origin | .draining _ _ origin | .dispatching _ origin _ => origin
  | _ => 0

namespace Pizzeria

variable {P : KitchenProcess} {nCooks : Nat} {limit : Option Nat} {contract : P.Contract}

/-- The spawned sites are summed up by their weights. -/
def total {Total : Type} [AddCommMonoid Total] (weight : Site P.State → Total)
    (pizzeria : Pizzeria P) : Total :=
  ∑ id ∈ Finset.range pizzeria.nextKitchenId, weight (pizzeria.sites id)

/-- The weights of the sites are their sent pizzas and their handled answers. -/
def sentTags (site : Site P.State) : Multiset (PackedPizza × Int) :=
  tags Packet.isPizza site.orderQueue.sent

def handledTags (select : Packet → Bool) (site : Site P.State) : Multiset (PackedPizza × Int) :=
  tags select site.resultQueue.received

/-- The books of a pizzeria. -/
def books (pizzeria : Pizzeria P) : Books where
  ledger := pizzeria.ledger
  accepted := pizzeria.accepted
  todo := tagged pizzeria.call.todo pizzeria.call.origin
  sent := pizzeria.total sentTags
  done := pizzeria.total (handledTags Packet.isDone)
  full := pizzeria.total (handledTags Packet.isFull)

/-- The entry that a step makes in the books. -/
def entry (pizzeria : Pizzeria P) : PizzeriaLabel P → Option Entry
  | .order orders => some (.order orders)
  | .reception =>
      match pizzeria.next with
      | some (.apply index .handle, _) =>
          match pizzeria.kitchens[index]?.bind pizzeria.inbox with
          | none => none
          | some packet =>
              if packet.isDone then some (.done packet.tag)
              else if packet.isFull then some (.full packet.tag)
              else none
      | some (.apply _ (.send _ _), _) => some .send
      | _ => none
  | _ => none

/-- The call sends its next pizza or keeps the ones that are left. -/
theorem next_todo {pizzeria : Pizzeria P} {action : Action} {call : Call}
    (chosen : pizzeria.next = some (action, call)) :
    (∃ index pizza, action = .apply index (.send pizza pizzeria.call.origin) ∧
        pizzeria.call.todo = pizza :: call.todo ∧ call.origin = pizzeria.call.origin) ∨
      (∀ index pizza origin, action ≠ .apply index (.send pizza origin)) ∧
        tagged call.todo call.origin = tagged pizzeria.call.todo pizzeria.call.origin := by
  unfold next at chosen
  split at chosen
  case h_5 pizza rest origin at' =>
      cases chosen
      rw [at']
      exact .inl ⟨_, _, rfl, rfl, rfl⟩
  case h_6 pizza rest origin at' =>
      rw [at']
      split at chosen <;> cases chosen
      · exact .inr ⟨nofun, rfl⟩
      · exact .inl ⟨_, _, rfl, rfl, rfl⟩
  all_goals
    rename_i at'
    rw [at']
    repeat' split at chosen
    all_goals cases chosen
  all_goals exact .inr ⟨nofun, rfl⟩

/-- The pizzas of the done and of the full packets are the answers. -/
theorem tags_isAnswer (packets : List Packet) :
    tags Packet.isAnswer packets = tags Packet.isDone packets + tags Packet.isFull packets := by
  induction packets with
  | nil => rfl
  | cons packet rest ih =>
      rw [tags_cons Packet.isAnswer, tags_cons Packet.isDone, tags_cons Packet.isFull, ih,
        tags_singleton, tags_singleton, tags_singleton]
      have one : (if packet.isAnswer then {packet.tag} else 0 : Multiset (PackedPizza × Int)) =
          (if packet.isDone then {packet.tag} else 0) +
            if packet.isFull then {packet.tag} else 0 := by
        unfold Packet.isAnswer Packet.isDone Packet.isFull
        cases packet.type <;> rfl
      rw [one]
      ac_rfl

/-- The handled answers of a kitchen and its pending ones never exceed its sent pizzas. -/
theorem handled_le {site : Site P.State} (honest : site.Honest contract) :
    handledTags Packet.isDone site + handledTags Packet.isFull site +
        tags Packet.isAnswer site.resultQueue.pending ≤ sentTags site := by
  rw [sentTags, honest.account, handledTags, handledTags, ← tags_isAnswer,
    add_comm (tags _ site.resultQueue.received), add_assoc]
  exact le_add_of_nonneg_left (Multiset.zero_le _)

/-- A sent pizza packet adds the tag of its pizza. -/
theorem sentTags_send (site : Site P.State) (pizza : Pizza) (origin : Int) :
    sentTags { site with orderQueue :=
      site.orderQueue.send { type := .pizza, pizza := pack pizza, origin } } =
        sentTags site + {(pack pizza, origin)} := by
  simp [sentTags, tags_singleton, Packet.isPizza, Packet.tag]

/-- An operation changes a total by what the weight of its site gains. -/
theorem total_apply {weight : Site P.State → Multiset (PackedPizza × Int)} {pizzeria : Pizzeria P}
    {index : Nat} {operation : Operation} {kitchen : KitchenHandle} {outcome : Outcome P.State}
    {gain : Multiset (PackedPizza × Int)} (registered : pizzeria.Registered contract)
    (found : pizzeria.kitchens[index]? = some kitchen)
    (effect : operation.Effect kitchen (pizzeria.sites kitchen.id) outcome) (call : Call)
    (gained : weight outcome.site = weight (pizzeria.sites kitchen.id) + gain) :
    total weight { (pizzeria.touch index outcome.kitchen outcome.site).record outcome.report with
      call } = pizzeria.total weight + gain := by
  have spawned := registered.spawned kitchen (List.mem_of_getElem? found)
  have exchanged := sum_update_on weight pizzeria.sites (Finset.mem_range.mpr spawned) outcome.site
  rw [gained, ← add_assoc, add_right_comm _ _ gain] at exchanged
  simp only [total, touch, sites_record, nextKitchenId_record, effect.id]
  exact add_right_cancel exchanged

/-- An operation changes the books by the gains of its site and by its report. -/
theorem books_apply {pizzeria : Pizzeria P} {index : Nat} {operation : Operation}
    {kitchen : KitchenHandle} {outcome : Outcome P.State}
    {sent done full : Multiset (PackedPizza × Int)} (registered : pizzeria.Registered contract)
    (found : pizzeria.kitchens[index]? = some kitchen)
    (effect : operation.Effect kitchen (pizzeria.sites kitchen.id) outcome) (call : Call)
    (sends : sentTags outcome.site = sentTags (pizzeria.sites kitchen.id) + sent)
    (finishes : handledTags Packet.isDone outcome.site =
      handledTags Packet.isDone (pizzeria.sites kitchen.id) + done)
    (refuses : handledTags Packet.isFull outcome.site =
      handledTags Packet.isFull (pizzeria.sites kitchen.id) + full) :
    books { (pizzeria.touch index outcome.kitchen outcome.site).record outcome.report with call } =
      { ledger := (pizzeria.record outcome.report).ledger
        accepted := pizzeria.accepted
        todo := tagged call.todo call.origin
        sent := pizzeria.books.sent + sent
        done := pizzeria.books.done + done
        full := pizzeria.books.full + full } := by
  apply Books.ext
  · cases outcome.report <;> rfl
  · cases outcome.report <;> rfl
  · rfl
  · exact total_apply registered found effect call sends
  · exact total_apply registered found effect call finishes
  · exact total_apply registered found effect call refuses

/-- An operation that sends no pizza, handles no packet and reports nothing keeps the books. -/
theorem books_quiet {pizzeria : Pizzeria P} {index : Nat} {operation : Operation}
    {kitchen : KitchenHandle} {outcome : Outcome P.State} {call : Call}
    (registered : pizzeria.Registered contract)
    (found : pizzeria.kitchens[index]? = some kitchen)
    (effect : operation.Effect kitchen (pizzeria.sites kitchen.id) outcome)
    (todo : tagged call.todo call.origin = tagged pizzeria.call.todo pizzeria.call.origin)
    (silent : outcome.report = none)
    (orders : sentTags outcome.site = sentTags (pizzeria.sites kitchen.id))
    (results : outcome.site.resultQueue = (pizzeria.sites kitchen.id).resultQueue) :
    books { (pizzeria.touch index outcome.kitchen outcome.site).record outcome.report with call } =
      pizzeria.books := by
  have gained : ∀ select : Packet → Bool, handledTags select outcome.site =
      handledTags select (pizzeria.sites kitchen.id) + 0 := by
    intro select
    rw [add_zero, handledTags, results, handledTags]
  have books := books_apply registered found effect call (orders.trans (add_zero _).symm)
    (gained Packet.isDone) (gained Packet.isFull)
  rw [silent, add_zero, add_zero, add_zero, todo] at books
  rw [silent]
  exact books

/-- A received answer belongs to an owed pizza. -/
theorem answer_owed {pizzeria : Pizzeria P} {kitchen : KitchenHandle} {packet : Packet}
    {resultQueue : Fifo Packet} (registered : pizzeria.Registered contract)
    (member : kitchen ∈ pizzeria.kitchens)
    (received : (pizzeria.sites kitchen.id).resultQueue.receive = some (packet, resultQueue))
    (answers : packet.isAnswer = true) :
    pizzeria.books.done + pizzeria.books.full + {packet.tag} ≤ pizzeria.books.sent := by
  have spawned := Finset.mem_range.mpr (registered.spawned kitchen member)
  obtain ⟨head, _⟩ := Fifo.receive_eq_some_iff.mp received
  let owes : Nat → Multiset (PackedPizza × Int) := fun id =>
    if id = kitchen.id then {packet.tag} else 0
  have each : ∀ id ∈ Finset.range pizzeria.nextKitchenId,
      handledTags Packet.isDone (pizzeria.sites id) + handledTags Packet.isFull (pizzeria.sites id) +
        owes id ≤ sentTags (pizzeria.sites id) := by
    intro id _
    refine le_trans (add_le_add_right ?_ _) (handled_le (registered.honest id))
    by_cases same : id = kitchen.id
    · subst same
      rw [head, tags_cons, tags_singleton, if_pos answers]
      simp [owes]
    · simp [owes, same]
  have one : ∑ id ∈ Finset.range pizzeria.nextKitchenId, owes id = {packet.tag} := by
    simp only [owes, Finset.sum_ite_eq', if_pos spawned]
  have all := Finset.sum_le_sum each
  rw [Finset.sum_add_distrib, Finset.sum_add_distrib, one] at all
  exact all

/-- A handled packet makes the entry of its type. -/
theorem books_handle {pizzeria : Pizzeria P} {index : Nat} {kitchen handle : KitchenHandle}
    {packet : Packet} {resultQueue : Fifo Packet} {report : Option DoneReport} {call : Call}
    (registered : pizzeria.Registered contract)
    (chosen : pizzeria.next = some (.apply index .handle, call))
    (found : pizzeria.kitchens[index]? = some kitchen)
    (received : (pizzeria.sites kitchen.id).resultQueue.receive = some (packet, resultQueue))
    (exits : packet.type = .shutdown → P.exited (pizzeria.sites kitchen.id).process = true)
    (handled : Handled kitchen packet handle report)
    (todo : tagged call.todo call.origin = tagged pizzeria.call.todo pizzeria.call.origin) :
    let site := { pizzeria.sites kitchen.id with resultQueue }
    let next := { (pizzeria.touch index handle site).record report with call }
    match pizzeria.entry .reception with
    | none => next.books = pizzeria.books
    | some entry => pizzeria.books.step entry = some next.books := by
  intro site next
  obtain ⟨head, history⟩ := Fifo.receive_eq_some_iff.mp received
  have owed := answer_owed registered (List.mem_of_getElem? found) received
  have entered : pizzeria.entry .reception = if packet.isDone then some (.done packet.tag)
      else if packet.isFull then some (.full packet.tag) else none := by
    simp only [entry, chosen, found, Option.bind_some, inbox, head, List.head?_cons]
  have gained : ∀ select : Packet → Bool,
      handledTags select site = handledTags select (pizzeria.sites kitchen.id) +
        tags select [packet] := by
    intro select
    simp only [site, handledTags, history, tags_append]
  have books := books_apply registered found
    (.handle packet resultQueue handle report received exits handled) call (add_zero _).symm
    (gained Packet.isDone) (gained Packet.isFull)
  rw [tags_singleton, tags_singleton, todo, add_zero] at books
  rw [entered]
  by_cases isDone : packet.isDone = true
  · have type : packet.type = .done := of_decide_eq_true isDone
    obtain ⟨line, rfl, _⟩ := handled.done type
    have notFull : packet.isFull = false := by simp [Packet.isFull, type]
    have isAnswer : packet.isAnswer = true := by simp [Packet.isAnswer, type]
    simp only [isDone, notFull, if_true, Bool.false_eq_true, if_false, add_zero] at books ⊢
    simp only [Books.step, if_pos (owed isAnswer)]
    exact congrArg some books.symm
  · have silent := handled.silent fun type => isDone (by simp [Packet.isDone, type])
    subst silent
    rw [if_neg isDone]
    by_cases isFull : packet.isFull = true
    · have type : packet.type = .full := of_decide_eq_true isFull
      have isAnswer : packet.isAnswer = true := by simp [Packet.isAnswer, type]
      simp only [isDone, isFull, if_true, Bool.false_eq_true, if_false, add_zero] at books ⊢
      simp only [Books.step, if_pos (owed isAnswer)]
      exact congrArg some books.symm
    · simp only [isDone, isFull, Bool.false_eq_true, if_false, add_zero] at books ⊢
      exact books

/-- An action that is no operation keeps the pizzas that are left. -/
theorem todo_of_plain {pizzeria : Pizzeria P} {action : Action} {call : Call}
    (chosen : pizzeria.next = some (action, call))
    (plain : ∀ index operation, action ≠ .apply index operation) :
    tagged call.todo call.origin = tagged pizzeria.call.todo pizzeria.call.origin := by
  rcases next_todo chosen with ⟨_, _, send, _⟩ | ⟨_, todo⟩
  · exact absurd send (plain _ _)
  · exact todo

/-- A new kitchen has nothing in the books. -/
theorem books_spawn {pizzeria : Pizzeria P} {call : Call}
    (chosen : pizzeria.next = some (.spawn, call)) :
    books { pizzeria with
      kitchens := pizzeria.kitchens ++ [KitchenHandle.new pizzeria.nextKitchenId nCooks]
      nextKitchenId := pizzeria.nextKitchenId + 1
      sites := Function.update pizzeria.sites pizzeria.nextKitchenId (Site.fresh P.initial)
      call } = pizzeria.books := by
  have grown : ∀ weight : Site P.State → Multiset (PackedPizza × Int),
      weight (Site.fresh P.initial) = 0 →
      (∑ id ∈ Finset.range (pizzeria.nextKitchenId + 1), weight (Function.update pizzeria.sites
        pizzeria.nextKitchenId (Site.fresh P.initial) id)) = pizzeria.total weight := by
    intro weight none'
    rw [Finset.sum_range_succ, Function.update_self, none', add_zero]
    apply Finset.sum_congr rfl
    intro id member
    rw [Function.update_of_ne (Finset.mem_range.mp member).ne]
  simp only [books, todo_of_plain chosen nofun]
  apply Books.ext <;> try rfl
  · exact grown sentTags rfl
  · exact grown (handledTags Packet.isDone) rfl
  · exact grown (handledTags Packet.isFull) rfl

/-- A step of a kitchen neither sends a pizza packet nor handles an answer. -/
theorem books_kitchen {pizzeria : Pizzeria P} {id : Nat} {label : P.Label} {site : Site P.State}
    (honest : (pizzeria.sites id).Honest contract)
    (taken : P.step pizzeria.now (pizzeria.sites id) label = some site) :
    books { pizzeria with sites := Function.update pizzeria.sites id site } = pizzeria.books := by
  obtain ⟨orders, results⟩ := Site.frame_step honest taken
  have kept : ∀ weight : Site P.State → Multiset (PackedPizza × Int),
      weight site = weight (pizzeria.sites id) →
      (∑ other ∈ Finset.range pizzeria.nextKitchenId,
        weight (Function.update pizzeria.sites id site other)) = pizzeria.total weight :=
    fun weight same => sum_update_same_on weight pizzeria.sites id site same
  simp only [books]
  apply Books.ext <;> try rfl
  · exact kept sentTags (by simp only [sentTags, orders])
  · exact kept (handledTags Packet.isDone) (by simp only [handledTags, results])
  · exact kept (handledTags Packet.isFull) (by simp only [handledTags, results])

/-- A sent pizza packet makes its entry. -/
theorem books_send {pizzeria : Pizzeria P} {index : Nat} {kitchen : KitchenHandle} {pizza : Pizza}
    {origin : Int} {call : Call} {outcome : Outcome P.State}
    (registered : pizzeria.Registered contract)
    (chosen : pizzeria.next = some (.apply index (.send pizza origin), call))
    (found : pizzeria.kitchens[index]? = some kitchen)
    (effect : (Operation.send pizza origin).Effect kitchen (pizzeria.sites kitchen.id) outcome) :
    pizzeria.books.step .send = some (books
      { (pizzeria.touch index outcome.kitchen outcome.site).record outcome.report with call }) := by
  rcases next_todo chosen with ⟨_, _, send, todo, same⟩ | ⟨other, _⟩
  · cases send
    cases effect with
    | send =>
      have sends := sentTags_send (pizzeria.sites kitchen.id) pizza pizzeria.call.origin
      have books := books_apply registered found (.send pizza pizzeria.call.origin) call
        sends (add_zero _).symm (add_zero _).symm
      have front : pizzeria.books.todo =
          (pack pizza, pizzeria.call.origin) :: tagged call.todo call.origin := by
        simp only [Pizzeria.books, todo, same, tagged, List.map_cons]
      simp only [Books.step, front]
      rw [add_zero, add_zero] at books
      exact congrArg some books.symm
  · exact absurd rfl (other _ _ _)

/-- The entry of a step changes the books like the step, and a step without an entry keeps them. -/
theorem books_step {pizzeria next : Pizzeria P} {label : PizzeriaLabel P}
    (registered : pizzeria.Registered contract)
    (moved : Transition nCooks limit pizzeria label next) :
    match pizzeria.entry label with
    | none => next.books = pizzeria.books
    | some entry => pizzeria.books.step entry = some next.books := by
  cases moved with
  | order orders ledger origin idle registered =>
      simp only [entry, Books.step, books, idle, Call.todo, tagged, List.map_nil, if_true,
        registered, Option.map_some]
      rfl
  | status idle | poll idle | close idle => simp [entry, books, idle, Call.todo, tagged, total]
  | skip call chosen | erase call chosen | report call _ chosen | destroy call chosen =>
      simp only [entry, chosen, books, todo_of_plain chosen nofun]
      rfl
  | spawn call chosen =>
      simp only [entry, chosen]
      exact books_spawn chosen
  | kitchen id label site spawned taken => exact books_kitchen (registered.honest id) taken
  | apply index operation call kitchen outcome chosen found effect =>
      have kept : (∀ pizza origin, operation ≠ .send pizza origin) →
          tagged call.todo call.origin = tagged pizzeria.call.todo pizzeria.call.origin := by
        intro other
        rcases next_todo chosen with ⟨_, _, send, _⟩ | ⟨_, todo⟩
        · cases send
          exact absurd rfl (other _ _)
        · exact todo
      cases effect with
      | handle packet resultQueue handle report received exits handled =>
          exact books_handle registered chosen found received exits handled (kept nofun)
      | send pizza origin =>
          simp only [entry, chosen]
          exact books_send registered chosen found (.send pizza origin)
      | request =>
          simp only [entry, chosen]
          exact books_quiet registered found .request (kept nofun) rfl
            (by simp [sentTags, tags_singleton, Packet.isPizza]) rfl
      | close =>
          simp only [entry, chosen]
          exact books_quiet registered found .close (kept nofun) rfl
            (by simp [sentTags, tags_singleton, Packet.isPizza]) rfl
      | reap exits =>
          simp only [entry, chosen]
          exact books_quiet registered found (.reap exits) (kept nofun) rfl rfl rfl
  | elapse => rfl

/-- The pizzeria refines its books. -/
theorem refines_books (contract : P.Contract) :
    Machine.Refinement (machine P nCooks limit) Books.machine books entry where
  initial := rfl
  silent reached taken silent := by
    have step := books_step (registered_of_reachable contract reached) (transition_of_step taken)
    rw [silent] at step
    exact step
  visible reached taken visible := by
    have step := books_step (registered_of_reachable contract reached) (transition_of_step taken)
    rw [visible] at step
    exact step

end Pizzeria

end Plazza
