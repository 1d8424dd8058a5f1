import Plazza.Foundation.Countdown
import Plazza.Proof.Reception.LedgerRules

namespace Plazza
open Plazza.Foundation

/-- The history of the calls: the registered totals, the number of the completion callbacks and each
announced order with the number of the callback that announced it. -/
structure Calls where
  totals : List Nat
  callbacks : Nat
  announcements : List (Int × Nat)

namespace Calls

def initial : Calls := ⟨[], 0, []⟩

def record (before : Ledger) (label : LedgerLabel) (next : Ledger) (calls : Calls) : Calls :=
  match label with
  | .order orders => { calls with
      totals := calls.totals ++ ((Ledger.orderTotal orders).map Int.toNat).toList }
  | .done => { calls with
      callbacks := calls.callbacks + 1
      announcements := calls.announcements ++
        (next.announced.drop before.announced.length).map (·, calls.callbacks + 1) }

/-- Every registered total is positive, and no completion is called without a registered pizza. -/
def Counted (state : Ledger × Calls) : LedgerLabel → Prop
  | .order orders => ∃ total, Ledger.orderTotal orders = some total ∧ 0 < total
  | .done => state.2.callbacks + 1 ≤ state.2.totals.sum

/-- The front order holds what its prefix sum lacks and every later order its full total. -/
def pendingOrders (calls : Calls) : List (Int × Int) :=
  match openNumbers calls.totals calls.callbacks with
  | [] => []
  | front :: rest =>
      ((front : Int), (prefixSum calls.totals front : Int) - calls.callbacks) ::
        rest.map fun number : Nat => ((number : Int), (calls.totals.getD (number - 1) 0 : Int))

/-- Each closed order is announced by the callback that its prefix sum numbers. -/
def announcedOrders (calls : Calls) : List (Int × Nat) :=
  (closedNumbers calls.totals calls.callbacks).map fun number : Nat =>
    ((number : Int), prefixSum calls.totals number)

/-- The ledger follows the cumulative count. -/
structure Follows (ledger : Ledger) (calls : Calls) : Prop where
  pending : ledger.pendingOrders = calls.pendingOrders
  announcements : calls.announcements = calls.announcedOrders
  announced : ledger.announced = calls.announcements.map Prod.fst

/-- The pending orders after the given number of closed ones, of which the first lacks some pizzas. -/
def waiting (start : Nat) (lacking : Int) : List Nat → List (Int × Int)
  | [] => []
  | _ :: rest => ((start + 1 : Nat), lacking) ::
      (rest.zipIdx (start + 2)).map fun entry => ((entry.2 : Int), (entry.1 : Int))

/-- The announcements of the closed orders. -/
def closedOrders (closed : List Nat) : List (Int × Nat) :=
  (numbers closed).map fun number : Nat => ((number : Int), prefixSum closed number)

/-- The registered orders are the closed ones and then the open ones. -/
structure Split (closed opened : List Nat) (ledger : Ledger) (calls : Calls) : Prop where
  totals : calls.totals = closed ++ opened
  positive : ∀ total ∈ opened, 0 < total
  nextOrderId : ledger.nextOrderId = calls.totals.length
  reached : closed.sum ≤ calls.callbacks
  short : ∀ total ∈ opened.head?, calls.callbacks < closed.sum + total
  bounded : calls.callbacks ≤ calls.totals.sum
  pending : ledger.pendingOrders =
    waiting closed.length ((closed.sum : Int) + (opened.headD 0 : Nat) - calls.callbacks) opened
  announcements : calls.announcements = closedOrders closed
  announced : ledger.announced = calls.announcements.map Prod.fst

/-- A new order waits behind the open ones. -/
theorem waiting_append (start : Nat) (lacking : Int) {opened : List Nat} (some' : opened ≠ [])
    (total : Nat) : waiting start lacking (opened ++ [total]) =
      waiting start lacking opened ++
        [(((start + opened.length + 1 : Nat) : Int), (total : Int))] := by
  cases opened with
  | nil => exact absurd rfl some'
  | cons first rest =>
      have last : start + 2 + rest.length = start + (rest.length + 1) + 1 := by omega
      simp only [waiting, List.cons_append, List.zipIdx_append, List.map_append, List.zipIdx_cons,
        List.zipIdx_nil, List.map_cons, List.map_nil, List.length_cons, last]

/-- Without an open order every registered pizza is counted. -/
theorem Split.callbacks_eq {closed : List Nat} {ledger : Ledger} {calls : Calls}
    (split : Split closed [] ledger calls) : calls.callbacks = closed.sum := by
  have all := split.bounded
  rw [split.totals, List.append_nil] at all
  exact Nat.le_antisymm all split.reached

/-- A registration opens the last order. -/
theorem Split.order {closed opened : List Nat} {ledger next : Ledger} {calls : Calls}
    {orders : List PizzaOrder} (split : Split closed opened ledger calls)
    (counted : Counted (ledger, calls) (.order orders))
    (taken : ledger.step (.order orders) = some next) :
    ∃ total, Split closed (opened ++ [total]) next (record ledger (.order orders) next calls) := by
  obtain ⟨total, sum, positive⟩ := counted
  obtain ⟨⟨after, origin⟩, called, rfl⟩ := Option.map_eq_some_iff.mp taken
  obtain ⟨other, same, change⟩ := Ledger.orderCallback_cases called
  obtain rfl : total = other := Option.some.inj (sum.symm.trans same)
  rcases change with ⟨notPositive, _⟩ | ⟨_, rfl, rfl⟩
  · omega
  obtain ⟨count, rfl⟩ := Int.eq_ofNat_of_zero_le positive.le
  have recorded : ∀ next : Ledger, record ledger (.order orders) next calls =
      { calls with totals := calls.totals ++ [count] } := by
    intro next
    simp only [record, sum, Option.map_some, Option.toList_some]
    rfl
  have length := congrArg List.length split.totals
  rw [List.length_append] at length
  refine ⟨count, ?_⟩
  rw [recorded]
  refine ⟨?_, ?_, ?_, split.reached, ?_, ?_, ?_, split.announcements, split.announced⟩
  · rw [split.totals, List.append_assoc]
  · intro total member
    rcases List.mem_append.mp member with before | last
    · exact split.positive total before
    · obtain rfl := List.mem_singleton.mp last
      omega
  · simp only [split.nextOrderId, List.length_append, List.length_singleton]
    push_cast
    rfl
  · intro total front
    cases opened with
    | nil =>
        have counted := split.callbacks_eq
        obtain rfl : count = total := by simpa using front
        simp only
        omega
    | cons first rest => exact split.short total front
  · have all := split.bounded
    simp only [List.sum_append, List.sum_singleton]
    omega
  · have id : ledger.nextOrderId + 1 = ((closed.length + opened.length + 1 : Nat) : Int) := by
      rw [split.nextOrderId, length]
      push_cast
      rfl
    simp only [split.pending, id]
    cases opened with
    | nil =>
        have counted := split.callbacks_eq
        simp only [waiting, List.nil_append, List.length_nil, Nat.add_zero, List.headD_cons,
          List.zipIdx_nil, List.map_nil, List.cons.injEq, Prod.mk.injEq, and_true, true_and]
        omega
    | cons first rest =>
        rw [waiting_append _ _ (List.cons_ne_nil _ _)]
        rfl

/-- The last pizza of the first open order closes it. -/
theorem Split.close {closed rest : List Nat} {total : Nat} {ledger : Ledger} {calls : Calls}
    (split : Split closed (total :: rest) ledger calls)
    (last : (closed.sum : Int) + total - calls.callbacks = 1)
    (called : ledger.doneCallback = { ledger with
      pendingOrders := (rest.zipIdx (closed.length + 2)).map fun entry =>
        ((entry.2 : Int), (entry.1 : Int))
      announced := ledger.announced ++ [((closed.length + 1 : Nat) : Int)] }) :
    Split (closed ++ [total]) rest ledger.doneCallback
      (record ledger .done ledger.doneCallback calls) := by
  have reached : closed.sum + total = calls.callbacks + 1 := by omega
  have all := split.totals
  simp only [called, record, List.drop_left, List.map_cons, List.map_nil]
  refine ⟨?_, ?_, split.nextOrderId, ?_, ?_, ?_, ?_, ?_, ?_⟩
  · rw [split.totals, List.append_assoc, List.singleton_append]
  · exact fun other member => split.positive other (List.mem_cons_of_mem _ member)
  · rw [List.sum_append, List.sum_singleton]
    exact reached.le
  · intro other front
    have positive := split.positive other (List.mem_cons_of_mem _ (List.mem_of_mem_head? front))
    simp only [List.sum_append, List.sum_singleton]
    omega
  · simp only [split.totals, List.sum_append, List.sum_cons]
    omega
  · cases rest with
    | nil => rfl
    | cons other rest =>
        rw [List.headD_cons, List.sum_append, List.sum_singleton, List.length_append,
          List.length_singleton, waiting, List.zipIdx_cons, List.map_cons]
        have lacking : ((closed.sum + total : Nat) : Int) + other -
            (calls.callbacks + 1 : Nat) = other := by
          omega
        rw [lacking]
  · rw [split.announcements, closedOrders, closedOrders, numbers_append, List.map_append,
      List.length_singleton, List.range'_one, List.map_cons, List.map_nil, prefixSum_first, reached]
    have same : ∀ number ∈ numbers closed, ((number : Int), prefixSum closed number) =
        ((number : Int), prefixSum (closed ++ [total]) number) := by
      intro number member
      rw [numbers, List.mem_range'_1] at member
      rw [prefixSum_append_of_le (by omega)]
    rw [List.map_congr_left same]
  · rw [split.announced, List.map_append, List.map_cons, List.map_nil]

/-- A completion counts against the first open order and closes it with its last pizza. -/
theorem Split.done {closed opened : List Nat} {ledger : Ledger} {calls : Calls}
    (split : Split closed opened ledger calls) (counted : Counted (ledger, calls) .done) :
    ∃ closed opened, Split closed opened ledger.doneCallback
      (record ledger .done ledger.doneCallback calls) := by
  have enough : calls.callbacks + 1 ≤ calls.totals.sum := counted
  cases opened with
  | nil =>
      rw [split.totals, List.append_nil, split.callbacks_eq] at enough
      exact absurd enough (Nat.not_succ_le_self _)
  | cons total rest =>
      have short := split.short total rfl
      have pending := split.pending
      rw [List.headD_cons, waiting] at pending
      rcases Ledger.doneCallback_cons pending with ⟨last, called⟩ | ⟨more, called⟩
      · refine ⟨closed ++ [total], rest, split.close last called⟩
      · refine ⟨closed, total :: rest, ?_⟩
        simp only [called, record, List.drop_length, List.map_nil, List.append_nil]
        refine ⟨split.totals, split.positive, split.nextOrderId, Nat.le_succ_of_le split.reached, ?_,
          enough, ?_, split.announcements, split.announced⟩
        · intro first front
          obtain rfl : total = first := Option.some.inj front
          simp only
          omega
        · have lacking : (closed.sum : Int) + total - calls.callbacks - 1 =
              closed.sum + total - (calls.callbacks + 1 : Nat) := by
            push_cast
            omega
          rw [List.headD_cons, waiting, lacking]

/-- Every run splits the registered orders. -/
theorem split_of_reachable {state : Ledger × Calls}
    (reached : (Ledger.machine.withHistory record initial).ReachableUnder Counted state) :
    ∃ closed opened, Split closed opened state.1 state.2 := by
  refine reached.invariant
    (motive := fun state => ∃ closed opened, Split closed opened state.1 state.2)
    ⟨[], [], ⟨rfl, nofun, rfl, le_rfl, nofun, le_rfl, rfl, rfl, rfl⟩⟩ ?_
  intro before next label _ split counted taken
  obtain ⟨closed, opened, split⟩ := split
  obtain ⟨stepped, recorded⟩ := Foundation.Machine.withHistory_step.mp taken
  rw [recorded]
  cases label with
  | order orders =>
      obtain ⟨total, grown⟩ := split.order counted stepped
      exact ⟨closed, opened ++ [total], grown⟩
  | done =>
      have called : before.1.doneCallback = next.1 := Option.some.inj stepped
      rw [← called]
      exact split.done counted

/-- The split states the cumulative count. -/
theorem Split.follows {closed opened : List Nat} {ledger : Ledger} {calls : Calls}
    (split : Split closed opened ledger calls) : Follows ledger calls where
  pending := by
    rw [split.pending, pendingOrders, split.totals, openNumbers_append split.reached split.short]
    cases opened with
    | nil => rfl
    | cons total rest =>
        have later := map_zipIdx (fun number total : Nat => ((number : Int), (total : Int)))
          (closed ++ [total]) rest
        rw [List.length_append, List.length_singleton, List.append_assoc,
          List.singleton_append] at later
        simp only [waiting, List.length_cons, List.range'_succ, later, prefixSum_first,
          List.headD_cons, Int.natCast_add]
  announcements := by
    rw [split.announcements, announcedOrders, split.totals,
      closedNumbers_append split.reached split.short, closedOrders]
    refine List.map_congr_left fun number member => ?_
    rw [numbers, List.mem_range'_1] at member
    rw [prefixSum_append_of_le (by omega)]
  announced := split.announced

/-- The announcements follow the cumulative count in every run of the two callbacks. -/
theorem follows_of_reachable {state : Ledger × Calls}
    (reached : (Ledger.machine.withHistory record initial).ReachableUnder Counted state) :
    Follows state.1 state.2 := by
  obtain ⟨closed, opened, split⟩ := split_of_reachable reached
  exact split.follows

/-- The second completion announces an order of two pizzas while a later order waits. -/
theorem follows_after_announcement :
    Follows ⟨[(2, 1)], 2, [1]⟩ ⟨[2, 1], 2, [(1, 2)]⟩ := by
  have first : Counted (Ledger.initial, initial) (.order [⟨.margarita, .s, 2⟩]) :=
    ⟨2, rfl, by decide⟩
  have second : Counted (⟨[(1, 2)], 1, []⟩, ⟨[2], 0, []⟩) .done := Nat.le_succ 1
  have third : Counted (⟨[(1, 1)], 1, []⟩, ⟨[2], 1, []⟩) (.order [⟨.regina, .m, 1⟩]) :=
    ⟨1, rfl, by decide⟩
  have fourth : Counted (⟨[(1, 1), (2, 1)], 2, []⟩, ⟨[2, 1], 1, []⟩) .done := Nat.le_succ 2
  exact follows_of_reachable
    (.step (.step (.step (.step .initial first rfl) second rfl) third rfl) fourth rfl)

end Calls

end Plazza
