import Plazza.Foundation.Mutex
import Plazza.Proof.Stock.Sleepers

namespace Plazza
open Plazza.Foundation

/-- The position holds the mutex. -/
def StockPosition.holds : StockPosition → Bool
  | testing _ | unlocking => true
  | outside | locking _ | waiting _ => false

def RegenPosition.holds : RegenPosition → Bool
  | testing | notifying | unlocking _ => true
  | sleeping | ended => false

def DestructorPosition.holds : DestructorPosition → Bool
  | clearing | unlocking => true
  | alive | notifying | done => false

/-- A notification gives nobody the mutex. -/
@[simp] theorem StockPosition.holds_wake (position : StockPosition) :
    position.wake.holds = position.holds := by
  cases position <;> rfl

/-- The section of a cook takes effect when the cook tests the condition. -/
def StockPosition.point : StockPosition → StockPoint
  | outside | unlocking => .outside
  | locking needed | testing needed => .locking needed
  | waiting needed => .waiting needed

@[simp] theorem StockPosition.point_wake (position : StockPosition) :
    position.wake.point = position.point.wake := by
  cases position <;> rfl

@[simp] theorem StockPoint.wake_wake (point : StockPoint) : point.wake.wake = point.wake := by
  cases point <;> rfl

def DestructorPosition.phase : DestructorPosition → Phase
  | alive | clearing => .serving
  | unlocking | notifying => .stopping
  | done => .stopped

namespace LockedStock

variable {nCooks : Nat}

@[simp] theorem cooks_moveTo (state : LockedStock nCooks) (index : Fin nCooks)
    (position : StockPosition) :
    (state.moveTo index position).cooks = Function.update state.cooks index position := rfl

def holds (state : LockedStock nCooks) : StockThread nCooks → Bool
  | .cook index => (state.cooks index).holds
  | .regenerator => state.regenerator.holds
  | .destructor => state.destructor.holds

section Holding

variable {state : LockedStock nCooks}

theorem holds_cook {index : Fin nCooks} {position : StockPosition}
    (stands : state.cooks index = position) (inside : position.holds = true) :
    state.holds (.cook index) = true := by
  rw [holds, stands, inside]

theorem holds_regenerator {position : RegenPosition} (stands : state.regenerator = position)
    (inside : position.holds = true) : state.holds .regenerator = true := by
  rw [holds, stands, inside]

theorem holds_destructor {position : DestructorPosition} (stands : state.destructor = position)
    (inside : position.holds = true) : state.holds .destructor = true := by
  rw [holds, stands, inside]

end Holding

/-- The holder of the mutex is the only thread in a section, and a tick that has not notified yet is
one of a running stock. -/
structure Exclusive (state : LockedStock nCooks) : Prop where
  owned : Owned state.holder state.holds
  ticking : state.regenerator = .notifying → state.room.running = true

/-- A thread in a section holds the mutex. -/
theorem Exclusive.holder {state : LockedStock nCooks} (exclusive : state.Exclusive)
    {thread : StockThread nCooks} (inside : state.holds thread = true) :
    state.holder = some thread := (exclusive.owned thread).mp inside

/-- A move of one cook changes the section of no other thread. -/
theorem holds_moveTo {state : LockedStock nCooks} {index : Fin nCooks} {position : StockPosition}
    (other : StockThread nCooks) (apart : other ≠ .cook index) :
    (state.moveTo index position).holds other = state.holds other := by
  cases other with
  | cook at' =>
      have different : at' ≠ index := fun same => apart (congrArg _ same)
      simp [holds, Function.update_of_ne different]
  | regenerator => rfl
  | destructor => rfl

/-- Each statement of a cook keeps the others out of its section. -/
theorem Exclusive.waitAndConsumeIngredients {state next : LockedStock nCooks} {index : Fin nCooks}
    (exclusive : state.Exclusive) (taken : state.waitAndConsumeIngredients index = some next) :
    next.Exclusive := by
  unfold LockedStock.waitAndConsumeIngredients at taken
  split at taken
  · cases taken
  · cases taken
  · split at taken <;> cases taken
    rename_i free
    refine ⟨exclusive.owned.step (.inl free) holds_moveTo ?_, exclusive.ticking⟩
    simp [holds, StockPosition.holds]
  · rename_i needed stands
    have mine := exclusive.holder (holds_cook stands rfl)
    split at taken <;> cases taken
    · refine ⟨exclusive.owned.step (.inr mine) holds_moveTo ?_, exclusive.ticking⟩
      simp [holds, StockPosition.holds]
    · rename_i returned
      refine ⟨exclusive.owned.step (.inr mine) holds_moveTo ?_, fun notifying => ?_⟩
      · simp only [holds, cooks_moveTo, Function.update_self, StockPosition.holds, if_true]
        exact mine
      · exact (IngredientStock.running_of_returned returned).trans (exclusive.ticking notifying)
  · rename_i stands
    cases taken
    have mine := exclusive.holder (holds_cook stands rfl)
    refine ⟨exclusive.owned.step (.inr mine) holds_moveTo ?_, exclusive.ticking⟩
    simp [holds, StockPosition.holds]

/-- A statement of the regeneration loop keeps the others out when it has the mutex or takes it
free. -/
theorem Exclusive.owned_regenerator {state next : LockedStock nCooks}
    (exclusive : state.Exclusive)
    (cooks : ∀ index, (next.cooks index).holds = (state.cooks index).holds)
    (destructor : next.destructor = state.destructor)
    (has : state.holder = none ∨ state.holder = some .regenerator)
    (held : next.holder = if next.regenerator.holds then some .regenerator else none) :
    Owned next.holder next.holds := by
  refine exclusive.owned.step has (fun other apart => ?_) held
  cases other with
  | cook index => exact cooks index
  | regenerator => exact absurd rfl apart
  | destructor => exact congrArg DestructorPosition.holds destructor

/-- A statement of the destructor keeps the others out when it has the mutex or takes it free. -/
theorem Exclusive.owned_destructor {state next : LockedStock nCooks}
    (exclusive : state.Exclusive)
    (cooks : ∀ index, (next.cooks index).holds = (state.cooks index).holds)
    (regenerator : next.regenerator = state.regenerator)
    (has : state.holder = none ∨ state.holder = some .destructor)
    (held : next.holder = if next.destructor.holds then some .destructor else none) :
    Owned next.holder next.holds := by
  refine exclusive.owned.step has (fun other apart => ?_) held
  cases other with
  | cook index => exact cooks index
  | regenerator => exact congrArg RegenPosition.holds regenerator
  | destructor => exact absurd rfl apart

/-- Each statement of the regeneration loop keeps the others out of its section. -/
theorem Exclusive.regenLoop {state next : LockedStock nCooks} (exclusive : state.Exclusive)
    (taken : state.regenLoop = some next) : next.Exclusive := by
  unfold LockedStock.regenLoop at taken
  split at taken
  · split at taken <;> cases taken
    rename_i free
    exact ⟨exclusive.owned_regenerator (fun _ => rfl) rfl (.inl free) rfl, by simp⟩
  · rename_i stands
    have mine := exclusive.holder (holds_regenerator stands rfl)
    split at taken <;> cases taken
    · exact ⟨exclusive.owned_regenerator (fun _ => rfl) rfl (.inr mine) mine, by simp⟩
    · rename_i room ticked
      refine ⟨exclusive.owned_regenerator (fun _ => rfl) rfl (.inr mine) mine, fun _ => ?_⟩
      unfold IngredientStock.regenLoop at ticked
      split at ticked <;> cases ticked
      assumption
  · rename_i stands
    have mine := exclusive.holder (holds_regenerator stands rfl)
    cases taken
    exact ⟨exclusive.owned_regenerator (fun _ => StockPosition.holds_wake _) rfl (.inr mine) mine,
      by simp⟩
  · rename_i again stands
    have mine := exclusive.holder (holds_regenerator stands rfl)
    cases taken
    refine ⟨exclusive.owned_regenerator (fun _ => rfl) rfl (.inr mine) ?_, ?_⟩
    · cases again <;> simp [RegenPosition.holds]
    · cases again <;> simp
  · cases taken

/-- Each statement of the destructor keeps the others out of its section. -/
theorem Exclusive.destroy {state next : LockedStock nCooks} (exclusive : state.Exclusive)
    (taken : state.destroy = some next) : next.Exclusive := by
  unfold LockedStock.destroy at taken
  split at taken
  · split at taken <;> cases taken
    rename_i free
    exact ⟨exclusive.owned_destructor (fun _ => rfl) rfl (.inl free) rfl, exclusive.ticking⟩
  · rename_i stands
    have mine := exclusive.holder (holds_destructor stands rfl)
    cases taken
    refine ⟨exclusive.owned_destructor (fun _ => rfl) rfl (.inr mine) mine, fun notifying => ?_⟩
    -- the regeneration loop would hold the mutex of the destructor
    have ticks := exclusive.holder (holds_regenerator notifying rfl)
    cases mine.symm.trans ticks
  · rename_i stands
    have mine := exclusive.holder (holds_destructor stands rfl)
    cases taken
    exact ⟨exclusive.owned_destructor (fun _ => rfl) rfl (.inr mine) rfl, exclusive.ticking⟩
  · rename_i stands
    cases taken
    refine ⟨exclusive.owned.stay fun other => ?_, exclusive.ticking⟩
    cases other with
    | cook index => exact StockPosition.holds_wake _
    | regenerator => rfl
    | destructor => simp [holds, stands, DestructorPosition.holds]
  · cases taken

/-- A move outside of the section leaves the mutex alone. -/
theorem Exclusive.moveTo {state : LockedStock nCooks} (exclusive : state.Exclusive)
    {index : Fin nCooks} {position : StockPosition} (outside : (state.cooks index).holds = false)
    (moves : position.holds = false) : (state.moveTo index position).Exclusive := by
  refine ⟨exclusive.owned.stay fun other => ?_, exclusive.ticking⟩
  by_cases same : other = .cook index
  · simp [same, holds, outside, moves]
  · exact holds_moveTo other same

/-- Each step keeps the sections apart. -/
theorem Exclusive.step {state next : LockedStock nCooks} {label : LockedStockLabel nCooks}
    (exclusive : state.Exclusive) (taken : state.step label = some next) : next.Exclusive := by
  cases label with
  | call index needed =>
      simp only [LockedStock.step] at taken
      split at taken <;> cases taken
      rename_i stands
      exact exclusive.moveTo (by rw [stands]; rfl) rfl
  | thread thread =>
      cases thread with
      | cook index => exact exclusive.waitAndConsumeIngredients taken
      | regenerator => exact exclusive.regenLoop taken
      | destructor => exact exclusive.destroy taken
  | wakeSpuriously index =>
      simp only [LockedStock.step] at taken
      split at taken <;> cases taken
      rename_i stands
      exact exclusive.moveTo (by rw [stands]; rfl) rfl

/-- At most one thread stands in a section in every run. -/
theorem exclusive_of_reachable {initialStock : UInt64} {state : LockedStock nCooks}
    (reached : (machine nCooks initialStock).Reachable state) : state.Exclusive := by
  have fresh : Exclusive (machine nCooks initialStock).initial := by
    refine ⟨?_, by simp [machine]⟩
    rintro (_ | _ | _) <;> simp [machine, holds, StockPosition.holds, RegenPosition.holds,
      DestructorPosition.holds]
  exact reached.invariant fresh fun _ exclusive _ taken => exclusive.step taken

/-- A tick wakes the sleepers in the step that adds its units. -/
def seen (state : LockedStock nCooks) (position : StockPosition) : StockPoint :=
  if state.regenerator = .notifying then position.point.wake else position.point

/-- The sections as they take effect in one step. -/
def shared (state : LockedStock nCooks) : SharedStock nCooks where
  room := state.room
  cooks index := state.seen (state.cooks index)
  phase := state.destructor.phase

/-- The statement in which a section takes effect. -/
def observe (state : LockedStock nCooks) :
    LockedStockLabel nCooks → Option (SharedStockLabel nCooks)
  | .call index needed => some (.call index needed)
  | .thread (.cook index) =>
      match state.cooks index with
      | .testing _ => some (.consume index)
      | _ => none
  | .thread .regenerator =>
      if state.regenerator = .testing ∧ state.room.running = true then some .regenerate else none
  | .thread .destructor =>
      match state.destructor with
      | .clearing => some .stop
      | .notifying => some .notifyAll
      | _ => none
  | .wakeSpuriously index =>
      if state.regenerator = .notifying then none else some (.wakeSpuriously index)

/-- A position without a wait is seen as its point. -/
theorem seen_of_wake {state : LockedStock nCooks} {position : StockPosition}
    (fixed : position.point.wake = position.point) : state.seen position = position.point := by
  unfold seen
  split
  · exact fixed
  · rfl

/-- A move of one cook is seen as a move of this cook. -/
theorem shared_moveTo (state : LockedStock nCooks) (index : Fin nCooks) (position : StockPosition)
    (room : IngredientStock) (holder : Option (StockThread nCooks)) :
    shared { state.moveTo index position with room, holder } =
      { state.shared.moveTo index (state.seen position) with room } := by
  have cooks : (fun other => state.seen (Function.update state.cooks index position other)) =
      Function.update (fun other => state.seen (state.cooks other)) index (state.seen position) := by
    funext other
    exact Function.apply_update (fun _ => state.seen) _ _ _ _
  simp only [shared, SharedStock.moveTo, cooks_moveTo, ← cooks]
  rfl

/-- A move to a position that is seen alike is not seen. -/
theorem shared_moveTo_self {state : LockedStock nCooks} {index : Fin nCooks}
    {position : StockPosition} (alike : state.seen position = state.seen (state.cooks index))
    (holder : Option (StockThread nCooks)) :
    shared { state.moveTo index position with holder } = state.shared := by
  refine (shared_moveTo state index position state.room holder).trans ?_
  have kept : Function.update state.shared.cooks index (state.seen position) =
      state.shared.cooks := by
    rw [alike]
    exact Function.update_eq_self index state.shared.cooks
  simp only [SharedStock.moveTo, kept]
  rfl

/-- A cook calls, locks, tests and unlocks as one section. -/
theorem follows_waitAndConsumeIngredients {initialStock : UInt64}
    {state next : LockedStock nCooks} {index : Fin nCooks} (exclusive : state.Exclusive)
    (taken : state.waitAndConsumeIngredients index = some next) :
    (SharedStock.machine nCooks initialStock).Follows state.shared
      (state.observe (.thread (.cook index))) next.shared := by
  unfold LockedStock.waitAndConsumeIngredients at taken
  split at taken
  · cases taken
  · cases taken
  · rename_i needed stands
    split at taken <;> cases taken
    simp only [observe, stands]
    refine shared_moveTo_self ?_ _
    rw [stands, seen_of_wake rfl, seen_of_wake rfl]
    rfl
  · rename_i needed stands
    have mine := holds_cook stands rfl
    -- the regeneration loop cannot stand before its notification in the section of the cook
    have quiet : state.regenerator ≠ .notifying := by
      intro notifying
      have both := exclusive.owned.unique mine (holds_regenerator notifying rfl)
      cases both
    have locking : state.shared.cooks index = .locking needed := by
      change state.seen (state.cooks index) = _
      rw [stands, seen_of_wake rfl]
      rfl
    simp only [observe, stands]
    split at taken <;> cases taken
    · rename_i waits
      have sleeps : state.seen (.waiting needed) = .waiting needed := if_neg quiet
      have room : state.shared.room.waitAndConsumeIngredients needed = none := waits
      simp only [Machine.Follows, SharedStock.machine, SharedStock.step, locking, room]
      refine congrArg some (Eq.trans ?_ (shared_moveTo state index _ state.room none).symm)
      rw [sleeps]
      rfl
    · rename_i consumed room returned
      have returns : state.shared.room.waitAndConsumeIngredients needed = some (consumed, room) :=
        returned
      simp only [Machine.Follows, SharedStock.machine, SharedStock.step, locking, returns]
      refine congrArg some (Eq.trans ?_ (shared_moveTo state index _ room state.holder).symm)
      rw [seen_of_wake rfl]
      rfl
  · rename_i stands
    cases taken
    simp only [observe, stands]
    refine shared_moveTo_self ?_ _
    rw [stands, seen_of_wake rfl, seen_of_wake rfl]
    rfl

/-- A tick adds its units and notifies as one section. -/
theorem follows_regenLoop {initialStock : UInt64} {state next : LockedStock nCooks}
    (taken : state.regenLoop = some next) :
    (SharedStock.machine nCooks initialStock).Follows state.shared
      (state.observe (.thread .regenerator)) next.shared := by
  unfold LockedStock.regenLoop at taken
  split at taken
  · rename_i stands
    split at taken <;> cases taken
    simp [observe, stands, Machine.Follows, shared, seen]
  · rename_i stands
    split at taken <;> cases taken
    · rename_i ended
      have stopped : state.room.running = false := by
        unfold IngredientStock.regenLoop at ended
        split at ended
        · cases ended
        · exact Bool.eq_false_iff.mpr ‹_›
      simp [observe, stands, stopped, Machine.Follows, shared, seen]
    · rename_i room ticked
      have running : state.room.running = true := by
        unfold IngredientStock.regenLoop at ticked
        split at ticked
        · assumption
        · cases ticked
      simp [observe, stands, running, Machine.Follows, SharedStock.machine, SharedStock.step, shared,
        seen, ticked]
  · rename_i stands
    cases taken
    simp [observe, stands, Machine.Follows, shared, seen, notifyAll]
  · rename_i again stands
    cases taken
    cases again <;> simp [observe, stands, Machine.Follows, shared, seen]
  · cases taken

/-- The destructor clears the flag in one section and then notifies. -/
theorem follows_destroy {initialStock : UInt64} {state next : LockedStock nCooks}
    (taken : state.destroy = some next) :
    (SharedStock.machine nCooks initialStock).Follows state.shared
      (state.observe (.thread .destructor)) next.shared := by
  unfold LockedStock.destroy at taken
  split at taken
  · rename_i stands
    split at taken <;> cases taken
    simp only [observe, stands, Machine.Follows, shared, DestructorPosition.phase]
    rfl
  · rename_i stands
    cases taken
    simp only [observe, stands, Machine.Follows, SharedStock.machine, SharedStock.step, shared,
      DestructorPosition.phase]
    rfl
  · rename_i stands
    cases taken
    simp only [observe, stands, Machine.Follows, shared, DestructorPosition.phase]
    rfl
  · rename_i stands
    cases taken
    have woken : ∀ position, (state.seen position).wake =
        seen { state.notifyAll with destructor := .done } position.wake := by
      intro position
      unfold seen notifyAll
      split <;> simp
    simp only [observe, stands, Machine.Follows, SharedStock.machine, SharedStock.step, shared,
      DestructorPosition.phase, woken]
    rfl
  · cases taken

/-- The statements of the threads refine the sections that they make up. -/
theorem refines_sharedStock (nCooks : Nat) (initialStock : UInt64) :
    Machine.Refinement (machine nCooks initialStock) (SharedStock.machine nCooks initialStock)
      shared observe := by
  refine .of_follows rfl fun {state next label} reached taken => ?_
  change state.step label = some next at taken
  cases label with
  | call index needed =>
      simp only [step] at taken
      split at taken <;> cases taken
      rename_i outside
      have free : state.shared.cooks index = .outside := by
        change state.seen (state.cooks index) = _
        rw [outside, seen_of_wake rfl]
        rfl
      simp only [observe, Machine.Follows, SharedStock.machine, SharedStock.step, if_pos free]
      refine congrArg some
        (Eq.trans ?_ (shared_moveTo state index _ state.room state.holder).symm)
      rw [seen_of_wake rfl]
      rfl
  | thread thread =>
      cases thread with
      | cook index =>
          exact follows_waitAndConsumeIngredients (exclusive_of_reachable reached) taken
      | regenerator => exact follows_regenLoop taken
      | destructor => exact follows_destroy taken
  | wakeSpuriously index =>
      simp only [step] at taken
      split at taken <;> cases taken
      rename_i needed waits
      by_cases ticks : state.regenerator = .notifying
      · simp only [observe, if_pos ticks, Machine.Follows]
        refine shared_moveTo_self ?_ state.holder
        simp [seen, ticks, waits, StockPosition.point, StockPoint.wake]
      · have sleeps : state.shared.cooks index = .waiting needed := by
          change state.seen (state.cooks index) = _
          rw [waits]
          exact if_neg ticks
        simp only [observe, if_neg ticks, Machine.Follows, SharedStock.machine, SharedStock.step,
          sleeps]
        refine congrArg some
          (Eq.trans ?_ (shared_moveTo state index _ state.room state.holder).symm)
        rw [seen_of_wake rfl]
        rfl

/-- With a free mutex each blocked cook lacks an ingredient that it needs, and the notification of the
destructor leaves no cook blocked. -/
theorem missing_of_reachable (nCooks : Nat) (initialStock : UInt64) (state : LockedStock nCooks)
    (reached : (machine nCooks initialStock).Reachable state) :
    (state.holder = none → ∀ index needed, state.cooks index = .waiting needed →
      ∃ ingredient ∈ needed, state.room.stock ingredient = some 0) ∧
    (state.room.running = false → state.destructor = .done →
      ∀ index needed, state.cooks index ≠ .waiting needed) := by
  have exclusive := exclusive_of_reachable reached
  have adequate := SharedStock.adequate_of_reachable
    ((refines_sharedStock nCooks initialStock).reachable (fun _ _ => trivial) reached)
  have sleeps : state.regenerator ≠ .notifying → ∀ index needed,
      state.cooks index = .waiting needed → state.shared.cooks index = .waiting needed := by
    intro quiet index needed waits
    change state.seen (state.cooks index) = _
    rw [waits]
    exact if_neg quiet
  constructor
  · intro free index needed waits
    refine adequate.missing index needed (sleeps ?_ index needed waits)
    intro notifying
    rw [exclusive.holder (holds_regenerator notifying rfl)] at free
    cases free
  · intro stopped done index needed waits
    have finished : state.shared.phase = .stopped := by
      change state.destructor.phase = _
      rw [done]
      rfl
    refine adequate.awake finished index needed (sleeps ?_ index needed waits)
    intro notifying
    rw [exclusive.ticking notifying] at stopped
    cases stopped

/-- One cook finds no dough and blocks until the destructor notifies it. -/
def blockedRun : List (LockedStockLabel 1) :=
  [.call (Fin.last 0) [.dough], .thread (.cook (Fin.last 0)), .thread (.cook (Fin.last 0))]

/-- A cook that waits on an empty stock lacks its ingredient. -/
theorem missing_of_blockedRun : ∃ state : LockedStock 1, (machine 1 0).Reachable state ∧
    state.cooks 0 = .waiting [.dough] ∧ ∃ ingredient ∈ [Ingredient.dough],
      state.room.stock ingredient = some 0 := by
  obtain ⟨state, reached, checked⟩ := (machine 1 0).exists_reachable blockedRun
    (fun state => state.holder = none ∧ state.cooks 0 = .waiting [.dough]) (by decide)
  obtain ⟨free, waits⟩ := of_decide_eq_true checked
  exact ⟨state, reached, waits,
    (missing_of_reachable 1 0 state reached).1 free 0 [.dough] waits⟩

end LockedStock

end Plazza
