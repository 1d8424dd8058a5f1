import Plazza.Proof.Kitchen.Progress

namespace Plazza.Kitchen
open Plazza.Foundation

variable {nCooks : Nat} {limit : Option Nat}

/-- A cook waits for the ingredients of its pizza, and it waits for room for its done packet. -/
def CanCook (limit : Option Nat) (index : Fin nCooks) (kitchen : Kitchen nCooks) : Prop :=
  match kitchen.site.process.pool.threads index with
  | .waiting | .exited => False
  | .preparing _ => ∀ ingredient, 0 < kitchen.site.process.stock.units ingredient
  | .baking _ => hasRoom limit kitchen.site.resultQueue.pending = true
  | _ => True

/-- A cook that waits for nothing has a step. -/
theorem enables_cook {kitchen : Kitchen nCooks} (reached : (machine nCooks limit).Reachable kitchen)
    {index : Fin nCooks} (ready : kitchen.CanCook limit index) :
    (machine nCooks limit).Enables (KitchenLabel.Cook index) kitchen := by
  suffices moves : ∃ site, KitchenWorker.cookPizza limit index kitchen.site = some site by
    obtain ⟨site, cooked⟩ := moves
    exact ⟨.process (.cook index), { kitchen with site }, rfl,
      Option.map_eq_some_iff.mpr ⟨site, cooked, rfl⟩⟩
  unfold CanCook at ready
  obtain ⟨pool, worked⟩ : ∃ pool, kitchen.site.process.pool.workerLoop index = some pool :=
    ThreadPool.exists_workerLoop <| Position.remaining_pos
      (fun asleep => by rw [asleep] at ready; exact ready)
      fun left => by rw [left] at ready; exact ready
  simp only [KitchenWorker.cookPizza, worked, Option.bind_eq_bind, Option.bind_some]
  split
  · rename_i ticket stands
    have inv := (valid_of_reachable reached).pool
    obtain ⟨needed, listed, _⟩ := listed_of_reachable reached ticket
      (PoolClient.accepted_of_held inv (by rw [stands]; rfl))
    rw [stands] at ready
    have available : kitchen.site.process.stock.allAvailable needed = true :=
      Stock.allAvailable_iff.mpr fun ingredient _ => ready ingredient
    simp only [listed, Option.bind_some, if_pos available]
    exact ⟨_, rfl⟩
  · rename_i ticket stands
    rw [stands] at ready
    simp only [Site.sendResult, if_pos ready]
    exact ⟨_, rfl⟩
  · exact ⟨_, rfl⟩

/-- A tick adds to the stock, and no other step does. -/
theorem stock_step {kitchen next : Kitchen nCooks} {label : KitchenLabel nCooks}
    (reached : (machine nCooks limit).Reachable kitchen) (taken : kitchen.step limit label = some next) :
    (label.Regenerator ∧
        next.site.process.stock = kitchen.site.process.stock.regenerate ∧
        next.site.process.pool = kitchen.site.process.pool) ∨
      ¬label.Regenerator ∧ ∀ ingredient,
        next.site.process.stock.units ingredient ≤ kitchen.site.process.stock.units ingredient := by
  rcases step_cases taken with ⟨moved, site, rfl, rfl, stepped⟩ | ⟨other, same, _⟩
  · cases stepped with
    | regenerate => exact .inl ⟨trivial, rfl, rfl⟩
    | consume index ticket pool needed stands worked listed available =>
        have inv := (valid_of_reachable reached).pool
        obtain ⟨all, same, nodup⟩ := listed_of_reachable reached ticket
          (PoolClient.accepted_of_held inv (by rw [stands]; rfl))
        obtain rfl : all = needed := Option.some.inj (same.symm.trans listed)
        exact .inr ⟨id, Stock.units_consume_le (stocked_of_reachable reached).fits nodup available⟩
    | advance wake process moves =>
        refine .inr ⟨id, fun ingredient => ?_⟩
        cases moves <;> exact le_rfl
    | pollEmpty | pollShutdown | poll | accept | refuse | request | ignore | sendFull | respond
    | stop | notify | join | close | cook | serve | wakeSpuriously =>
        exact .inr ⟨id, fun _ => le_rfl⟩
  · refine .inr ⟨?_, fun ingredient => by rw [same]⟩
    intro ticks
    cases label with
    | process moved => exact absurd rfl (other moved)
    | deliver | collect | elapse => cases ticks

/-- The cook stands before its ingredients. -/
def Waits (index : Fin nCooks) (ticket : Ticket) (kitchen : Kitchen nCooks) : Prop :=
  kitchen.site.process.pool.threads index = .preparing ticket

/-- A kitchen with a cook in its loop has not exited. -/
theorem stays_of_active {kitchen : Kitchen nCooks}
    (reached : (machine nCooks limit).Reachable kitchen) {index : Fin nCooks}
    (active : kitchen.site.process.pool.threads index ≠ .exited) :
    kitchen.site.process.hasExited = false :=
  KitchenWorker.hasExited_of_apart ((valid_of_reachable reached).apart active)

/-- The regeneration ticks until the process exits. -/
theorem enables_regenerator {kitchen : Kitchen nCooks}
    (stays : kitchen.site.process.hasExited = false) :
    (machine nCooks limit).Enables KitchenLabel.Regenerator kitchen := by
  have ticks : KitchenWorker.step limit kitchen.now kitchen.site .regenerate =
      some { kitchen.site with process :=
        { kitchen.site.process with stock := kitchen.site.process.stock.regenerate } } :=
    if_neg (by simp [stays])
  exact ⟨.process .regenerate, _, trivial, Option.map_eq_some_iff.mpr ⟨_, ticks, rfl⟩⟩

/-- A step of the cook is a step of its worker. -/
theorem observe_cook {kitchen : Kitchen nCooks} {label : KitchenLabel nCooks} {index : Fin nCooks} :
    label.Cook index ↔ ∃ event, kitchen.observe label = some event ∧ event.Of index := by
  cases label with
  | process moved =>
      cases moved with
      | cook other => simp [KitchenLabel.Cook, observe, PoolLabel.Of]
      | main wake =>
          simp only [KitchenLabel.Cook, observe, Control.event, false_iff, not_exists, not_and]
          intro event called own
          split at called
          · split at called
            · obtain ⟨_, _, rfl⟩ := Option.map_eq_some_iff.mp called
              exact own
            · cases called
          · cases called
            exact own
          · cases called
            exact own
          · cases called
      | wakeSpuriously other => simp [KitchenLabel.Cook, observe, PoolLabel.Of]
      | regenerate => simp [KitchenLabel.Cook, observe]
  | deliver | collect | elapse => simp [KitchenLabel.Cook, observe]

/-- Only the process moves the pool. -/
theorem process_of_observe {kitchen : Kitchen nCooks} {label : KitchenLabel nCooks}
    {event : PoolLabel nCooks} (observed : kitchen.observe label = some event) :
    ∃ moved, label = .process moved := by
  cases label with
  | process moved => exact ⟨moved, rfl⟩
  | deliver | collect | elapse => cases observed

/-- Only a cook is a worker. -/
theorem observe_worker {kitchen : Kitchen nCooks} {label : KitchenLabel nCooks} {index : Fin nCooks}
    (observed : kitchen.observe label = some (.worker index)) : label = .process (.cook index) := by
  have cooks : label.Cook index := observe_cook.mpr ⟨_, observed, rfl⟩
  cases label with
  | process moved =>
      cases moved with
      | cook other =>
          obtain rfl : other = index := cooks
          rfl
      | main | wakeSpuriously | regenerate => cases cooks
  | deliver | collect | elapse => cases cooks

/-- The others leave a cook alone that does not sleep. -/
theorem threads_step {kitchen next : Kitchen nCooks} {label : KitchenLabel nCooks}
    (reached : (machine nCooks limit).Reachable kitchen)
    (taken : kitchen.step limit label = some next) {index : Fin nCooks}
    (other : ¬label.Cook index) (awake : kitchen.site.process.pool.threads index ≠ .waiting) :
    next.site.process.pool.threads index = kitchen.site.process.pool.threads index := by
  have refines := refines_poolClient nCooks limit
  cases observed : kitchen.observe label with
  | none =>
      have same := refines.silent reached taken observed
      exact congrArg (fun client : PoolClient nCooks => client.pool.threads index) same
  | some event =>
      exact PoolClient.threads_step (refines.visible reached taken observed)
        (fun own => other (observe_cook.mpr ⟨event, observed, own⟩)) awake

section Scheduled

variable {execution : (machine nCooks limit).Execution} (scheduled : Scheduled execution)
include scheduled

/-- The ticks go on until the stock has a unit of everything, unless the cook goes on before. -/
theorem regrown_of_fair (index : Fin nCooks) (ticket : Ticket) (ticks : Nat) (few : ticks ≤ 10) :
    execution.LeadsTo
      (fun kitchen => kitchen.Waits index ticket ∧ kitchen.site.process.stock.Regrows ticks)
      fun kitchen => kitchen.Waits index ticket →
        ∀ ingredient, 0 < kitchen.site.process.stock.units ingredient := by
  induction ticks with
  | zero => exact fun _ here => absurd here.2 (Stock.not_regrows_zero _)
  | succ ticks ih =>
      have one : execution.LeadsTo
          (fun kitchen => kitchen.Waits index ticket ∧
            kitchen.site.process.stock.Regrows (ticks + 1))
          fun kitchen => (kitchen.Waits index ticket →
              ∀ ingredient, 0 < kitchen.site.process.stock.units ingredient) ∨
            kitchen.Waits index ticket ∧ kitchen.site.process.stock.Regrows ticks := by
        refine Machine.Execution.leadsTo_of_step scheduled.regenerator ?_ ?_
        · rintro kitchen next label reached ⟨waits, regrows⟩ taken
          by_cases still : next.Waits index ticket
          · rcases stock_step reached taken with ⟨_, stock, _⟩ | ⟨other, less⟩
            · have stocked := stocked_of_reachable reached
              rw [stock]
              exact .inl ((regrows.regenerate stocked.keys stocked.fits (by omega)).imp
                (fun full _ => full) fun regrows => ⟨still, regrows⟩)
            · exact .inr ⟨⟨still, regrows.of_le less⟩, other⟩
          · exact .inl (.inl fun waits => absurd waits still)
        · rintro kitchen reached ⟨waits, _⟩
          exact enables_regenerator (stays_of_active reached (by rw [waits]; simp))
      intro moment here
      obtain ⟨middle, late, full | more⟩ := one moment here
      · exact ⟨middle, late, full⟩
      · obtain ⟨later, beyond, full⟩ := ih (by omega) middle more
        exact ⟨later, late.trans beyond, full⟩

/-- A cook that never goes on does not wait for its ingredients forever. -/
theorem stocked_of_waits (index : Fin nCooks) (ticket : Ticket) :
    execution.LeadsTo (Waits index ticket) fun kitchen => kitchen.Waits index ticket →
      ∀ ingredient, 0 < kitchen.site.process.stock.units ingredient :=
  (regrown_of_fair scheduled index ticket 10 le_rfl).strengthen
    fun _ waits => ⟨waits, Stock.regrows_ten _⟩

/-- The workers of the pool get their turns. -/
theorem pool_fair (index : Fin nCooks) :
    (execution.map (refines_poolClient nCooks limit)).Fair (PoolLabel.Of index) := by
  refine (scheduled.cook index).map (refines_poolClient nCooks limit)
    (fun _ _ own => observe_cook.mp own) fun moment rests again => ?_
  obtain ⟨start, late, enabled⟩ := again moment
  have active : 0 < ((execution.state start).site.process.pool.threads index).remaining :=
    Nat.pos_of_ne_zero fun none' => PoolClient.not_enables_worker none' enabled
  have stands : ∀ {later}, start ≤ later → (execution.state later).site.process.pool.threads index =
      (execution.state start).site.process.pool.threads index := by
    intro later after
    refine Machine.Execution.keeps (motive := fun kitchen : Kitchen nCooks =>
      kitchen.site.process.pool.threads index =
        (execution.state start).site.process.pool.threads index) rfl ?_ after
    intro between label since same labelled taken
    refine (threads_step (execution.reachable between) taken (fun own => ?_) ?_).trans same
    · exact rests between (late.trans since) ⟨label, labelled, own⟩
    · rw [same]
      exact PoolClient.awake_of_remaining active
  suffices ready : ∃ later, start ≤ later ∧ (execution.state later).CanCook limit index by
    obtain ⟨later, after, ready⟩ := ready
    exact ⟨later, late.trans after, enables_cook (execution.reachable later) ready⟩
  cases position : (execution.state start).site.process.pool.threads index with
  | waiting | exited =>
      rw [position] at active
      cases active
  | preparing ticket =>
      obtain ⟨later, after, full⟩ := stocked_of_waits scheduled index ticket start position
      have here := (stands after).trans position
      refine ⟨later, after, ?_⟩
      unfold CanCook
      rw [here]
      exact full here
  | baking ticket =>
      obtain ⟨later, after, free⟩ := scheduled.room start
      have here := (stands after).trans position
      have runs := stays_of_active (execution.reachable later) (by rw [here]; simp)
      have room := free.resolve_left (by simp [runs])
      refine ⟨later, after, ?_⟩
      unfold CanCook
      rw [here]
      exact room
  | locking | woken | popped | served | cooked =>
      refine ⟨start, le_rfl, ?_⟩
      unfold CanCook
      rw [position]
      trivial

/-- The main thread is ready again whenever it waits. -/
theorem ready_of_rest (moment : Nat)
    (runs : (execution.state moment).site.process.hasExited = false)
    (rests : ∀ later, moment ≤ later → ¬execution.Takes KitchenLabel.Main later) :
    ∃ later, moment ≤ later ∧ (execution.state later).Ready limit := by
  have stands : ∀ {later}, moment ≤ later → (execution.state later).site.process.control =
      (execution.state moment).site.process.control := fun late =>
    Machine.Execution.unchanged (fun kitchen => kitchen.site.process.control)
      (fun _ taken other => control_step taken other) late rests
  cases control : (execution.state moment).site.process.control with
  | handling packet =>
      have received := inHand_of_reachable (execution.reachable moment) packet control
      have readable := scheduled.readable moment packet (List.mem_append_left _ received)
      exact ⟨moment, le_rfl, by simpa only [Ready, control] using readable⟩
  | refusing packet | closing =>
      obtain ⟨later, late, free⟩ := scheduled.room moment
      have room := free.resolve_left (by simp [KitchenWorker.hasExited, (stands late).trans control])
      exact ⟨later, late, by simpa only [Ready, (stands late).trans control] using room⟩
  | responding packets =>
      obtain ⟨later, late, free⟩ := scheduled.room moment
      have room := free.resolve_left (by simp [KitchenWorker.hasExited, (stands late).trans control])
      refine ⟨later, late, ?_⟩
      cases packets with
      | nil => simp only [Ready, (stands late).trans control]
      | cons packet rest => simpa only [Ready, (stands late).trans control] using room
  | sleeping running wakeTime =>
      obtain ⟨later, late, elapsed⟩ := scheduled.clock moment running wakeTime control
      exact ⟨later, late, by simpa only [Ready, (stands late).trans control] using elapsed⟩
  | joining =>
      obtain ⟨later, late, left⟩ := PoolClient.leadsTo_exited (pool_fair scheduled) moment
        (show (execution.state moment).site.process.control.phase = .stopped by rw [control]; rfl)
      have gone : ∀ index, (execution.state later).site.process.pool.threads index = .exited := left
      exact ⟨later, late, by simpa only [Ready, (stands late).trans control] using gone⟩
  | exited => simp [KitchenWorker.hasExited, control] at runs
  | starting | receiving | accepting | readingStock | readingCooks | sampling | checking | stopping
  | notifying => exact ⟨moment, le_rfl, by simp only [Ready, control]⟩

end Scheduled

end Plazza.Kitchen
