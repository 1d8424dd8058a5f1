import Plazza.Construction.KitchenWorker
import Plazza.Construction.Shell
import Plazza.Proof.Reception.Steps

namespace Plazza
open Plazza.Foundation

/-- The parser rejects a line that is neither blank nor a status request. -/
structure Shell.Rejected (line : Parser.Text) (message : String) : Prop where
  filled : trimmed line ≠ []
  other : trimmed line ≠ "status".toList
  error : Parser.parse (trimmed line) = .error message

/-- The shell throws exactly for the rejected lines. -/
theorem Shell.handleLine_thrown {line : Parser.Text} {thrown : String} :
    handleLine line = .thrown thrown ↔
      ∃ message, Rejected line message ∧ thrown = "error: " ++ message := by
  unfold handleLine
  constructor
  · intro handled
    split at handled
    · cases handled
    · rename_i filled
      split at handled
      · cases handled
      · rename_i other
        split at handled
        · cases handled
        · rename_i message error
          cases handled
          exact ⟨message, ⟨by simpa using filled, other, error⟩, rfl⟩
  · rintro ⟨message, rejected, rfl⟩
    rw [if_neg (by simpa using rejected.filled), if_neg rejected.other, rejected.error]

namespace Pizzeria

variable {P : KitchenProcess} {nCooks : Nat} {limit : Option Nat}

/-- The reception is in `shutdown` or gone. -/
def Leaving (pizzeria : Pizzeria P) : Prop :=
  (∃ index, pizzeria.call = .shuttingDown index ∨ pizzeria.call = .awaiting index) ∨
    pizzeria.call = .destroyed

/-- The call of `shutdown` closes and reaps kitchens and handles no packet. -/
theorem next_leaving {pizzeria : Pizzeria P} {action : Action} {call : Call}
    (leaving : pizzeria.Leaving) (chosen : pizzeria.next = some (action, call)) :
    (action = .skip ∨ action = .destroy ∨ ∃ index, action = .apply index .close ∨
      action = .apply index .reap) ∧
      ((∃ index, call = .shuttingDown index ∨ call = .awaiting index) ∨ call = .destroyed) := by
  obtain ⟨index, running | running⟩ | running := leaving
  · rw [next, running] at chosen
    dsimp only at chosen
    split at chosen
    · cases chosen
      exact ⟨.inr (.inl rfl), .inr rfl⟩
    · split at chosen <;> cases chosen
      · exact ⟨.inr (.inr ⟨index, .inl rfl⟩), .inl ⟨index, .inr rfl⟩⟩
      · exact ⟨.inl rfl, .inl ⟨index + 1, .inl rfl⟩⟩
  · rw [next, running] at chosen
    cases chosen
    exact ⟨.inr (.inr ⟨index, .inr rfl⟩), .inl ⟨index + 1, .inl rfl⟩⟩
  · rw [next, running] at chosen
    cases chosen

/-- A reception that shuts down dispatches and announces nothing more. -/
theorem Leaving.step {pizzeria next : Pizzeria P} {label : PizzeriaLabel P}
    (leaving : pizzeria.Leaving) (moved : Transition nCooks limit pizzeria label next) :
    next.Leaving ∧ next.ledger = pizzeria.ledger ∧ next.accepted = pizzeria.accepted := by
  have busy : pizzeria.call ≠ .idle := by
    intro idle
    obtain ⟨_, running | running⟩ | running := leaving <;> rw [idle] at running <;> cases running
  cases moved with
  | order _ _ _ idle | status idle | poll idle | close idle => exact absurd idle busy
  | skip call chosen => exact ⟨(next_leaving leaving chosen).2, rfl, rfl⟩
  | apply index operation call kitchen outcome chosen found effect =>
      obtain ⟨same | same | ⟨_, same | same⟩, stays⟩ := next_leaving leaving chosen
      · cases same
      · cases same
      · cases same
        cases effect
        exact ⟨stays, rfl, rfl⟩
      · cases same
        cases effect
        exact ⟨stays, rfl, rfl⟩
  | erase call chosen | spawn call chosen | report call _ chosen =>
      obtain ⟨same | same | ⟨_, same | same⟩, _⟩ := next_leaving leaving chosen <;> cases same
  | destroy call chosen => exact ⟨(next_leaving leaving chosen).2, rfl, rfl⟩
  | kitchen | elapse => exact ⟨leaving, rfl, rfl⟩

end Pizzeria

namespace Program

variable {P : KitchenProcess} {nCooks : Nat} {limit : Option Nat}

theorem exists_moved_of_advance {program next : Program P} {call : PizzeriaLabel P}
    (taken : program.advance nCooks limit call = some next) :
    ∃ call, program.pizzeria.step nCooks limit call = some next.pizzeria := by
  obtain ⟨pizzeria, moved, rfl⟩ := Option.map_eq_some_iff.mp taken
  exact ⟨call, moved⟩

theorem exists_moved_of_leave {program next : Program P} {exitCode : Nat} {errors : List String}
    (taken : program.leave nCooks limit exitCode errors = some next) :
    ∃ call, program.pizzeria.step nCooks limit call = some next.pizzeria := by
  obtain ⟨pizzeria, moved, rfl⟩ := Option.map_eq_some_iff.mp taken
  exact ⟨.close, moved⟩

/-- The reception takes at most one step with the program. -/
theorem step_pizzeria {program next : Program P} {label : ProgramLabel P}
    (taken : program.step nCooks limit label = some next) :
    next.pizzeria = program.pizzeria ∨
      ∃ call, program.pizzeria.step nCooks limit call = some next.pizzeria := by
  cases label with
  | line line =>
      simp only [step] at taken
      split at taken
      · split at taken
        · cases taken
          exact .inl rfl
        · exact .inr (exists_moved_of_advance taken)
        · exact .inr (exists_moved_of_advance taken)
        · exact .inr (exists_moved_of_leave taken)
      · cases taken
  | endOfInput =>
      simp only [step] at taken
      split at taken
      · exact .inr (exists_moved_of_leave taken)
      · cases taken
  | timeout =>
      simp only [step] at taken
      split at taken
      · exact .inr (exists_moved_of_advance taken)
      · cases taken
  | reception | kitchen | elapse => exact .inr (exists_moved_of_advance taken)

/-- The reception of a reachable program is reachable without the shell. -/
theorem reachable_pizzeria {program : Program P}
    (reached : (machine P nCooks limit).Reachable program) :
    (Pizzeria.machine P nCooks limit).Reachable program.pizzeria := by
  induction reached with
  | initial => exact .initial
  | step _ _ taken ih =>
      obtain same | ⟨call, moved⟩ := step_pizzeria taken
      · exact same ▸ ih
      · exact .step ih trivial moved

/-- The line leaves the shell running and the orders and the kitchens as they are. -/
def Undisturbed (nCooks : Nat) (limit : Option Nat) (program : Program P) (line : Parser.Text) :
    Prop :=
  ∃ next, program.step nCooks limit (.line line) = some next ∧ next.exitCode = none ∧
    next.pizzeria.ledger = program.pizzeria.ledger ∧
    next.pizzeria.kitchens = program.pizzeria.kitchens

/-- A rejected line makes `main` report it and leave. -/
theorem step_rejected (nCooks : Nat) (limit : Option Nat) {program : Program P}
    (waiting : program.Waiting) {line : Parser.Text} {message : String}
    (rejected : Shell.Rejected line message) :
    program.step nCooks limit (.line line) =
      some ⟨{ program.pizzeria with call := .shuttingDown 0 }, some 84,
        program.errors ++ ["Error: " ++ ("error: " ++ message)]⟩ := by
  have thrown := Shell.handleLine_thrown.mpr ⟨message, rejected, rfl⟩
  simp only [step, if_pos waiting, thrown, leave, advance, Pizzeria.step, if_pos waiting.2,
    Option.map_some]

/-- The program has left the shell with an error and serves no callback any more. -/
structure Failed (first program : Program P) : Prop where
  exitCode : program.exitCode = some 84
  leaving : program.pizzeria.Leaving
  ledger : program.pizzeria.ledger = first.pizzeria.ledger
  accepted : program.pizzeria.accepted = first.pizzeria.accepted

theorem Failed.not_waiting {first program : Program P} (failed : Failed first program) :
    ¬program.Waiting := by
  rintro ⟨running, _⟩
  rw [failed.exitCode] at running
  cases running

/-- A failed program reads no line. -/
theorem Failed.step_line {first program : Program P} (failed : Failed first program)
    (line : Parser.Text) : program.step nCooks limit (.line line) = none :=
  if_neg failed.not_waiting

/-- A step of the reception keeps the program failed. -/
theorem Failed.advance {first program next : Program P} (failed : Failed first program)
    {label : PizzeriaLabel P} (taken : program.advance nCooks limit label = some next) :
    Failed first next := by
  obtain ⟨pizzeria, moved, rfl⟩ := Option.map_eq_some_iff.mp taken
  obtain ⟨leaving, ledger, accepted⟩ := failed.leaving.step (Pizzeria.transition_of_step moved)
  exact ⟨failed.exitCode, leaving, ledger.trans failed.ledger, accepted.trans failed.accepted⟩

/-- No step brings a failed program back. -/
theorem Failed.step {first program next : Program P} (failed : Failed first program)
    {label : ProgramLabel P} (taken : program.step nCooks limit label = some next) :
    Failed first next := by
  have away := failed.not_waiting
  cases label with
  | line => rw [Program.step, if_neg away] at taken; cases taken
  | endOfInput => rw [Program.step, if_neg away] at taken; cases taken
  | timeout => rw [Program.step, if_neg away] at taken; cases taken
  | reception | kitchen | elapse => exact failed.advance taken

/-- A rejected line ends the session in every state: `main` reports it and exits, and from then on no
line is read, nothing is dispatched and no order is announced. -/
theorem not_undisturbed {program : Program P} (waiting : program.Waiting) {line : Parser.Text}
    {message : String} (rejected : Shell.Rejected line message) :
    ¬program.Undisturbed nCooks limit line ∧
      ∃ next, program.step nCooks limit (.line line) = some next ∧
        next.errors = program.errors ++ ["Error: " ++ ("error: " ++ message)] ∧
        ∀ {later}, ((machine P nCooks limit).startingAt next).Reachable later →
          Failed program later ∧ ∀ line, later.step nCooks limit (.line line) = none := by
  have stepped := step_rejected nCooks limit waiting rejected
  refine ⟨?_, _, stepped, rfl, fun reached => ?_⟩
  · rintro ⟨next, taken, running, _⟩
    obtain rfl := Option.some.inj (stepped.symm.trans taken)
    cases running
  · have failed := reached.invariant (motive := Failed program)
      ⟨rfl, .inl ⟨0, .inl rfl⟩, rfl, rfl⟩ fun _ failed _ taken => failed.step taken
    exact ⟨failed, failed.step_line⟩

/-- A rejected line ends a session in which an order of two pizzas is sent to a kitchen. -/
theorem not_undisturbed_cooking :
    ∃ program : Program (KitchenWorker.process 1 none), program.pizzeria.kitchens.length = 1 ∧
      program.pizzeria.ledger.pendingOrders = [(1, 2)] ∧
      ¬program.Undisturbed 1 none "margarita".toList ∧
      ∃ next, program.step 1 none (.line "margarita".toList) = some next ∧
        next.errors = program.errors ++ ["Error: " ++ ("error: " ++ Parser.kInvalidToken)] ∧
        ∀ {later}, ((machine _ 1 none).startingAt next).Reachable later →
          Failed program later ∧ ∀ line, later.step 1 none (.line line) = none := by
  obtain ⟨program, _, checked⟩ := (machine (KitchenWorker.process 1 none) 1 none).exists_reachable
    (.line "margarita S x2".toList :: List.replicate 5 .reception)
    (fun program => program.pizzeria.kitchens.length = 1 ∧
      program.pizzeria.ledger.pendingOrders = [(1, 2)] ∧ program.Waiting) (by decide)
  obtain ⟨kitchen, pending, waiting⟩ := of_decide_eq_true checked
  exact ⟨program, kitchen, pending, not_undisturbed waiting ⟨by decide, by decide, rfl⟩⟩

/-- A line with a pizza type alone stops the shell. -/
theorem exists_disturbed :
    ¬∀ (program : Program (KitchenWorker.process 1 none)) (line : Parser.Text) (message : String),
      program.Waiting → Shell.Rejected line message → program.Undisturbed 1 none line := by
  intro survives
  let first : Program (KitchenWorker.process 1 none) := (machine _ 1 none).initial
  have waiting : first.Waiting := ⟨rfl, rfl⟩
  have rejected : Shell.Rejected "margarita".toList Parser.kInvalidToken :=
    ⟨by decide, by decide, rfl⟩
  have stepped := step_rejected 1 none waiting rejected
  obtain ⟨next, taken, running, _⟩ := survives first _ _ waiting rejected
  obtain rfl := Option.some.inj (stepped.symm.trans taken)
  cases running

/-- The user neither ends the input nor types a rejected line. -/
def Endures : ProgramLabel P → Prop
  | .line text => ∀ message, ¬Shell.Rejected text message
  | .endOfInput => False
  | _ => True

/-- A step keeps the shell running exactly when its line is not rejected. -/
theorem running_step_iff {program next : Program P} {label : ProgramLabel P}
    (running : program.exitCode = none) (taken : program.step nCooks limit label = some next) :
    next.exitCode = none ↔ Endures label := by
  have advanced {label : PizzeriaLabel P} (taken : program.advance nCooks limit label = some next) :
      next.exitCode = none := by
    obtain ⟨pizzeria, _, rfl⟩ := Option.map_eq_some_iff.mp taken
    exact running
  cases label with
  | line line =>
      simp only [step] at taken
      split at taken
      · rename_i waiting
        cases handled : Shell.handleLine line with
        | thrown thrown =>
            obtain ⟨message, rejected, rfl⟩ := Shell.handleLine_thrown.mp handled
            have stepped := step_rejected nCooks limit waiting rejected
            rw [step, if_pos waiting, handled] at stepped
            rw [handled] at taken
            obtain rfl := Option.some.inj (stepped.symm.trans taken)
            exact ⟨nofun, fun endures => absurd rejected (endures message)⟩
        | ignored | statusCallback | orderCallback =>
            have endures : ∀ message, ¬Shell.Rejected line message := fun message rejected => by
              have thrown := Shell.handleLine_thrown.mpr ⟨message, rejected, rfl⟩
              rw [handled] at thrown
              cases thrown
            rw [handled] at taken
            refine iff_of_true ?_ endures
            first
              | exact advanced taken
              | exact Option.some.inj taken ▸ running
      · cases taken
  | endOfInput =>
      simp only [step] at taken
      split at taken
      · obtain ⟨pizzeria, _, rfl⟩ := Option.map_eq_some_iff.mp taken
        exact ⟨nofun, nofun⟩
      · cases taken
  | timeout =>
      simp only [step] at taken
      split at taken
      · exact iff_of_true (advanced taken) trivial
      · cases taken
  | reception | kitchen | elapse => exact iff_of_true (advanced taken) trivial

/-- The shell runs through a session exactly when no line of it is rejected before its end. -/
theorem visits_running_iff (labels : List (ProgramLabel P)) :
    (machine P nCooks limit).Visits (fun program => program.exitCode = none)
        (machine P nCooks limit).initial labels ↔
      (machine P nCooks limit).Obeys (fun _ label => Endures label)
        (machine P nCooks limit).initial labels :=
  Machine.visits_iff_obeys (fun _ running taken => running_step_iff running taken) labels .initial rfl

end Program

end Plazza
