namespace Plazza.Foundation

/-- An effect ends with a value or with the message of an exception, and both keep the state. -/
abbrev Effect (State Value : Type) := EStateM String State Value

namespace Effect

variable {State Outer Value Result : Type}

/-- The destructor of a complete object runs when the rest of its scope throws. -/
def unwinding (destructor : State → State) (body : Effect State Value) : Effect State Value :=
  fun state =>
    match body.run state with
    | .ok value after => .ok value after
    | .error message after => .error message (destructor after)

/-- The effect works on one part of a larger state. -/
def within (read : Outer → State) (write : Outer → State → Outer) (body : Effect State Value) :
    Effect Outer Value :=
  fun outer =>
    match body.run (read outer) with
    | .ok value after => .ok value (write outer after)
    | .error message after => .error message (write outer after)

variable {state after : State} {value : Value} {message : String} {body : Effect State Value}

/-- The code after a statement with a value runs on the state that the statement leaves. -/
theorem bind_ok (rest : Value → Effect State Result) (ran : body.run state = .ok value after) :
    EStateM.run (body >>= rest) state = (rest value).run after := by
  change EStateM.bind body rest state = _
  rw [EStateM.run] at ran
  rw [EStateM.bind, ran]
  rfl

/-- The code after a statement that throws does not run. -/
theorem bind_error (rest : Value → Effect State Result)
    (failed : body.run state = .error message after) :
    EStateM.run (body >>= rest) state = .error message after := by
  change EStateM.bind body rest state = _
  rw [EStateM.run] at failed
  rw [EStateM.bind, failed]

/-- Both statements have a value when the code of the two has one. -/
theorem bind_eq_ok {rest : Value → Effect State Result} {result : Result}
    (ran : EStateM.run (body >>= rest) state = .ok result after) :
    ∃ value middle, body.run state = .ok value middle ∧ (rest value).run middle = .ok result after := by
  cases first : body.run state with
  | ok value middle =>
      rw [bind_ok _ first] at ran
      exact ⟨value, middle, rfl, ran⟩
  | error message middle =>
      rw [bind_error _ first] at ran
      cases ran

/-- A mapped statement has a value when the statement has one. -/
theorem map_eq_ok {change : Value → Result} {result : Result}
    (ran : EStateM.run (change <$> body) state = .ok result after) :
    ∃ value, body.run state = .ok value after ∧ result = change value := by
  obtain ⟨value, middle, first, rest⟩ := bind_eq_ok ran
  cases rest
  exact ⟨value, first, rfl⟩

@[simp] theorem run_get_bind (rest : State → Effect State Result) (state : State) :
    EStateM.run (get >>= rest) state = (rest state).run state := rfl

@[simp] theorem run_modify_bind (change : State → State) (rest : Unit → Effect State Result)
    (state : State) :
    EStateM.run (modify change >>= rest) state = (rest ()).run (change state) := rfl

/-- The object outlives a scope that does not throw. -/
theorem unwinding_ok (destructor : State → State) (ran : body.run state = .ok value after) :
    EStateM.run (unwinding destructor body) state = .ok value after := by
  rw [EStateM.run, unwinding, ran]

/-- The object is gone after a scope that throws. -/
theorem unwinding_error (destructor : State → State)
    (failed : body.run state = .error message after) :
    EStateM.run (unwinding destructor body) state = .error message (destructor after) := by
  rw [EStateM.run, unwinding, failed]

variable {read : Outer → State} {write : Outer → State → Outer} {outer : Outer}

theorem within_ok (ran : body.run (read outer) = .ok value after) :
    EStateM.run (within read write body) outer = .ok value (write outer after) := by
  rw [EStateM.run, within, ran]

theorem within_error (failed : body.run (read outer) = .error message after) :
    EStateM.run (within read write body) outer = .error message (write outer after) := by
  rw [EStateM.run, within, failed]

end Effect

end Plazza.Foundation
