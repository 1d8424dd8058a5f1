namespace Plazza.Foundation

/-- Code ends with a value or an exception, or its process ends, or it never ends. -/
inductive Ending (Value : Type) where
  | value (value : Value)
  | raised (message : String)
  | exited (code : Nat)
  | aborted
  | stuck
  deriving DecidableEq

/-- The enclosing code goes on after a value and unwinds after an exception. -/
def Ending.continues {Value : Type} : Ending Value → Bool
  | value _ | raised _ => true
  | exited _ | aborted | stuck => false

/-- A trace lists the visible events of some code and tells how the code ends. -/
structure Trace (Event Value : Type) where
  events : List Event
  ending : Ending Value
  deriving DecidableEq

namespace Trace

variable {Event Value Result : Type}

def emit (event : Event) : Trace Event Unit := ⟨[event], .value ()⟩

def raise (message : String) : Trace Event Value := ⟨[], .raised message⟩

/-- The process ends at once and unwinds nothing. -/
def exit (code : Nat) : Trace Event Value := ⟨[], .exited code⟩

protected def pure (value : Value) : Trace Event Value := ⟨[], .value value⟩

protected def bind (body : Trace Event Value) (rest : Value → Trace Event Result) :
    Trace Event Result :=
  match body.ending with
  | .value value => ⟨body.events ++ (rest value).events, (rest value).ending⟩
  | .raised message => ⟨body.events, .raised message⟩
  | .exited code => ⟨body.events, .exited code⟩
  | .aborted => ⟨body.events, .aborted⟩
  | .stuck => ⟨body.events, .stuck⟩

instance : Monad (Trace Event) where
  pure := Trace.pure
  bind := Trace.bind

/-- The destructor runs after a value and after an exception. It aborts when it throws itself. -/
def ensuring (body : Trace Event Value) (destructor : Trace Event Unit) : Trace Event Value :=
  if body.ending.continues then
    match destructor.ending with
    | .value _ => ⟨body.events ++ destructor.events, body.ending⟩
    | .raised _ | .aborted => ⟨body.events ++ destructor.events, .aborted⟩
    | .exited code => ⟨body.events ++ destructor.events, .exited code⟩
    | .stuck => ⟨body.events ++ destructor.events, .stuck⟩
  else body

/-- The handler runs after an exception only. -/
def catching (body : Trace Event Value) (handler : String → Trace Event Value) :
    Trace Event Value :=
  match body.ending with
  | .raised message => ⟨body.events ++ (handler message).events, (handler message).ending⟩
  | _ => body

variable {event : Event} {body : Trace Event Value}

/-- The code after a statement only adds events. -/
theorem mem_bind (rest : Value → Trace Event Result) (member : event ∈ body.events) :
    event ∈ (body >>= rest).events := by
  change event ∈ (body.bind rest).events
  unfold Trace.bind
  split
  · exact List.mem_append_left _ member
  all_goals exact member

/-- A destructor only adds events. -/
theorem mem_ensuring (destructor : Trace Event Unit) (member : event ∈ body.events) :
    event ∈ (body.ensuring destructor).events := by
  unfold ensuring
  split
  · split <;> exact List.mem_append_left _ member
  · exact member

/-- A handler only adds events. -/
theorem mem_catching (handler : String → Trace Event Value) (member : event ∈ body.events) :
    event ∈ (body.catching handler).events := by
  unfold catching
  split
  · exact List.mem_append_left _ member
  · exact member

/-- Statements without events make no event together. -/
theorem bind_silent {rest : Value → Trace Event Result} (silent : body.events = [])
    (after : ∀ value, (rest value).events = []) : (body >>= rest).events = [] := by
  change (body.bind rest).events = []
  unfold Trace.bind
  split
  · rw [silent, after]
    rfl
  all_goals exact silent

/-- A destructor without events adds none. -/
theorem ensuring_silent {destructor : Trace Event Unit} (silent : body.events = [])
    (after : destructor.events = []) : (body.ensuring destructor).events = [] := by
  unfold ensuring
  split
  · rw [silent, after]
    split <;> rfl
  · exact silent

/-- The events of the code after a statement with a value follow. -/
theorem events_bind {value : Value} (rest : Value → Trace Event Result)
    (ends : body.ending = .value value) :
    (body >>= rest).events = body.events ++ (rest value).events := by
  change (body.bind rest).events = _
  rw [Trace.bind, ends]

/-- The code after a statement with a value decides how both end. -/
theorem ending_bind {value : Value} (rest : Value → Trace Event Result)
    (ends : body.ending = .value value) : (body >>= rest).ending = (rest value).ending := by
  change (body.bind rest).ending = _
  rw [Trace.bind, ends]

/-- An exception passes the code after its statement. -/
theorem ending_bind_raised {message : String} (rest : Value → Trace Event Result)
    (ends : body.ending = .raised message) : (body >>= rest).ending = .raised message := by
  change (body.bind rest).ending = _
  rw [Trace.bind, ends]

/-- No code runs once the process has ended or hangs. -/
theorem bind_of_last (rest : Value → Trace Event Result) (last : body.ending.continues = false) :
    (body >>= rest).events = body.events ∧ (body >>= rest).ending.continues = false := by
  change (body.bind rest).events = body.events ∧ (body.bind rest).ending.continues = false
  unfold Trace.bind
  split
  · rename_i ends
    rw [ends] at last
    cases last
  all_goals
    rename_i ends
    rw [ends] at last
    exact ⟨rfl, last⟩

/-- No destructor runs once the process has ended or hangs. -/
theorem ensuring_of_last (destructor : Trace Event Unit) (last : body.ending.continues = false) :
    body.ensuring destructor = body := by
  rw [ensuring, last]
  rfl

/-- No handler runs once the process has ended or hangs. -/
theorem catching_of_last (handler : String → Trace Event Value)
    (last : body.ending.continues = false) : body.catching handler = body := by
  unfold catching
  split
  · rename_i ends
    rw [ends] at last
    cases last
  · rfl

/-- The events of a destructor follow those of its scope. -/
theorem events_ensuring (destructor : Trace Event Unit) (continues : body.ending.continues = true) :
    (body.ensuring destructor).events = body.events ++ destructor.events := by
  unfold ensuring
  rw [if_pos continues]
  split <;> rfl

/-- A destructor that does not throw keeps how its scope ends. -/
theorem ending_ensuring {destructor : Trace Event Unit} (quiet : destructor.ending = .value ()) :
    (body.ensuring destructor).ending = body.ending := by
  unfold ensuring
  rw [quiet]
  split <;> rfl

/-- The handler decides how the code with an exception ends. -/
theorem ending_catching {message : String} (handler : String → Trace Event Value)
    (ends : body.ending = .raised message) :
    (body.catching handler).ending = (handler message).ending := by
  unfold catching
  rw [ends]

end Trace

end Plazza.Foundation
