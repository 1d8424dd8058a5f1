import Plazza.Construction.Kernel

namespace Plazza
open Plazza.Foundation

def kThreadCreationFailed := "Failed to create thread"
def kForkFailed := "Failed to fork process"

/-- The flag tells whether the object has to join the thread. -/
structure Thread where
  thread : Nat
  launched : Bool
  deriving DecidableEq

namespace Thread

/-- The system answers with a handle or refuses. -/
def construct (answer : Option Nat) : Effect Kernel Thread :=
  match answer with
  | none => throw kThreadCreationFailed
  | some thread => do
      modify fun kernel => kernel.createThread thread
      return ⟨thread, true⟩

def destroy (self : Thread) (kernel : Kernel) : Kernel :=
  if self.launched then kernel.joinThread self.thread else kernel

/-- What a move leaves of its source. -/
def movedFrom (other : Thread) : Thread := { other with launched := false }

/-- The new object and what is left of the other one. -/
def moveConstruct (other : Thread) : Thread × Thread :=
  (⟨other.thread, other.launched⟩, other.movedFrom)

/-- The assignment from a different object: one to itself does nothing. -/
def moveAssign (self other : Thread) (kernel : Kernel) : Thread × Thread × Kernel :=
  (⟨other.thread, other.launched⟩, other.movedFrom, self.destroy kernel)

end Thread

/-- The identifier is missing where the source has a negative one. -/
structure Process where
  pid : Option Nat
  done : Bool
  deriving DecidableEq

namespace Process

/-- The parent's side of the constructor. The system answers with an identifier or refuses. -/
def construct (answer : Option Nat) : Effect Kernel Process :=
  match answer with
  | none => throw kForkFailed
  | some pid => do
      modify fun kernel => kernel.fork pid
      return ⟨some pid, false⟩

def destroy (self : Process) (kernel : Kernel) : Kernel :=
  match self.done, self.pid with
  | false, some pid => kernel.waitpid pid
  | _, _ => kernel

def wait (self : Process) (kernel : Kernel) : Process × Kernel :=
  match self.done, self.pid with
  | false, some pid => ({ self with done := true }, kernel.waitpid pid)
  | _, _ => (self, kernel)

/-- What a move leaves of its source. -/
def movedFrom : Process := ⟨none, true⟩

/-- The new object and what is left of the other one. -/
def moveConstruct (other : Process) : Process × Process :=
  (⟨other.pid, other.done⟩, movedFrom)

/-- The assignment from a different object: one to itself does nothing. -/
def moveAssign (self other : Process) (kernel : Kernel) : Process × Process × Kernel :=
  (⟨other.pid, other.done⟩, movedFrom, self.destroy kernel)

end Process

end Plazza
