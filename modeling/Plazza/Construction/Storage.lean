import Plazza.Construction.Concurrency
import Plazza.Construction.MessageQueue
import Plazza.Foundation.Machine

namespace Plazza
open Plazza.Foundation

/-- An object of one of the three classes. -/
inductive Object where
  | thread (thread : Thread)
  | process (process : Process)
  | queue (queue : MessageQueue)

namespace Object

def destroy (kernel : Kernel) : Object → Kernel
  | thread self => self.destroy kernel
  | process self => self.destroy kernel
  | queue self => self.destroy kernel

def moveConstruct : Object → Object × Object
  | thread other => (thread other.moveConstruct.1, thread other.moveConstruct.2)
  | process other => (process other.moveConstruct.1, process other.moveConstruct.2)
  | queue other => (queue other.moveConstruct.1, queue other.moveConstruct.2)

/-- The two objects have one class. -/
def moveAssign (kernel : Kernel) : Object → Object → Option (Object × Object × Kernel)
  | thread self, thread other =>
      let (new, left, after) := self.moveAssign other kernel
      some (thread new, thread left, after)
  | process self, process other =>
      let (new, left, after) := self.moveAssign other kernel
      some (process new, process left, after)
  | queue self, queue other =>
      let (new, left, after) := self.moveAssign other kernel
      some (queue new, queue left, after)
  | _, _ => none

end Object

/-- The live objects of a program by their address, and the kernel below. -/
structure Storage (Address : Type) where
  objects : Address → Option Object
  kernel : Kernel

/-- A statement that makes, moves, waits on or destroys an object. The system chooses the handle of
a thread, the identifier of a child and the numbers of a new file. -/
inductive Statement (Address : Type) where
  | thread (target : Address) (handle : Nat)
  | process (target : Address) (pid : Nat)
  | queue (target : Address) (path : String) (mode : MessageQueue.Mode) (file : File)
  | moveConstruct (target source : Address)
  | moveAssign (target source : Address)
  | wait (target : Address)
  | destroy (target : Address)

namespace Storage

variable {Address : Type} [DecidableEq Address]

def put (storage : Storage Address) (target : Address) (object : Option Object) : Storage Address :=
  { storage with objects := Function.update storage.objects target object }

/-- A constructor that returns puts its object at an unused address. -/
def construct (storage : Storage Address) (target : Address) (body : Effect Kernel Object) :
    Option (Storage Address) :=
  match storage.objects target, body.run storage.kernel with
  | none, .ok object kernel => some ({ storage with kernel }.put target (some object))
  | _, _ => none

/-- No call of the system fails, and a handle or identifier in use is not chosen again. -/
def step (storage : Storage Address) : Statement Address → Option (Storage Address)
  | .thread target handle =>
      if handle ∈ storage.kernel.threads then none
      else storage.construct target (.thread <$> Thread.construct (some handle))
  | .process target pid =>
      if pid ∈ storage.kernel.children then none
      else storage.construct target (.process <$> Process.construct (some pid))
  | .queue target path mode file =>
      storage.construct target (.queue <$> MessageQueue.construct ⟨some file, true, true⟩ path mode)
  | .moveConstruct target source =>
      match storage.objects target, storage.objects source with
      | none, some other => some ((storage.put target (some other.moveConstruct.1)).put source
          (some other.moveConstruct.2))
      | _, _ => none
  | .moveAssign target source =>
      match storage.objects target, storage.objects source with
      | some self, some other =>
          if target = source then some storage
          else (self.moveAssign storage.kernel other).map fun (new, left, kernel) =>
            ({ storage with kernel }.put target (some new)).put source (some left)
      | _, _ => none
  | .wait target =>
      match storage.objects target with
      | some (.process self) => some ({ storage with kernel := (self.wait storage.kernel).2 }.put
          target (some (.process (self.wait storage.kernel).1)))
      | _ => none
  | .destroy target =>
      match storage.objects target with
      | some self => some ({ storage with kernel := self.destroy storage.kernel }.put target none)
      | none => none

/-- A program starts without objects. Files and queues of other programs may exist. -/
def machine (Address : Type) [DecidableEq Address] (kernel : Kernel) :
    Machine (Storage Address) (Statement Address) where
  initial := ⟨fun _ => none,
    { kernel with threads := [], children := [], created := [], released := [] }⟩
  step := step

/-- No queue of the program has the key that a new one gets. -/
def DistinctKeys (storage : Storage Address) : Statement Address → Prop
  | .queue _ path .create file => ∀ queue,
      storage.kernel.queues (MessageQueue.newKey storage.kernel path file) = some queue →
        .queue queue.id ∉ storage.kernel.created
  | _ => True

end Storage

end Plazza
