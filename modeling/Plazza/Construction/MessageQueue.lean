import Plazza.Construction.Fork
import Plazza.Construction.Kernel

namespace Plazza
open Plazza.Foundation

/-- The queue identifier of an object without a queue is missing. -/
structure MessageQueue where
  queueId : Option Nat
  path : String
  owner : Bool
  deriving DecidableEq

namespace MessageQueue

inductive Mode where
  | create
  | «open»
  deriving DecidableEq

/-- What the system answers to the calls of one constructor. A new file gets its numbers. -/
structure Answers where
  fopen : Option File
  ftok : Bool
  msgget : Bool

def createAnchorFile (answers : Answers) (path : String) : Effect Kernel Unit :=
  match answers.fopen with
  | none => throw kMqOpenFailed
  | some file => modify fun kernel => kernel.createFile path file

/-- The key comes from the numbers of the file behind the path. -/
def resolveKey (answers : Answers) (path : String) : Effect Kernel Nat := do
  match answers.ftok, (← get).files path with
  | true, some file => return Plazza.ftok file kProjectId
  | _, _ => throw kMqOpenFailed

/-- The key that a new owner makes of its anchor file. -/
def newKey (kernel : Kernel) (path : String) (file : File) : Nat :=
  Plazza.ftok (kernel.anchorFile path file) kProjectId

/-- An owner takes the queue that has its key for a stale one. -/
def removeStale (kernel : Kernel) (key : Nat) : Kernel :=
  match kernel.findQueue key with
  | some staleId => kernel.removeQueue staleId
  | none => kernel

/-- `msgget` with `IPC_CREAT | IPC_EXCL` fails when the key has a queue. -/
def createQueue (answers : Answers) (key : Nat) : Effect Kernel Nat := do
  let kernel ← get
  if answers.msgget ∧ kernel.queues key = none then
    set (kernel.createQueue key)
    return kernel.nextId
  else throw kMqOpenFailed

def openQueue (answers : Answers) (owner : Bool) (key : Nat) : Effect Kernel Nat := do
  if owner then
    modify fun kernel => removeStale kernel key
    createQueue answers key
  else
    match answers.msgget, (← get).findQueue key with
    | true, some queueId => return queueId
    | _, _ => throw kMqOpenFailed

/-- An object whose constructor throws is not complete and runs no destructor. -/
def construct (answers : Answers) (path : String) (mode : Mode) : Effect Kernel MessageQueue := do
  let owner : Bool := mode = .create
  (if owner then createAnchorFile answers path else pure ())
  let key ← resolveKey answers path
  let queueId ← openQueue answers owner key
  return ⟨some queueId, path, owner⟩

/-- An owner with a queue removes it and its anchor file. -/
def destroy (queue : MessageQueue) (kernel : Kernel) : Kernel :=
  match queue.owner, queue.queueId with
  | true, some queueId => (kernel.removeQueue queueId).removeFile queue.path
  | _, _ => kernel

/-- The source of a move keeps neither the queue nor the ownership. -/
def movedFrom : MessageQueue := ⟨none, "", false⟩

/-- The new object and what is left of the other one. -/
def moveConstruct (other : MessageQueue) : MessageQueue × MessageQueue :=
  (⟨other.queueId, other.path, other.owner⟩, movedFrom)

/-- The assignment from a different object: one to itself does nothing. -/
def moveAssign (self other : MessageQueue) (kernel : Kernel) :
    MessageQueue × MessageQueue × Kernel :=
  (⟨other.queueId, other.path, other.owner⟩, movedFrom, self.destroy kernel)

end MessageQueue

end Plazza
