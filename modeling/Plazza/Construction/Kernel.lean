import Plazza.Construction.Packet
import Plazza.Foundation.Effect
import Mathlib.Logic.Function.Basic

namespace Plazza
open Plazza.Foundation

/-- The file system tells its files apart by these two numbers. -/
structure File where
  device : Nat
  inode : Nat
  deriving DecidableEq

def kProjectId := 1

/-- The key keeps the low bits of the two numbers only. -/
def ftok (file : File) (projectId : Nat) : Nat :=
  (file.inode &&& 0xffff) ||| ((file.device &&& 0xff) <<< 16) ||| ((projectId &&& 0xff) <<< 24)

/-- A queue of the kernel. -/
structure KernelQueue where
  id : Nat
  packets : List Packet

/-- What a process asks of the operating system and has to give back. -/
inductive Resource where
  | thread (thread : Nat)
  | child (pid : Nat)
  | queue (id : Nat)
  deriving DecidableEq

/-- The kernel finds a queue by its key and never gives the identifier of a queue twice. The two
lists of resources are the history of the calls of one process. -/
structure Kernel where
  files : String → Option File
  queues : Nat → Option KernelQueue
  nextId : Nat
  threads : List Nat
  children : List Nat
  created : List Resource
  released : List Resource
  issued : ∀ {key : Nat} {queue : KernelQueue}, queues key = some queue → queue.id < nextId
  single : ∀ {key other : Nat} {queue same : KernelQueue}, queues key = some queue →
    queues other = some same → queue.id = same.id → key = other

namespace Kernel

/-- A machine with some files, where no queue exists yet. -/
def booted (files : String → Option File) : Kernel where
  files := files
  queues _ := none
  nextId := 0
  threads := []
  children := []
  created := []
  released := []
  issued found := by cases found
  single found := by cases found

/-- The file behind a path after `fopen` in append mode, which keeps one that exists. -/
def anchorFile (kernel : Kernel) (path : String) (file : File) : File :=
  (kernel.files path).getD file

def createFile (kernel : Kernel) (path : String) (file : File) : Kernel :=
  { kernel with files := Function.update kernel.files path (some (kernel.anchorFile path file)) }

def removeFile (kernel : Kernel) (path : String) : Kernel :=
  { kernel with files := Function.update kernel.files path none }

/-- `msgget` without a flag. -/
def findQueue (kernel : Kernel) (key : Nat) : Option Nat :=
  (kernel.queues key).map KernelQueue.id

/-- The new queue has a new identifier. -/
def createQueue (kernel : Kernel) (key : Nat) : Kernel :=
  { kernel with
    queues := Function.update kernel.queues key (some ⟨kernel.nextId, []⟩)
    nextId := kernel.nextId + 1
    created := kernel.created ++ [.queue kernel.nextId]
    issued := by
      intro other queue found
      by_cases same : other = key
      · rw [same, Function.update_self] at found
        cases found
        exact Nat.lt_succ_self _
      · rw [Function.update_of_ne same] at found
        exact Nat.lt_succ_of_lt (kernel.issued found)
    single := by
      intro first second queue same found also equal
      by_cases left : first = key <;> by_cases right : second = key
      · rw [left, right]
      · rw [left, Function.update_self] at found
        rw [Function.update_of_ne right] at also
        cases found
        exact absurd equal.symm (Nat.ne_of_lt (kernel.issued also))
      · rw [Function.update_of_ne left] at found
        rw [right, Function.update_self] at also
        cases also
        exact absurd equal (Nat.ne_of_lt (kernel.issued found))
      · rw [Function.update_of_ne left] at found
        rw [Function.update_of_ne right] at also
        exact kernel.single found also equal }

/-- The queues without the one of this identifier. -/
def withoutQueue (kernel : Kernel) (id key : Nat) : Option KernelQueue :=
  (kernel.queues key).filter fun queue => queue.id ≠ id

theorem withoutQueue_eq_some {kernel : Kernel} {id key : Nat} {queue : KernelQueue} :
    kernel.withoutQueue id key = some queue ↔ kernel.queues key = some queue ∧ queue.id ≠ id := by
  rw [withoutQueue, Option.filter_eq_some_iff, decide_eq_true_iff]

/-- `msgctl` with `IPC_RMID`. A queue of another process is not in the history. -/
def removeQueue (kernel : Kernel) (id : Nat) : Kernel :=
  { kernel with
    queues := kernel.withoutQueue id
    released := if .queue id ∈ kernel.created then kernel.released ++ [.queue id]
      else kernel.released
    issued := fun found => kernel.issued (withoutQueue_eq_some.mp found).1
    single := fun found also =>
      kernel.single (withoutQueue_eq_some.mp found).1 (withoutQueue_eq_some.mp also).1 }

/-- `pthread_create` with the handle that the system chooses. -/
def createThread (kernel : Kernel) (thread : Nat) : Kernel :=
  { kernel with
    threads := thread :: kernel.threads
    created := kernel.created ++ [.thread thread] }

/-- `pthread_join`, after which the system may use the handle again. -/
def joinThread (kernel : Kernel) (thread : Nat) : Kernel :=
  { kernel with
    threads := kernel.threads.filter (· ≠ thread)
    released := kernel.released ++ [.thread thread] }

/-- `fork` with the identifier that the system chooses. -/
def fork (kernel : Kernel) (pid : Nat) : Kernel :=
  { kernel with
    children := pid :: kernel.children
    created := kernel.created ++ [.child pid] }

/-- `waitpid`, after which the system may use the identifier again. -/
def waitpid (kernel : Kernel) (pid : Nat) : Kernel :=
  { kernel with
    children := kernel.children.filter (· ≠ pid)
    released := kernel.released ++ [.child pid] }

end Kernel

end Plazza
