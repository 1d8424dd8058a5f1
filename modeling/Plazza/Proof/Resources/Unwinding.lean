import Plazza.Construction.Spawn
import Plazza.Proof.Resources.Creation

namespace Plazza
open Plazza.Foundation

namespace MessageQueue

/-- The calls of a constructor that can fail. -/
inductive Call where
  | fopen
  | ftok
  | msgget
  deriving DecidableEq

/-- The first call of a constructor that fails. -/
def Answers.failing (answers : Answers) : Option Call :=
  if answers.fopen = none then some .fopen
  else if answers.ftok = false then some .ftok
  else if answers.msgget = false then some .msgget
  else none

variable {answers : Answers} {before after kernel : Kernel} {path other : String} {file : File}

/-- A destructor takes back the queue with the identifier that was next when it was made. -/
theorem withoutQueue_nextId
    (keeps : ∀ key queue, before.queues key = some queue → after.queues key = some queue)
    (adds : ∀ key queue, after.queues key = some queue → queue.id ≠ before.nextId →
      before.queues key = some queue) :
    after.withoutQueue before.nextId = before.queues := by
  funext key
  ext queue
  rw [Kernel.withoutQueue_eq_some]
  constructor
  · rintro ⟨found, old⟩
    exact adds key queue found old
  · intro found
    exact ⟨keeps key queue found, before.id_ne_nextId found⟩

/-- An old queue stays beside a new one with a key of its own. -/
theorem queues_created_of_exists {key : Nat} {queue : KernelQueue}
    (free : kernel.queues (newKey kernel path file) = none) (found : kernel.queues key = some queue) :
    (created kernel path file).queues key = some queue := by
  have distinct : key ≠ newKey kernel path file := by
    rintro rfl
    cases free.symm.trans found
  rw [queues_created, Function.update_of_ne distinct]
  exact found

/-- Every queue except the new one was there before. -/
theorem exists_of_queues_created {key : Nat} {queue : KernelQueue}
    (found : (created kernel path file).queues key = some queue) (old : queue.id ≠ kernel.nextId) :
    kernel.queues key = some queue := by
  rw [queues_created] at found
  by_cases same : key = newKey kernel path file
  · rw [same, Function.update_self] at found
    cases found
    exact absurd rfl old
  · rwa [Function.update_of_ne same] at found

theorem files_destroy (id : Nat) (path : String) (kernel : Kernel) :
    (destroy ⟨some id, path, true⟩ kernel).files = Function.update kernel.files path none := rfl

/-- The destructor of a new owner takes its queue back. -/
theorem queues_destroy_created (free : kernel.queues (newKey kernel path file) = none) :
    (destroy ⟨some kernel.nextId, path, true⟩ (created kernel path file)).queues =
      kernel.queues :=
  withoutQueue_nextId (fun _ _ => queues_created_of_exists free)
    fun _ _ => exists_of_queues_created

/-- The destructor of a new owner removes its anchor file. -/
theorem files_destroy_created (absent : kernel.files path = none) :
    (destroy ⟨some kernel.nextId, path, true⟩ (created kernel path file)).files = kernel.files := by
  rw [files_destroy, files_created]
  change Function.update (Function.update kernel.files path _) path none = _
  rw [Function.update_idem, ← absent, Function.update_eq_self]

/-- No other path changes. -/
theorem files_createFile_of_ne (distinct : other ≠ path) :
    (kernel.createFile path file).files other = kernel.files other :=
  Function.update_of_ne distinct ..

/-- A constructor without a failing call makes a queue. -/
theorem construct_of_not_failing (path : String) (kernel : Kernel)
    (succeeds : answers.failing = none) :
    ∃ file, answers.fopen = some file ∧ (construct answers path .create).run kernel =
      .ok ⟨some kernel.nextId, path, true⟩ (created kernel path file) := by
  cases opened : answers.fopen with
  | none => simp [Answers.failing, opened] at succeeds
  | some file =>
      have resolved : answers.ftok = true := by
        cases resolved : answers.ftok with
        | true => rfl
        | false => simp [Answers.failing, opened, resolved] at succeeds
      have got : answers.msgget = true := by
        cases got : answers.msgget with
        | true => rfl
        | false => simp [Answers.failing, opened, resolved, got] at succeeds
      exact ⟨file, rfl, construct_ok opened resolved got⟩

/-- A constructor that fails after `fopen` leaves its anchor file. -/
theorem construct_of_failing {call : Call} (path : String) (kernel : Kernel)
    (fails : answers.failing = some call) :
    ∃ after, (construct answers path .create).run kernel = .error kMqOpenFailed after ∧
      (call = .fopen → after = kernel) ∧ (call ≠ .fopen → after.files path ≠ none) := by
  cases opened : answers.fopen with
  | none =>
      have first : call = .fopen := by simpa [Answers.failing, opened] using fails.symm
      exact ⟨kernel, construct_of_fopen opened, fun _ => rfl, fun late => absurd first late⟩
  | some file =>
      have left : (kernel.createFile path file).files path ≠ none := by
        rw [Kernel.files_createFile]
        simp
      have late : call ≠ .fopen := by
        rintro rfl
        cases resolved : answers.ftok <;> cases got : answers.msgget <;>
          simp [Answers.failing, opened, resolved, got] at fails
      cases resolved : answers.ftok with
      | false =>
          exact ⟨_, construct_of_ftok opened resolved, fun first => absurd first late,
            fun _ => left⟩
      | true =>
          cases got : answers.msgget with
          | false =>
              refine ⟨_, construct_of_msgget opened resolved got, fun first => absurd first late,
                fun _ => ?_⟩
              rw [files_removeStale]
              exact left
          | true => simp [Answers.failing, opened, resolved, got] at fails

end MessageQueue

namespace Roster

/-- The points where the reception leaves `spawnKitchen` by an exception. -/
inductive Point where
  | orders (call : MessageQueue.Call)
  | results (call : MessageQueue.Call)
  | fork
  deriving DecidableEq

/-- The first call of `spawnKitchen` that fails. -/
def Answers.failing (answers : Answers) : Option Point :=
  match answers.orders.failing, answers.results.failing with
  | some call, _ => some (.orders call)
  | none, some call => some (.results call)
  | none, none => if answers.fork = none then some .fork else none

/-- The kitchens, the queues of the kernel and the files are as before. -/
structure Restored (before after : Roster) : Prop where
  kitchens : after.kitchens = before.kitchens
  queues : after.kernel.queues = before.kernel.queues
  files : after.kernel.files = before.kernel.files

variable {answers : Answers} {nCooks : Nat} {roster : Roster} {kernel after : Kernel}
  {orderQueue resultQueue : MessageQueue} {message : String}

/-- The roster with its counter advanced. -/
def advanced (roster : Roster) (kernel : Kernel) : Roster :=
  { roster with nextKitchenId := roster.nextKitchenId + 1, kernel }

theorem onKernel_ok {Value : Type} (roster : Roster) {body : Effect Kernel Value} {value : Value}
    (ran : body.run roster.kernel = .ok value kernel) :
    (onKernel body).run roster = .ok value { roster with kernel } :=
  Effect.within_ok ran

theorem onKernel_error {Value : Type} (roster : Roster) {body : Effect Kernel Value}
    (threw : body.run roster.kernel = .error message kernel) :
    (onKernel body).run roster = .error message { roster with kernel } :=
  Effect.within_error threw

theorem spawnKitchen_of_orders
    (threw : (MessageQueue.construct answers.orders (Child.orderPath roster.nextKitchenId)
      .create).run roster.kernel = .error message kernel) :
    (spawnKitchen answers nCooks).run roster = .error message (roster.advanced kernel) := by
  have first := onKernel_error (roster.advanced roster.kernel) threw
  rw [spawnKitchen, Effect.run_get_bind, Effect.run_modify_bind]
  exact Effect.bind_error _ first

/-- The queue of the orders is destroyed. -/
theorem spawnKitchen_of_results
    (built : (MessageQueue.construct answers.orders (Child.orderPath roster.nextKitchenId)
      .create).run roster.kernel = .ok orderQueue kernel)
    (threw : (MessageQueue.construct answers.results (Child.resultPath roster.nextKitchenId)
      .create).run kernel = .error message after) :
    (spawnKitchen answers nCooks).run roster =
      .error message (roster.advanced (orderQueue.destroy after)) := by
  have first := onKernel_ok (roster.advanced roster.kernel) built
  have second := onKernel_error (roster.advanced kernel) threw
  rw [spawnKitchen, Effect.run_get_bind, Effect.run_modify_bind]
  exact (Effect.bind_ok _ first).trans (Effect.unwinding_error _ (Effect.bind_error _ second))

/-- Both queues are destroyed. -/
theorem spawnKitchen_of_fork
    (built : (MessageQueue.construct answers.orders (Child.orderPath roster.nextKitchenId)
      .create).run roster.kernel = .ok orderQueue kernel)
    (also : (MessageQueue.construct answers.results (Child.resultPath roster.nextKitchenId)
      .create).run kernel = .ok resultQueue after)
    (failed : answers.fork = none) :
    (spawnKitchen answers nCooks).run roster =
      .error kForkFailed (roster.advanced (orderQueue.destroy (resultQueue.destroy after))) := by
  have threw : (Process.construct answers.fork).run after = .error kForkFailed after := by
    rw [failed]
    rfl
  have first := onKernel_ok (roster.advanced roster.kernel) built
  have second := onKernel_ok (roster.advanced kernel) also
  have third := onKernel_error (roster.advanced after) threw
  rw [spawnKitchen, Effect.run_get_bind, Effect.run_modify_bind]
  refine (Effect.bind_ok _ first).trans (Eq.trans (Effect.unwinding_error _
    ((Effect.bind_ok _ second).trans (Effect.unwinding_error _ (Effect.bind_error _ third)))) ?_)
  rfl

/-- The new handle is the last one when no call fails. -/
theorem spawnKitchen_ok {pid : Nat}
    (built : (MessageQueue.construct answers.orders (Child.orderPath roster.nextKitchenId)
      .create).run roster.kernel = .ok orderQueue kernel)
    (also : (MessageQueue.construct answers.results (Child.resultPath roster.nextKitchenId)
      .create).run kernel = .ok resultQueue after)
    (forked : answers.fork = some pid) :
    (spawnKitchen answers nCooks).run roster = .ok () { roster.advanced (after.fork pid) with
      kitchens := roster.kitchens ++
        [⟨KitchenHandle.new roster.nextKitchenId nCooks, orderQueue, resultQueue,
          ⟨some pid, false⟩⟩] } := by
  have opened : (Process.construct answers.fork).run after = .ok ⟨some pid, false⟩ (after.fork pid) := by
    rw [forked]
    rfl
  have first := onKernel_ok (roster.advanced roster.kernel) built
  have second := onKernel_ok (roster.advanced kernel) also
  have third := onKernel_ok (roster.advanced after) opened
  rw [spawnKitchen, Effect.run_get_bind, Effect.run_modify_bind]
  refine (Effect.bind_ok _ first).trans (Effect.unwinding_ok _ ?_)
  refine (Effect.bind_ok _ second).trans (Effect.unwinding_ok _ ?_)
  exact Effect.bind_ok _ third

/-- No anchor file of the new kitchen exists and no queue has one of its keys. -/
structure Clear (roster : Roster) (answers : Answers) : Prop where
  noOrderFile : roster.kernel.files (Child.orderPath roster.nextKitchenId) = none
  noResultFile : roster.kernel.files (Child.resultPath roster.nextKitchenId) = none
  noOrderQueue : ∀ file, answers.orders.fopen = some file →
    roster.kernel.queues (ftok file kProjectId) = none
  noResultQueue : ∀ file, answers.results.fopen = some file →
    roster.kernel.queues (ftok file kProjectId) = none

theorem newKey_of_absent {path : String} {file : File} (absent : kernel.files path = none) :
    MessageQueue.newKey kernel path file = ftok file kProjectId := by
  rw [MessageQueue.newKey, Kernel.anchorFile, absent]
  rfl

/-- The first queue gives everything back when the second one fails at once. -/
theorem restored_after_orders {file : File} (clear : roster.Clear answers)
    (opened : answers.orders.fopen = some file) :
    Restored roster (roster.advanced
      (MessageQueue.destroy ⟨some roster.kernel.nextId, Child.orderPath roster.nextKitchenId, true⟩
        (MessageQueue.created roster.kernel (Child.orderPath roster.nextKitchenId) file))) where
  kitchens := rfl
  queues := by
    refine MessageQueue.queues_destroy_created ?_
    rw [newKey_of_absent clear.noOrderFile]
    exact clear.noOrderQueue file opened
  files := MessageQueue.files_destroy_created clear.noOrderFile

/-- Both queues give everything back when the fork fails. -/
theorem restored_after_results {first second : File} (clear : roster.Clear answers)
    (opened : answers.orders.fopen = some first) (also : answers.results.fopen = some second)
    (made : kernel = MessageQueue.created roster.kernel (Child.orderPath roster.nextKitchenId) first) :
    Restored roster (roster.advanced
      (MessageQueue.destroy ⟨some roster.kernel.nextId, Child.orderPath roster.nextKitchenId, true⟩
        (MessageQueue.destroy ⟨some kernel.nextId, Child.resultPath roster.nextKitchenId, true⟩
          (MessageQueue.created kernel (Child.resultPath roster.nextKitchenId) second)))) := by
  have absent : kernel.files (Child.resultPath roster.nextKitchenId) = none := by
    rw [made, MessageQueue.files_created,
      MessageQueue.files_createFile_of_ne (Child.orderPath_ne_resultPath _ _).symm]
    exact clear.noResultFile
  have free : roster.kernel.queues (MessageQueue.newKey roster.kernel
      (Child.orderPath roster.nextKitchenId) first) = none := by
    rw [newKey_of_absent clear.noOrderFile]
    exact clear.noOrderQueue first opened
  -- The second constructor takes the first queue for a stale one when both have one key.
  have keeps (key : Nat) (queue : KernelQueue) (found : roster.kernel.queues key = some queue) :
      (MessageQueue.created kernel (Child.resultPath roster.nextKitchenId) second).withoutQueue
        kernel.nextId key = some queue := by
    have old : kernel.queues key = some queue := by
      rw [made]
      exact MessageQueue.queues_created_of_exists free found
    have distinct : key ≠ MessageQueue.newKey kernel (Child.resultPath roster.nextKitchenId) second := by
      rw [newKey_of_absent absent]
      rintro rfl
      cases (clear.noResultQueue second also).symm.trans found
    refine Kernel.withoutQueue_eq_some.mpr ⟨?_, kernel.id_ne_nextId old⟩
    rw [MessageQueue.queues_created, Function.update_of_ne distinct]
    exact old
  have adds (key : Nat) (queue : KernelQueue)
      (found : (MessageQueue.created kernel (Child.resultPath roster.nextKitchenId)
        second).withoutQueue kernel.nextId key = some queue)
      (old : queue.id ≠ roster.kernel.nextId) : roster.kernel.queues key = some queue := by
    obtain ⟨present, other⟩ := Kernel.withoutQueue_eq_some.mp found
    have before := MessageQueue.exists_of_queues_created present other
    rw [made] at before
    exact MessageQueue.exists_of_queues_created before old
  constructor
  · rfl
  · exact MessageQueue.withoutQueue_nextId keeps adds
  · change (MessageQueue.destroy _ (MessageQueue.destroy _ _)).files = _
    rw [MessageQueue.files_destroy, MessageQueue.files_destroy_created absent, made]
    exact MessageQueue.files_destroy_created clear.noOrderFile

/-- A failure of the first constructor leaves its anchor file unless `fopen` fails. -/
theorem restored_iff_of_orders {call : MessageQueue.Call} {failed : Roster} (clear : roster.Clear answers)
    (fails : answers.orders.failing = some call)
    (threw : (spawnKitchen answers nCooks).run roster = .error message failed) :
    Restored roster failed ↔ call = .fopen := by
  obtain ⟨after, ended, same, left⟩ := MessageQueue.construct_of_failing
    (Child.orderPath roster.nextKitchenId) roster.kernel fails
  rw [spawnKitchen_of_orders ended] at threw
  cases threw
  constructor
  · intro restored
    by_contra late
    exact left late ((congrFun restored.files _).trans clear.noOrderFile)
  · intro early
    rw [same early]
    exact ⟨rfl, rfl, rfl⟩

/-- A failure of the second constructor leaves its anchor file unless `fopen` fails. -/
theorem restored_iff_of_results {call : MessageQueue.Call} {failed : Roster} (clear : roster.Clear answers)
    (succeeds : answers.orders.failing = none) (fails : answers.results.failing = some call)
    (threw : (spawnKitchen answers nCooks).run roster = .error message failed) :
    Restored roster failed ↔ call = .fopen := by
  obtain ⟨file, opened, built⟩ := MessageQueue.construct_of_not_failing
    (Child.orderPath roster.nextKitchenId) roster.kernel succeeds
  obtain ⟨after, ended, same, left⟩ := MessageQueue.construct_of_failing
    (Child.resultPath roster.nextKitchenId) (MessageQueue.created roster.kernel _ file) fails
  rw [spawnKitchen_of_results built ended] at threw
  cases threw
  constructor
  · intro restored
    by_contra late
    have kept : (MessageQueue.destroy ⟨some roster.kernel.nextId, _, true⟩ after).files
        (Child.resultPath roster.nextKitchenId) = _ := congrFun restored.files _
    rw [MessageQueue.files_destroy,
      Function.update_of_ne (Child.orderPath_ne_resultPath _ _).symm] at kept
    exact left late (kept.trans clear.noResultFile)
  · intro early
    rw [same early]
    exact restored_after_orders clear opened

/-- A failure of the fork leaves nothing. -/
theorem restored_of_fork {failed : Roster} (clear : roster.Clear answers)
    (succeeds : answers.orders.failing = none) (also : answers.results.failing = none)
    (threw : (spawnKitchen answers nCooks).run roster = .error message failed) :
    answers.fork = none ∧ Restored roster failed := by
  obtain ⟨file, opened, built⟩ := MessageQueue.construct_of_not_failing
    (Child.orderPath roster.nextKitchenId) roster.kernel succeeds
  obtain ⟨other, reopened, completed⟩ := MessageQueue.construct_of_not_failing
    (Child.resultPath roster.nextKitchenId) (MessageQueue.created roster.kernel _ file) also
  cases forked : answers.fork with
  | some pid =>
      rw [spawnKitchen_ok built completed forked] at threw
      cases threw
  | none =>
      rw [spawnKitchen_of_fork built completed forked] at threw
      cases threw
      exact ⟨rfl, restored_after_results clear opened reopened rfl⟩

/-- A failed spawn leaves nothing behind exactly when its first failing call opens an anchor file or
forks. -/
theorem restored_iff {failed : Roster} (clear : roster.Clear answers)
    (threw : (spawnKitchen answers nCooks).run roster = .error message failed) :
    Restored roster failed ↔
      answers.failing ∈ [some (.orders .fopen), some (.results .fopen), some .fork] := by
  cases first : answers.orders.failing with
  | some call =>
      have fails : answers.failing = some (.orders call) := by rw [Answers.failing, first]
      rw [restored_iff_of_orders clear first threw, fails]
      simp
  | none =>
      cases second : answers.results.failing with
      | some call =>
          have fails : answers.failing = some (.results call) := by
            rw [Answers.failing, first, second]
          rw [restored_iff_of_results clear first second threw, fails]
          simp
      | none =>
          obtain ⟨forked, restored⟩ := restored_of_fork clear first second threw
          have fails : answers.failing = some .fork := by
            rw [Answers.failing, first, second, forked]
            rfl
          rw [fails]
          exact iff_of_true restored (by simp)

/-- A reception that has not opened a kitchen yet. -/
def opening : Roster := ⟨[], 0, .booted fun _ => none⟩

theorem clear_opening (answers : Answers) : opening.Clear answers where
  noOrderFile := rfl
  noResultFile := rfl
  noOrderQueue _ _ := rfl
  noResultQueue _ _ := rfl

/-- The anchor files get two inodes and the fork fails. -/
def forkless : Answers := ⟨⟨some ⟨1, 1⟩, true, true⟩, ⟨some ⟨1, 2⟩, true, true⟩, none⟩

/-- The first kitchen leaves nothing when its fork fails. -/
theorem restored_of_forkless :
    ∃ failed, (spawnKitchen forkless 2).run opening = .error kForkFailed failed ∧
      Restored opening failed := by
  have orders : (MessageQueue.construct forkless.orders (Child.orderPath opening.nextKitchenId)
      .create).run opening.kernel = .ok _ _ := MessageQueue.construct_ok rfl rfl rfl
  have results : (MessageQueue.construct forkless.results (Child.resultPath opening.nextKitchenId)
      .create).run (MessageQueue.created opening.kernel (Child.orderPath opening.nextKitchenId)
        ⟨1, 1⟩) = .ok _ _ := MessageQueue.construct_ok rfl rfl rfl
  have threw : (spawnKitchen forkless 2).run opening = _ := spawnKitchen_of_fork orders results rfl
  exact ⟨_, threw, (restored_iff (clear_opening forkless) threw).mpr (by decide)⟩

/-- The first anchor file is made and has no key. -/
def keyless : Answers := ⟨⟨some ⟨1, 1⟩, false, true⟩, ⟨some ⟨1, 2⟩, true, true⟩, some 1⟩

/-- The first anchor file stays when it has no key. -/
theorem not_restored :
    ∃ (roster failed : Roster) (answers : Answers) (message : String), roster.Clear answers ∧
      (spawnKitchen answers 2).run roster = .error message failed ∧ ¬Restored roster failed := by
  have orders : (MessageQueue.construct keyless.orders (Child.orderPath opening.nextKitchenId)
      .create).run opening.kernel = .error kMqOpenFailed _ := MessageQueue.construct_of_ftok rfl rfl
  have threw : (spawnKitchen keyless 2).run opening = _ := spawnKitchen_of_orders orders
  refine ⟨opening, _, keyless, kMqOpenFailed, clear_opening keyless, threw, fun restored => ?_⟩
  have early : MessageQueue.Call.ftok = .fopen :=
    (restored_iff_of_orders (clear_opening keyless) rfl threw).mp restored
  cases early

end Roster

end Plazza
