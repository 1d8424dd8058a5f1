import Plazza.Construction.MessageQueue
import Mathlib.Tactic.Ring

namespace Plazza
open Plazza.Foundation

/-- The two files agree in all the bits that reach a key. -/
def File.SameKeyBits (file other : File) : Prop :=
  file.inode % 2 ^ 16 = other.inode % 2 ^ 16 ∧ file.device % 2 ^ 8 = other.device % 2 ^ 8

/-- The three parts of a key take separate bits. -/
theorem ftok_eq (file : File) (projectId : Nat) :
    ftok file projectId =
      file.inode % 2 ^ 16 + 2 ^ 16 * (file.device % 2 ^ 8) + 2 ^ 24 * (projectId % 2 ^ 8) := by
  have inode : file.inode &&& 0xffff = file.inode % 2 ^ 16 := Nat.and_two_pow_sub_one_eq_mod _ 16
  have device : file.device &&& 0xff = file.device % 2 ^ 8 := Nat.and_two_pow_sub_one_eq_mod _ 8
  have project : projectId &&& 0xff = projectId % 2 ^ 8 := Nat.and_two_pow_sub_one_eq_mod _ 8
  have low : file.inode % 2 ^ 16 < 2 ^ 16 := Nat.mod_lt _ (by decide)
  have middle : file.device % 2 ^ 8 < 2 ^ 8 := Nat.mod_lt _ (by decide)
  have both : (file.device % 2 ^ 8) <<< 16 + file.inode % 2 ^ 16 < 2 ^ 24 := by
    rw [Nat.shiftLeft_eq]
    omega
  rw [ftok, inode, device, project, Nat.or_comm (file.inode % 2 ^ 16),
    ← Nat.shiftLeft_add_eq_or_of_lt low, Nat.or_comm, ← Nat.shiftLeft_add_eq_or_of_lt both,
    Nat.shiftLeft_eq, Nat.shiftLeft_eq]
  ring

/-- Two files have one key when they agree in its bits, and only then. -/
theorem ftok_eq_iff {file other : File} {projectId : Nat} :
    ftok file projectId = ftok other projectId ↔ file.SameKeyBits other := by
  have low (number : Nat) : number % 2 ^ 16 < 2 ^ 16 := Nat.mod_lt _ (by decide)
  have inode := low file.inode
  have same := low other.inode
  rw [ftok_eq, ftok_eq, File.SameKeyBits]
  constructor
  · intro equal
    constructor <;> omega
  · rintro ⟨inodes, devices⟩
    rw [inodes, devices]

/-- The two queues of a kitchen have different paths. -/
theorem Child.orderPath_ne_resultPath (first second : Nat) :
    Child.orderPath first ≠ Child.resultPath second := by
  intro same
  have texts := congrArg String.toList same
  rw [Child.orderPath, Child.resultPath, String.toList_append, String.toList_append] at texts
  have heads := congrArg List.head? texts
  simp at heads

namespace Kernel

theorem files_createFile {kernel : Kernel} {path : String} {file : File} :
    (kernel.createFile path file).files path = some (kernel.anchorFile path file) :=
  Function.update_self ..

/-- `fopen` in append mode changes no file that exists. -/
theorem files_createFile_of_exists {kernel : Kernel} {path other : String} {file anchor : File}
    (found : kernel.files other = some anchor) :
    (kernel.createFile path file).files other = some anchor := by
  by_cases same : other = path
  · rw [← same, files_createFile, anchorFile, found]
    rfl
  · exact (Function.update_of_ne same ..).trans found

/-- No queue has the next identifier. -/
theorem id_ne_nextId {kernel : Kernel} {key : Nat} {queue : KernelQueue}
    (found : kernel.queues key = some queue) : queue.id ≠ kernel.nextId :=
  Nat.ne_of_lt (kernel.issued found)

end Kernel

namespace MessageQueue

/-- The removal of a stale queue empties its key and nothing else. -/
theorem queues_removeStale (kernel : Kernel) (key : Nat) :
    (removeStale kernel key).queues = Function.update kernel.queues key none := by
  funext other
  unfold removeStale Kernel.findQueue
  cases found : kernel.queues key with
  | none =>
      by_cases same : other = key
      · rw [same, Function.update_self]
        exact found
      · rw [Function.update_of_ne same]
        rfl
  | some stale =>
      change kernel.withoutQueue stale.id other = _
      rw [Kernel.withoutQueue]
      by_cases same : other = key
      · rw [same, Function.update_self, found]
        simp
      · rw [Function.update_of_ne same]
        cases present : kernel.queues other with
        | none => rfl
        | some queue =>
            have other_id : queue.id ≠ stale.id := fun equal =>
              same (kernel.single present found equal)
            exact Option.filter_some_pos (decide_eq_true other_id)

theorem nextId_removeStale (kernel : Kernel) (key : Nat) :
    (removeStale kernel key).nextId = kernel.nextId := by
  unfold removeStale
  split <;> rfl

theorem files_removeStale (kernel : Kernel) (key : Nat) :
    (removeStale kernel key).files = kernel.files := by
  unfold removeStale
  split <;> rfl

variable {answers : Answers} {kernel after : Kernel} {path : String} {file : File}
  {object : MessageQueue}

/-- The kernel that a new owner leaves. -/
def created (kernel : Kernel) (path : String) (file : File) : Kernel :=
  (removeStale (kernel.createFile path file) (newKey kernel path file)).createQueue
    (newKey kernel path file)

theorem createAnchorFile_ok (opened : answers.fopen = some file) :
    (createAnchorFile answers path).run kernel = .ok () (kernel.createFile path file) := by
  rw [createAnchorFile, opened]
  rfl

theorem resolveKey_ok (resolved : answers.ftok = true) (found : kernel.files path = some file) :
    (resolveKey answers path).run kernel = .ok (ftok file kProjectId) kernel := by
  rw [resolveKey, Effect.run_get_bind, resolved, found]
  rfl

/-- The key of a stale queue is free again. -/
theorem createQueue_ok {key : Nat} (got : answers.msgget = true) (free : kernel.queues key = none) :
    (createQueue answers key).run kernel = .ok kernel.nextId (kernel.createQueue key) := by
  rw [createQueue, Effect.run_get_bind, if_pos ⟨got, free⟩]
  rfl

theorem openQueue_ok (got : answers.msgget = true) (key : Nat) :
    (openQueue answers true key).run kernel =
      .ok kernel.nextId ((removeStale kernel key).createQueue key) := by
  have free : (removeStale kernel key).queues key = none := by
    rw [queues_removeStale, Function.update_self]
  change (createQueue answers key).run (removeStale kernel key) = _
  rw [createQueue_ok got free, nextId_removeStale]

/-- The statements of the constructor of an owner. -/
theorem construct_create (answers : Answers) (path : String) :
    construct answers path .create = do
      createAnchorFile answers path
      let key ← resolveKey answers path
      let queueId ← openQueue answers true key
      return ⟨some queueId, path, true⟩ := rfl

/-- A new owner has the next identifier when no call fails. -/
theorem construct_ok (opened : answers.fopen = some file) (resolved : answers.ftok = true)
    (got : answers.msgget = true) :
    (construct answers path .create).run kernel =
      .ok ⟨some kernel.nextId, path, true⟩ (created kernel path file) := by
  rw [construct_create, Effect.bind_ok _ (createAnchorFile_ok opened),
    Effect.bind_ok _ (resolveKey_ok resolved Kernel.files_createFile),
    Effect.bind_ok _ (openQueue_ok got _)]
  rfl

theorem construct_of_fopen (failed : answers.fopen = none) :
    (construct answers path .create).run kernel = .error kMqOpenFailed kernel := by
  have threw : (createAnchorFile answers path).run kernel = .error kMqOpenFailed kernel := by
    rw [createAnchorFile, failed]
    rfl
  rw [construct_create, Effect.bind_error _ threw]

/-- The anchor file stays when no key is made of it. -/
theorem construct_of_ftok (opened : answers.fopen = some file) (failed : answers.ftok = false) :
    (construct answers path .create).run kernel =
      .error kMqOpenFailed (kernel.createFile path file) := by
  have threw : (resolveKey answers path).run (kernel.createFile path file) =
      .error kMqOpenFailed (kernel.createFile path file) := by
    rw [resolveKey, Effect.run_get_bind, failed]
    rfl
  rw [construct_create, Effect.bind_ok _ (createAnchorFile_ok opened), Effect.bind_error _ threw]

/-- The anchor file stays when no queue is made, and a stale queue does not. -/
theorem construct_of_msgget (opened : answers.fopen = some file) (resolved : answers.ftok = true)
    (failed : answers.msgget = false) :
    (construct answers path .create).run kernel =
      .error kMqOpenFailed (removeStale (kernel.createFile path file) (newKey kernel path file)) := by
  have threw : (openQueue answers true (newKey kernel path file)).run (kernel.createFile path file) =
      .error kMqOpenFailed
        (removeStale (kernel.createFile path file) (newKey kernel path file)) := by
    change (createQueue answers _).run (removeStale _ _) = _
    rw [createQueue, Effect.run_get_bind, failed, if_neg (by simp)]
    rfl
  have key : (resolveKey answers path).run (kernel.createFile path file) =
      .ok (newKey kernel path file) (kernel.createFile path file) :=
    resolveKey_ok resolved Kernel.files_createFile
  rw [construct_create, Effect.bind_ok _ (createAnchorFile_ok opened), Effect.bind_ok _ key,
    Effect.bind_error _ threw]

/-- A constructor that returns has seen no call fail. -/
theorem created_of_construct (opened : answers.fopen = some file)
    (built : (construct answers path .create).run kernel = .ok object after) :
    object = ⟨some kernel.nextId, path, true⟩ ∧ after = created kernel path file := by
  cases resolved : answers.ftok with
  | false =>
      rw [construct_of_ftok opened resolved] at built
      cases built
  | true =>
      cases got : answers.msgget with
      | false =>
          rw [construct_of_msgget opened resolved got] at built
          cases built
      | true =>
          rw [construct_ok opened resolved got] at built
          cases built
          exact ⟨rfl, rfl⟩

/-- The new queue is the only change to the queues when nothing else has its key. -/
theorem queues_created (kernel : Kernel) (path : String) (file : File) :
    (created kernel path file).queues =
      Function.update kernel.queues (newKey kernel path file) (some ⟨kernel.nextId, []⟩) := by
  change Function.update (removeStale _ _).queues _ (some ⟨(removeStale _ _).nextId, []⟩) = _
  rw [queues_removeStale, nextId_removeStale, Function.update_idem]
  rfl

theorem files_created (kernel : Kernel) (path : String) (file : File) :
    (created kernel path file).files = (kernel.createFile path file).files :=
  files_removeStale ..

/-- A live owner finds its queue under the key of its anchor file. -/
structure Owns (kernel : Kernel) (queue : MessageQueue) : Prop where
  owner : queue.owner = true
  anchored : ∃ file id packets, kernel.files queue.path = some file ∧ queue.queueId = some id ∧
    kernel.queues (ftok file kProjectId) = some ⟨id, packets⟩

/-- The kernel has one more queue, which is empty, and every queue of the live owners as it was. -/
structure LeavesAlone (live : Set MessageQueue) (before after : Kernel) (object : MessageQueue) :
    Prop where
  added : ∃ id key, object.queueId = some id ∧
    (∀ other queue, before.queues other = some queue → queue.id ≠ id) ∧
    after.queues = Function.update before.queues key (some ⟨id, []⟩)
  kept : ∀ other ∈ live, ∀ key queue, before.queues key = some queue →
    other.queueId = some queue.id → after.queues key = some queue

/-- A new owner finds its queue. -/
theorem owns_created (kernel : Kernel) (path : String) (file : File) :
    Owns (created kernel path file) ⟨some kernel.nextId, path, true⟩ where
  owner := rfl
  anchored := by
    refine ⟨kernel.anchorFile path file, kernel.nextId, [], ?_, rfl, ?_⟩
    · rw [files_created, Kernel.files_createFile]
    · rw [queues_created]
      exact Function.update_self ..

/-- An owner whose anchor file has another key still finds its queue. -/
theorem Owns.created {other : MessageQueue} (owns : Owns kernel other) (path : String) (file : File)
    (apart : ∀ anchor, kernel.files other.path = some anchor →
      ¬anchor.SameKeyBits (kernel.anchorFile path file)) :
    Owns (created kernel path file) other where
  owner := owns.owner
  anchored := by
    obtain ⟨anchor, id, packets, found, same, present⟩ := owns.anchored
    have distinct : ftok anchor kProjectId ≠ newKey kernel path file := fun equal =>
      apart anchor found (ftok_eq_iff.mp equal)
    refine ⟨anchor, id, packets, ?_, same, ?_⟩
    · rw [files_created]
      exact Kernel.files_createFile_of_exists found
    · rw [queues_created, Function.update_of_ne distinct]
      exact present

/-- The queue of a live owner is gone when its anchor file agrees with the new one. -/
theorem not_leavesAlone_of_sameKeyBits {live : Set MessageQueue} {other : MessageQueue}
    {anchor : File} (owns : Owns kernel other) (member : other ∈ live)
    (found : kernel.files other.path = some anchor)
    (agree : anchor.SameKeyBits (kernel.anchorFile path file)) :
    ¬LeavesAlone live kernel (created kernel path file) object := by
  intro leaves
  obtain ⟨_, id, packets, same, named, present⟩ := owns.anchored
  obtain rfl := Option.some.inj (found.symm.trans same)
  have kept := leaves.kept other member _ _ present named
  have key : ftok anchor kProjectId = newKey kernel path file := ftok_eq_iff.mpr agree
  rw [queues_created, key, Function.update_self] at kept
  exact kernel.id_ne_nextId present (congrArg KernelQueue.id (Option.some.inj kept)).symm

/-- No queue of a live owner is touched when no anchor file agrees with the new one. -/
theorem leavesAlone_of_apart {live : Set MessageQueue} (owns : ∀ other ∈ live, Owns kernel other)
    (apart : ∀ other ∈ live, ∀ anchor, kernel.files other.path = some anchor →
      ¬anchor.SameKeyBits (kernel.anchorFile path file)) :
    LeavesAlone live kernel (created kernel path file) ⟨some kernel.nextId, path, true⟩ where
  added := ⟨kernel.nextId, newKey kernel path file, rfl, fun _ _ => kernel.id_ne_nextId,
    queues_created ..⟩
  kept := by
    intro other member key queue found named
    obtain ⟨anchor, id, packets, at_path, same, present⟩ := (owns other member).anchored
    have one : queue.id = id := Option.some.inj (named.symm.trans same)
    have own : key = ftok anchor kProjectId := kernel.single found present one
    have distinct : key ≠ newKey kernel path file := by
      rw [own]
      exact fun equal => apart other member anchor at_path (ftok_eq_iff.mp equal)
    rw [queues_created, Function.update_of_ne distinct]
    exact found

/-- A new queue leaves the queues of the live owners alone exactly when none of their anchor files
agrees with the new one in the bits of a key. -/
theorem leavesAlone_iff {live : Set MessageQueue} (owns : ∀ other ∈ live, Owns kernel other)
    (opened : answers.fopen = some file)
    (built : (construct answers path .create).run kernel = .ok object after) :
    LeavesAlone live kernel after object ↔
      ∀ other ∈ live, ∀ anchor, kernel.files other.path = some anchor →
        ¬anchor.SameKeyBits (kernel.anchorFile path file) := by
  obtain ⟨rfl, rfl⟩ := created_of_construct opened built
  constructor
  · intro leaves other member anchor found agree
    exact not_leavesAlone_of_sameKeyBits (owns other member) member found agree leaves
  · exact leavesAlone_of_apart owns

/-- The kernel after the first queue of the first kitchen. -/
def ordersOnly : Kernel := created (.booted fun _ => none) (Child.orderPath 0) ⟨1, 1⟩

def orders : MessageQueue := ⟨some 0, Child.orderPath 0, true⟩

/-- The system gives the anchor file of the second queue this inode. -/
def secondAnswers (inode : Nat) : Answers := ⟨some ⟨1, inode⟩, true, true⟩

theorem owns_orders : ∀ other ∈ ({orders} : Set MessageQueue), Owns ordersOnly other := by
  rintro _ rfl
  exact owns_created ..

theorem files_ordersOnly {path : String} {file : File} (found : ordersOnly.files path = some file) :
    path = Child.orderPath 0 ∧ file = ⟨1, 1⟩ := by
  rw [ordersOnly, files_created] at found
  by_cases same : path = Child.orderPath 0
  · rw [same, Kernel.files_createFile] at found
    exact ⟨same, (Option.some.inj found).symm⟩
  · cases (Function.update_of_ne same ..).symm.trans found

theorem files_resultPath : ordersOnly.files (Child.resultPath 0) = none := by
  cases found : ordersOnly.files (Child.resultPath 0) with
  | none => rfl
  | some file => exact absurd (files_ordersOnly found).1.symm (Child.orderPath_ne_resultPath 0 0)

/-- The second queue of a kitchen leaves the first one alone when the inodes follow each other. -/
theorem leavesAlone_of_ordersOnly :
    LeavesAlone {orders} ordersOnly (created ordersOnly (Child.resultPath 0) ⟨1, 2⟩)
      ⟨some 1, Child.resultPath 0, true⟩ := by
  have built : (construct (secondAnswers 2) (Child.resultPath 0) .create).run ordersOnly =
      .ok ⟨some 1, Child.resultPath 0, true⟩ (created ordersOnly (Child.resultPath 0) ⟨1, 2⟩) :=
    construct_ok rfl rfl rfl
  refine (leavesAlone_iff owns_orders rfl built).mpr ?_
  rintro _ rfl anchor found ⟨inodes, _⟩
  obtain ⟨_, rfl⟩ := files_ordersOnly found
  rw [Kernel.anchorFile, files_resultPath] at inodes
  revert inodes
  decide

/-- The second queue of a kitchen replaces the first one when the inodes differ in a high bit. -/
theorem not_leavesAlone :
    ∃ (live : Set MessageQueue) (kernel after : Kernel) (answers : Answers) (path : String)
      (object : MessageQueue), (∀ other ∈ live, Owns kernel other ∧ other.path ≠ path) ∧
      kernel.files path = none ∧
      (∀ first second file other, after.files first = some file →
        after.files second = some other → first ≠ second → file.inode ≠ other.inode) ∧
      (construct answers path .create).run kernel = .ok object after ∧
      ¬LeavesAlone live kernel after object := by
  have here (path : String) (file : File)
      (found : (created ordersOnly (Child.resultPath 0) ⟨1, 65537⟩).files path = some file) :
      path = Child.orderPath 0 ∧ file.inode = 1 ∨
        path = Child.resultPath 0 ∧ file.inode = 65537 := by
    rw [files_created] at found
    by_cases same : path = Child.resultPath 0
    · rw [same, Kernel.files_createFile, Kernel.anchorFile, files_resultPath] at found
      obtain rfl := Option.some.inj found
      exact .inr ⟨same, rfl⟩
    · obtain ⟨first, rfl⟩ := files_ordersOnly ((Function.update_of_ne same ..).symm.trans found)
      exact .inl ⟨first, rfl⟩
  refine ⟨{orders}, ordersOnly, _, secondAnswers 65537, Child.resultPath 0, _, ?_,
    files_resultPath, ?_, construct_ok rfl rfl rfl, ?_⟩
  · intro other member
    refine ⟨owns_orders other member, ?_⟩
    rw [member]
    exact Child.orderPath_ne_resultPath 0 0
  · intro first second file other found also apart
    obtain ⟨left, inode⟩ | ⟨left, inode⟩ := here first file found <;>
      obtain ⟨right, same⟩ | ⟨right, same⟩ := here second other also <;>
      rw [inode, same]
    · exact absurd (left.trans right.symm) apart
    · decide
    · decide
    · exact absurd (left.trans right.symm) apart
  · have at_path : ordersOnly.files orders.path = some ⟨1, 1⟩ := by
      change (created _ _ _).files _ = _
      rw [files_created]
      exact Kernel.files_createFile
    refine not_leavesAlone_of_sameKeyBits (owns_orders orders rfl) rfl at_path ?_
    rw [Kernel.anchorFile, files_resultPath]
    exact ⟨by decide, rfl⟩

end MessageQueue

end Plazza
