import Plazza.Construction.Storage
import Plazza.Foundation.Custody
import Plazza.Proof.Resources.Creation

namespace Plazza
open Plazza.Foundation

/-- A thread that is not joined, a child that is not reaped or a created queue that is not
removed. -/
def Kernel.Live (kernel : Kernel) : Resource → Prop
  | .thread thread => thread ∈ kernel.threads
  | .child pid => pid ∈ kernel.children
  | .queue id => .queue id ∈ kernel.created ∧
      ∃ key queue, kernel.queues key = some queue ∧ queue.id = id

namespace Kernel

variable {kernel : Kernel} {resource : Resource}

theorem live_createThread (thread : Nat) :
    (kernel.createThread thread).Live resource ↔ resource = .thread thread ∨ kernel.Live resource := by
  cases resource with
  | thread other => simp [Live, createThread]
  | child pid => simp [Live, createThread]
  | queue id => simp [Live, createThread]

theorem live_fork (pid : Nat) :
    (kernel.fork pid).Live resource ↔ resource = .child pid ∨ kernel.Live resource := by
  cases resource with
  | thread thread => simp [Live, fork]
  | child other => simp [Live, fork]
  | queue id => simp [Live, fork]

/-- A queue under a free key is one more resource. -/
theorem live_createQueue {key : Nat} (free : kernel.queues key = none) :
    (kernel.createQueue key).Live resource ↔
      resource = .queue kernel.nextId ∨ kernel.Live resource := by
  cases resource with
  | thread thread => simp [Live, createQueue]
  | child pid => simp [Live, createQueue]
  | queue id =>
      constructor
      · rintro ⟨member, other, queue, found, rfl⟩
        change Function.update kernel.queues key (some ⟨kernel.nextId, []⟩) other = some queue at found
        by_cases same : other = key
        · rw [same, Function.update_self] at found
          cases found
          exact .inl rfl
        · rw [Function.update_of_ne same] at found
          have old : .queue queue.id ∈ kernel.created := by
            obtain before | last := List.mem_append.mp member
            · exact before
            · have next : queue.id = kernel.nextId := by simpa using last
              exact absurd next (kernel.id_ne_nextId found)
          exact .inr ⟨old, other, queue, found, rfl⟩
      · rintro (same | ⟨member, other, queue, found, rfl⟩)
        · cases same
          exact ⟨List.mem_append_right _ List.mem_cons_self, key, _, Function.update_self .., rfl⟩
        · have distinct : other ≠ key := by
            rintro rfl
            cases free.symm.trans found
          exact ⟨List.mem_append_left _ member, other, queue,
            (Function.update_of_ne distinct ..).trans found, rfl⟩

/-- The call that ends a resource. -/
def release (kernel : Kernel) : Resource → Kernel
  | .thread thread => kernel.joinThread thread
  | .child pid => kernel.waitpid pid
  | .queue id => kernel.removeQueue id

/-- A call ends one resource. -/
theorem live_release (ended : Resource) :
    (kernel.release ended).Live resource ↔ kernel.Live resource ∧ resource ≠ ended := by
  cases ended with
  | thread thread => cases resource <;> simp [Live, release, joinThread]
  | child pid => cases resource <;> simp [Live, release, waitpid]
  | queue id =>
      cases resource with
      | thread thread => simp [Live, release, removeQueue]
      | child pid => simp [Live, release, removeQueue]
      | queue other =>
          constructor
          · rintro ⟨created, key, queue, found, rfl⟩
            obtain ⟨present, distinct⟩ := withoutQueue_eq_some.mp found
            exact ⟨⟨created, key, queue, present, rfl⟩, by simpa using distinct⟩
          · rintro ⟨⟨created, key, queue, found, rfl⟩, distinct⟩
            exact ⟨created, key, queue,
              withoutQueue_eq_some.mpr ⟨found, by simpa using distinct⟩, rfl⟩

theorem created_release (ended : Resource) : (kernel.release ended).created = kernel.created := by
  cases ended <;> rfl

/-- The call is in the history when the resource is the program's. -/
theorem released_release {ended : Resource} (live : kernel.Live ended) :
    (kernel.release ended).released = kernel.released ++ [ended] := by
  cases ended with
  | thread thread => rfl
  | child pid => rfl
  | queue id => exact if_pos live.1

end Kernel

namespace MessageQueue

variable {kernel after : Kernel} {answers : Answers} {path : String} {file : File} {key : Nat}

/-- The removal of the queue of another program changes no resource and no history. -/
theorem removeStale_of_foreign
    (foreign : ∀ queue, kernel.queues key = some queue → .queue queue.id ∉ kernel.created) :
    (∀ resource, (removeStale kernel key).Live resource ↔ kernel.Live resource) ∧
      (removeStale kernel key).created = kernel.created ∧
      (removeStale kernel key).released = kernel.released := by
  unfold removeStale Kernel.findQueue
  cases found : kernel.queues key with
  | none => exact ⟨fun _ => Iff.rfl, rfl, rfl⟩
  | some stale =>
      have absent : .queue stale.id ∉ kernel.created := foreign stale found
      refine ⟨fun resource => ?_, rfl, if_neg absent⟩
      change (kernel.release (.queue stale.id)).Live resource ↔ _
      rw [Kernel.live_release]
      refine and_iff_left_of_imp fun live => ?_
      rintro rfl
      exact absent live.1

/-- A new owner makes one resource when no queue of the program has its key. -/
theorem created_of_foreign
    (foreign : ∀ queue, kernel.queues (newKey kernel path file) = some queue →
      .queue queue.id ∉ kernel.created) :
    (∀ resource, (created kernel path file).Live resource ↔
        resource = .queue kernel.nextId ∨ kernel.Live resource) ∧
      (created kernel path file).created = kernel.created ++ [.queue kernel.nextId] ∧
      (created kernel path file).released = kernel.released := by
  have stale : ∀ queue, (kernel.createFile path file).queues (newKey kernel path file) = some queue →
      .queue queue.id ∉ (kernel.createFile path file).created := foreign
  obtain ⟨live, made, gone⟩ := removeStale_of_foreign stale
  have free : (removeStale (kernel.createFile path file) (newKey kernel path file)).queues
      (newKey kernel path file) = none := by
    rw [queues_removeStale, Function.update_self]
  have next : (removeStale (kernel.createFile path file) (newKey kernel path file)).nextId =
      kernel.nextId := nextId_removeStale ..
  refine ⟨fun resource => ?_, ?_, gone⟩
  · rw [created, Kernel.live_createQueue free, next, live]
    rfl
  · change (removeStale _ _).created ++ [.queue (removeStale _ _).nextId] = _
    rw [made, next]
    rfl

theorem kernel_of_resolveKey (ran : (resolveKey answers path).run kernel = .ok key after) :
    after = kernel := by
  rw [resolveKey, Effect.run_get_bind] at ran
  cases resolved : answers.ftok <;> cases found : kernel.files path <;>
    rw [resolved, found] at ran <;> cases ran
  rfl

theorem kernel_of_openQueue {queueId : Nat}
    (ran : (openQueue answers false key).run kernel = .ok queueId after) : after = kernel := by
  change EStateM.run (get >>= _) kernel = _ at ran
  rw [Effect.run_get_bind] at ran
  cases got : answers.msgget <;> cases found : kernel.findQueue key <;>
    rw [got, found] at ran <;> cases ran
  rfl

/-- The statements of the constructor without ownership. -/
theorem construct_open_eq (answers : Answers) (path : String) :
    construct answers path .«open» = do
      let key ← resolveKey answers path
      let queueId ← openQueue answers false key
      return ⟨some queueId, path, false⟩ := rfl

/-- An object in the open mode owns nothing and changes nothing. -/
theorem construct_open {object : MessageQueue}
    (built : (construct answers path .«open»).run kernel = .ok object after) :
    object.owner = false ∧ after = kernel := by
  rw [construct_open_eq] at built
  obtain ⟨key, middle, resolved, rest⟩ := Effect.bind_eq_ok built
  obtain ⟨queueId, last, got, returned⟩ := Effect.bind_eq_ok rest
  cases returned
  exact ⟨rfl, (kernel_of_openQueue got).trans (kernel_of_resolveKey resolved)⟩

end MessageQueue

/-- The resource that the flags of an object make it release. -/
def Object.holding : Object → Option Resource
  | .thread self => if self.launched then some (.thread self.thread) else none
  | .process self =>
      match self.done, self.pid with
      | false, some pid => some (.child pid)
      | _, _ => none
  | .queue self =>
      match self.owner, self.queueId with
      | true, some queueId => some (.queue queueId)
      | _, _ => none

namespace Object

variable {kernel : Kernel} {resource : Resource}

/-- A destructor makes no call or the one call for the resource of its object. -/
theorem destroy_cases (object : Object) (kernel : Kernel) :
    object.holding = none ∧ object.destroy kernel = kernel ∨
      ∃ resource files, object.holding = some resource ∧
        object.destroy kernel = { kernel.release resource with files } := by
  cases object with
  | thread self =>
      obtain ⟨thread, _ | _⟩ := self
      · exact .inl ⟨rfl, rfl⟩
      · exact .inr ⟨.thread thread, kernel.files, rfl, rfl⟩
  | process self =>
      obtain ⟨_ | pid, _ | _⟩ := self
      · exact .inl ⟨rfl, rfl⟩
      · exact .inl ⟨rfl, rfl⟩
      · exact .inr ⟨.child pid, kernel.files, rfl, rfl⟩
      · exact .inl ⟨rfl, rfl⟩
  | queue self =>
      obtain ⟨_ | queueId, path, _ | _⟩ := self
      · exact .inl ⟨rfl, rfl⟩
      · exact .inl ⟨rfl, rfl⟩
      · exact .inl ⟨rfl, rfl⟩
      · exact .inr ⟨.queue queueId, _, rfl, rfl⟩

theorem live_destroy (object : Object) :
    (object.destroy kernel).Live resource ↔ kernel.Live resource ∧ object.holding ≠ some resource := by
  obtain ⟨free, same⟩ | ⟨ended, files, holds, gone⟩ := object.destroy_cases kernel
  · rw [same, free]
    simp
  · rw [gone, holds]
    change (kernel.release ended).Live resource ↔ _
    rw [Kernel.live_release, ne_comm]
    simp

theorem created_destroy (object : Object) : (object.destroy kernel).created = kernel.created := by
  obtain ⟨_, same⟩ | ⟨ended, files, _, gone⟩ := object.destroy_cases kernel
  · rw [same]
  · rw [gone]
    exact Kernel.created_release ended

theorem released_destroy {object : Object}
    (live : ∀ resource, object.holding = some resource → kernel.Live resource) :
    (object.destroy kernel).released = kernel.released ++ object.holding.toList := by
  obtain ⟨free, same⟩ | ⟨ended, files, holds, gone⟩ := object.destroy_cases kernel
  · rw [same, free]
    exact (List.append_nil _).symm
  · rw [gone, holds]
    exact Kernel.released_release (live ended holds)

/-- A move construction hands the resource over. -/
theorem holding_moveConstruct (other : Object) :
    other.moveConstruct.1.holding = other.holding ∧ other.moveConstruct.2.holding = none := by
  cases other <;> exact ⟨rfl, rfl⟩

/-- A move assignment destroys the target and hands the resource over. -/
theorem moveAssign_eq_some {self other new left : Object} {after : Kernel}
    (assigned : self.moveAssign kernel other = some (new, left, after)) :
    new.holding = other.holding ∧ left.holding = none ∧ after = self.destroy kernel := by
  cases self <;> cases other <;> cases assigned <;> exact ⟨rfl, rfl, rfl⟩

/-- A wait releases as a destructor does and leaves nothing to release. -/
theorem wait_eq (self : Process) (kernel : Kernel) :
    (process (self.wait kernel).1).holding = none ∧
      (self.wait kernel).2 = (process self).destroy kernel := by
  obtain ⟨_ | pid, _ | _⟩ := self <;> exact ⟨rfl, rfl⟩

end Object

namespace Storage

variable {Address : Type} [DecidableEq Address] {storage next : Storage Address}

/-- The objects as the holders of the resources. -/
def custody (storage : Storage Address) : Custody Address Resource where
  holds address := (storage.objects address).bind Object.holding
  outstanding := {resource | storage.kernel.Live resource}
  acquired := storage.kernel.created
  released := storage.kernel.released

/-- What a statement does to the custody. -/
def observe (storage : Storage Address) :
    Statement Address → Option (CustodyLabel Address Resource)
  | .thread target handle => some (.acquire target (.thread handle))
  | .process target pid => some (.acquire target (.child pid))
  | .queue target _ .create _ => some (.acquire target (.queue storage.kernel.nextId))
  | .queue _ _ .«open» _ => none
  | .moveConstruct target source => some (.replace target source)
  | .moveAssign target source => if target = source then none else some (.replace target source)
  | .wait target | .destroy target => some (.release target)

/-- The holders after an object is put at an address. -/
theorem holds_put (storage : Storage Address) (target : Address) (object : Option Object) :
    (storage.put target object).custody.holds =
      Function.update storage.custody.holds target (object.bind Object.holding) := by
  funext other
  change (Function.update storage.objects target object other).bind Object.holding = _
  by_cases same : other = target
  · rw [same, Function.update_self, Function.update_self]
  · rw [Function.update_of_ne same, Function.update_of_ne same]
    rfl

/-- A destructor releases the resource of its address. -/
theorem custody_release {target : Address} {self : Object} {object : Option Object}
    (accounted : storage.custody.Accounted) (found : storage.objects target = some self)
    (left : object.bind Object.holding = none) :
    ({ storage with kernel := self.destroy storage.kernel }.put target object).custody =
      storage.custody.release target := by
  have holds : storage.custody.holds target = self.holding := by
    change (storage.objects target).bind Object.holding = _
    rw [found]
    rfl
  ext : 1
  · rw [holds_put, left]
    rfl
  · ext resource
    change (self.destroy storage.kernel).Live resource ↔ _
    rw [Object.live_destroy, ← holds]
    rfl
  · exact Object.created_destroy self
  · change _ = _ ++ (storage.custody.holds target).toList
    rw [holds]
    exact Object.released_destroy fun resource same => accounted.kept (holds.trans same)

omit [DecidableEq Address] in
theorem holds_of_unused {target : Address} (unused : storage.objects target = none) :
    storage.custody.holds target = none := by
  change (storage.objects target).bind Object.holding = _
  rw [unused]
  rfl

/-- The address of a new object has nothing to release. -/
theorem custody_release_of_unused {target : Address} (unused : storage.objects target = none) :
    (storage.put target none).custody = storage.custody.release target := by
  have holds := holds_of_unused unused
  ext : 1
  · rw [holds_put]
    rfl
  · ext resource
    change storage.kernel.Live resource ↔ _ ∧ storage.custody.holds target ≠ some resource
    rw [holds]
    simp [custody]
  · rfl
  · change _ = _ ++ (storage.custody.holds target).toList
    rw [holds]
    exact (List.append_nil _).symm

/-- A move hands the resource of the source to the target, whose own one is released. -/
theorem custody_move {target source : Address} {other new left : Object} {kernel : Kernel}
    (distinct : target ≠ source) (found : storage.objects source = some other)
    (given : new.holding = other.holding) (empty : left.holding = none)
    (released : ({ storage with kernel }.put target none).custody =
      storage.custody.release target) :
    (({ storage with kernel }.put target (some new)).put source (some left)).custody =
      (storage.custody.release target).move target source := by
  have holds : (storage.custody.release target).holds source = new.holding := by
    change Function.update storage.custody.holds target none source = _
    rw [Function.update_of_ne distinct.symm, given]
    change (storage.objects source).bind Object.holding = _
    rw [found]
    rfl
  rw [Custody.move, holds, ← released]
  ext : 1
  · rw [holds_put, holds_put, holds_put, Option.bind_some, Option.bind_some, empty,
      Function.update_idem]
  · rfl
  · rfl
  · rfl

/-- A constructor that makes a resource hands it to its object. -/
theorem custody_acquire {target : Address} {object : Object} {kernel : Kernel} {resource : Resource}
    (holds : object.holding = some resource)
    (live : ∀ other, kernel.Live other ↔ other = resource ∨ storage.kernel.Live other)
    (created : kernel.created = storage.kernel.created ++ [resource])
    (released : kernel.released = storage.kernel.released) :
    ({ storage with kernel }.put target (some object)).custody =
      storage.custody.acquire target resource := by
  ext : 1
  · rw [holds_put, Option.bind_some, holds]
    rfl
  · ext other
    exact live other
  · exact created
  · exact released

/-- A constructor that returns puts its object at an address that was unused. -/
theorem construct_eq_some {target : Address} {body : Effect Kernel Object}
    (built : storage.construct target body = some next) :
    storage.objects target = none ∧ ∃ object kernel, body.run storage.kernel = .ok object kernel ∧
      next = { storage with kernel }.put target (some object) := by
  unfold construct at built
  split at built
  · rename_i object kernel unused ran
    exact ⟨unused, object, kernel, ran, (Option.some.inj built).symm⟩
  · cases built

/-- The custody takes an observed step that it allows, or stays when nothing is observed. -/
def Traced (storage : Storage Address) (statement : Statement Address) (next : Storage Address) :
    Prop :=
  Custody.machine.Follows storage.custody (storage.observe statement) next.custody ∧
    ∀ event, storage.observe statement = some event → Custody.Allowed storage.custody event

theorem traced_thread {target : Address} {handle : Nat}
    (taken : storage.step (.thread target handle) = some next) :
    storage.Traced (.thread target handle) next := by
  rw [step] at taken
  split at taken
  · cases taken
  · rename_i unchosen
    obtain ⟨unused, object, kernel, ran, rfl⟩ := construct_eq_some taken
    cases ran
    constructor
    · exact congrArg some (custody_acquire rfl (fun _ => Kernel.live_createThread handle) rfl rfl).symm
    · rintro _ ⟨⟩
      exact ⟨holds_of_unused unused, unchosen⟩

theorem traced_process {target : Address} {pid : Nat}
    (taken : storage.step (.process target pid) = some next) :
    storage.Traced (.process target pid) next := by
  rw [step] at taken
  split at taken
  · cases taken
  · rename_i unchosen
    obtain ⟨unused, object, kernel, ran, rfl⟩ := construct_eq_some taken
    cases ran
    constructor
    · exact congrArg some (custody_acquire rfl (fun _ => Kernel.live_fork pid) rfl rfl).symm
    · rintro _ ⟨⟩
      exact ⟨holds_of_unused unused, unchosen⟩

theorem traced_create {target : Address} {path : String} {file : File}
    (distinct : storage.DistinctKeys (.queue target path .create file))
    (taken : storage.step (.queue target path .create file) = some next) :
    storage.Traced (.queue target path .create file) next := by
  obtain ⟨unused, object, kernel, ran, rfl⟩ := construct_eq_some taken
  obtain ⟨queue, built, rfl⟩ := Effect.map_eq_ok ran
  obtain ⟨rfl, rfl⟩ := MessageQueue.created_of_construct rfl built
  obtain ⟨live, created, released⟩ := MessageQueue.created_of_foreign distinct
  constructor
  · exact congrArg some (custody_acquire rfl live created released).symm
  · rintro _ ⟨⟩
    refine ⟨holds_of_unused unused, ?_⟩
    rintro ⟨_, key, queue, found, same⟩
    exact storage.kernel.id_ne_nextId found same

/-- An object in the open mode holds nothing. -/
theorem holds_open {target : Address} {path : String} {file : File}
    (taken : storage.step (.queue target path .«open» file) = some next) :
    next.custody = storage.custody := by
  obtain ⟨unused, object, kernel, ran, rfl⟩ := construct_eq_some taken
  obtain ⟨queue, built, rfl⟩ := Effect.map_eq_ok ran
  obtain ⟨visitor, rfl⟩ := MessageQueue.construct_open built
  have empty : (Object.queue queue).holding = none := by
    rw [Object.holding, visitor]
  ext : 1
  · rw [holds_put, Option.bind_some, empty, ← holds_of_unused unused]
    exact Function.update_eq_self ..
  · rfl
  · rfl
  · rfl

theorem traced_moveConstruct {target source : Address}
    (taken : storage.step (.moveConstruct target source) = some next) :
    storage.Traced (.moveConstruct target source) next := by
  rw [step] at taken
  split at taken
  · rename_i other unused found
    cases taken
    have distinct : target ≠ source := by
      rintro rfl
      cases unused.symm.trans found
    obtain ⟨given, empty⟩ := other.holding_moveConstruct
    constructor
    · exact congrArg some
        (custody_move distinct found given empty (custody_release_of_unused unused)).symm
    · rintro _ ⟨⟩
      exact distinct
  · cases taken

theorem traced_moveAssign {target source : Address} (accounted : storage.custody.Accounted)
    (taken : storage.step (.moveAssign target source) = some next) :
    storage.Traced (.moveAssign target source) next := by
  rw [step] at taken
  split at taken
  · rename_i self other used found
    by_cases same : target = source
    · rw [if_pos same] at taken
      cases taken
      have silent : storage.observe (.moveAssign target source) = none := if_pos same
      rw [Traced, silent]
      exact ⟨rfl, fun _ observed => by cases observed⟩
    · rw [if_neg same] at taken
      obtain ⟨⟨new, left, kernel⟩, assigned, rfl⟩ := Option.map_eq_some_iff.mp taken
      obtain ⟨given, empty, rfl⟩ := Object.moveAssign_eq_some assigned
      have visible : storage.observe (.moveAssign target source) = some (.replace target source) :=
        if_neg same
      rw [Traced, visible]
      constructor
      · exact congrArg some
          (custody_move same found given empty (custody_release accounted used rfl)).symm
      · rintro _ ⟨⟩
        exact same
  · cases taken

theorem traced_wait {target : Address} (accounted : storage.custody.Accounted)
    (taken : storage.step (.wait target) = some next) : storage.Traced (.wait target) next := by
  rw [step] at taken
  split at taken
  · rename_i self found
    cases taken
    obtain ⟨empty, same⟩ := Object.wait_eq self storage.kernel
    have left : (some (Object.process (self.wait storage.kernel).1)).bind Object.holding = none :=
      empty
    rw [same]
    constructor
    · exact congrArg some (custody_release accounted found left).symm
    · rintro _ ⟨⟩
      trivial
  · cases taken

theorem traced_destroy {target : Address} (accounted : storage.custody.Accounted)
    (taken : storage.step (.destroy target) = some next) :
    storage.Traced (.destroy target) next := by
  rw [step] at taken
  split at taken
  · rename_i self found
    cases taken
    constructor
    · exact congrArg some (custody_release accounted found rfl).symm
    · rintro _ ⟨⟩
      trivial
  · cases taken

/-- Every statement of a program with distinct keys is a step of its custody. -/
theorem traced {statement : Statement Address} (accounted : storage.custody.Accounted)
    (distinct : storage.DistinctKeys statement) (taken : storage.step statement = some next) :
    storage.Traced statement next := by
  cases statement with
  | thread target handle => exact traced_thread taken
  | process target pid => exact traced_process taken
  | queue target path mode file =>
      cases mode with
      | create => exact traced_create distinct taken
      | «open» => exact ⟨holds_open taken, fun _ observed => by cases observed⟩
  | moveConstruct target source => exact traced_moveConstruct taken
  | moveAssign target source => exact traced_moveAssign accounted taken
  | wait target => exact traced_wait accounted taken
  | destroy target => exact traced_destroy accounted taken

/-- The custody of a program with distinct keys takes allowed steps only. -/
theorem custody_of_reachable {kernel : Kernel}
    (reached : (machine Address kernel).ReachableUnder DistinctKeys storage) :
    Custody.machine.ReachableUnder Custody.Allowed storage.custody := by
  have start : (machine Address kernel).initial.custody = Custody.machine.initial := by
    ext : 1
    · rfl
    · ext resource
      cases resource <;> simp [custody, machine, Custody.machine, Kernel.Live]
    · rfl
    · rfl
  exact reached.follow start fun before distinct taken =>
    traced (Custody.accounted_of_reachable before) distinct taken

/-- The resources whose owner a statement destroys, overwrites or waits on. -/
def ended (storage : Storage Address) : Statement Address → List Resource
  | .wait target | .destroy target => (storage.custody.holds target).toList
  | .moveAssign target source =>
      if target = source then [] else (storage.custody.holds target).toList
  | _ => []

/-- A statement ends what its step gives back. -/
theorem ended_of_observe {statement : Statement Address} {event : CustodyLabel Address Resource}
    (observed : storage.observe statement = some event)
    (taken : storage.step statement = some next) :
    storage.ended statement = storage.custody.spent event := by
  cases statement with
  | thread target handle | process target pid =>
      cases observed
      rfl
  | queue target path mode file =>
      cases mode <;> cases observed
      rfl
  | moveConstruct target source =>
      cases observed
      rw [step] at taken
      split at taken
      · rename_i other unused found
        change [] = (storage.custody.holds target).toList
        rw [holds_of_unused unused]
        rfl
      · cases taken
  | moveAssign target source =>
      rw [observe] at observed
      split at observed
      · cases observed
      · rename_i distinct
        cases observed
        exact if_neg distinct
  | wait target | destroy target =>
      cases observed
      rfl

/-- A statement without an observed step ends nothing. -/
theorem ended_of_silent {statement : Statement Address}
    (unobserved : storage.observe statement = none) : storage.ended statement = [] := by
  cases statement with
  | thread target handle | process target pid => cases unobserved
  | queue target path mode file => rfl
  | moveConstruct target source | wait target | destroy target => cases unobserved
  | moveAssign target source =>
      rw [observe] at unobserved
      split at unobserved
      · exact if_pos ‹_›
      · cases unobserved

/-- Each resource of the program has one owner and one call to come, or had its call. -/
structure Owned (storage : Storage Address) : Prop where
  owner : ∀ resource, storage.kernel.Live resource →
    ∃! address, storage.custody.holds address = some resource
  live : ∀ address resource, storage.custody.holds address = some resource →
    storage.kernel.Live resource
  due : ∀ resource, storage.kernel.Live resource →
    storage.kernel.created.count resource = storage.kernel.released.count resource + 1
  settled : ∀ resource, ¬storage.kernel.Live resource →
    storage.kernel.created.count resource = storage.kernel.released.count resource

/-- A statement releases the resources whose owner it destroys, overwrites or waits on. What it
moves from and what it makes in the open mode owns nothing. -/
structure Releases (storage : Storage Address) (statement : Statement Address)
    (next : Storage Address) : Prop where
  calls : next.kernel.released = storage.kernel.released ++ storage.ended statement
  ends : ∀ resource, storage.kernel.Live resource →
    (next.kernel.Live resource ↔ resource ∉ storage.ended statement)
  movedFrom : ∀ target source, statement = .moveConstruct target source ∨
    statement = .moveAssign target source ∧ target ≠ source → next.custody.holds source = none
  openMode : ∀ target path file, statement = .queue target path .«open» file →
    next.custody.holds target = none

theorem released_of_traced {statement : Statement Address}
    (traced : storage.Traced statement next) (taken : storage.step statement = some next) :
    next.kernel.released = storage.kernel.released ++ storage.ended statement := by
  obtain ⟨follows, _⟩ := traced
  cases observed : storage.observe statement with
  | none =>
      rw [observed] at follows
      rw [ended_of_silent observed, List.append_nil]
      exact congrArg Custody.released follows
  | some event =>
      rw [observed] at follows
      rw [ended_of_observe observed taken]
      exact Custody.released_step follows

theorem live_of_traced {statement : Statement Address} {resource : Resource}
    (traced : storage.Traced statement next) (taken : storage.step statement = some next)
    (live : storage.kernel.Live resource) :
    next.kernel.Live resource ↔ resource ∉ storage.ended statement := by
  obtain ⟨follows, _⟩ := traced
  cases observed : storage.observe statement with
  | none =>
      rw [observed] at follows
      rw [ended_of_silent observed]
      have same : next.custody.outstanding = storage.custody.outstanding :=
        congrArg Custody.outstanding follows
      have kept : resource ∈ next.custody.outstanding := same ▸ live
      exact iff_of_true kept List.not_mem_nil
  | some event =>
      rw [observed] at follows
      rw [ended_of_observe observed taken]
      exact Custody.outstanding_step live follows

theorem releases_of_traced {statement : Statement Address}
    (traced : storage.Traced statement next) (taken : storage.step statement = some next) :
    storage.Releases statement next where
  calls := released_of_traced traced taken
  ends _ := live_of_traced traced taken
  movedFrom := by
    rintro target source (rfl | ⟨rfl, distinct⟩)
    · exact Custody.holds_source traced.1
    · have observed : storage.observe (.moveAssign target source) = some (.replace target source) :=
        if_neg distinct
      have follows := traced.1
      rw [observed] at follows
      exact Custody.holds_source follows
  openMode := by
    rintro target path file rfl
    rw [holds_open taken]
    exact holds_of_unused (construct_eq_some taken).1

/-- In every program with distinct keys and no failing call each unjoined thread, unreaped child and
unremoved queue has one owner, and it ends once, when a statement destroys, overwrites or waits on
that owner. -/
theorem owned_of_reachable {kernel : Kernel}
    (reached : (machine Address kernel).ReachableUnder DistinctKeys storage) :
    storage.Owned ∧ ∀ statement next, storage.DistinctKeys statement →
      storage.step statement = some next → storage.Releases statement next := by
  have accounted := Custody.accounted_of_reachable (custody_of_reachable reached)
  constructor
  · exact ⟨fun _ => accounted.existsUnique, fun _ _ => accounted.kept, fun _ => accounted.due,
      fun _ => accounted.settled⟩
  · intro statement next distinct taken
    exact releases_of_traced (traced accounted distinct taken) taken

/-- A thread whose object has moved and a queue have one owner each. -/
theorem owned_of_moved :
    ∃ storage : Storage Nat, storage.kernel.Live (.thread 5) ∧
      storage.objects 0 = some (.thread ⟨5, false⟩) ∧
      storage.objects 2 = some (.queue ⟨some 0, "order_queue_0", true⟩) ∧ storage.Owned := by
  let kernel := Kernel.booted fun _ => none
  have made : (machine Nat kernel).ReachableUnder DistinctKeys _ :=
    @Machine.ReachableUnder.step _ _ _ _ _ _ (.thread 0 5) .initial trivial rfl
  have moved : (machine Nat kernel).ReachableUnder DistinctKeys _ :=
    @Machine.ReachableUnder.step _ _ _ _ _ _ (.moveConstruct 1 0) made trivial rfl
  have opened : (machine Nat kernel).ReachableUnder DistinctKeys _ :=
    @Machine.ReachableUnder.step _ _ _ _ _ _ (.queue 2 "order_queue_0" .create ⟨1, 1⟩) moved
      (fun _ found => by cases found) rfl
  exact ⟨_, List.mem_cons_self, rfl, rfl, (owned_of_reachable opened).1⟩

end Storage

end Plazza
