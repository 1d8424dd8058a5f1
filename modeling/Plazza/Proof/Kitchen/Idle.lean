import Plazza.Proof.Kitchen.Alone

namespace Plazza
open Plazza.Foundation

namespace ThreadPool

variable {nCooks : Nat}

/-- Only `addPizza` accepts pizzas. -/
theorem accepted_workerLoop {pool next : ThreadPool nCooks} {index : Fin nCooks}
    (worked : pool.workerLoop index = some next) : next.accepted = pool.accepted := by
  cases step_of_workerLoop worked <;> rfl

/-- The workers of an idle pool leave it idle. -/
theorem Invariant.idle_workerLoop {pool next : ThreadPool nCooks} (inv : pool.Invariant)
    {index : Fin nCooks} (worked : pool.workerLoop index = some next) (idle : pool.load = 0) :
    next.load = 0 := by
  cases step_of_workerLoop worked
  case finish pizza stands =>
    have held : (pool.threads index).held = some pizza := by
      rw [stands]
      rfl
    have positive := inv.load_pos held
    omega
  all_goals exact idle

end ThreadPool

namespace KitchenWorker

variable {nCooks : Nat} {limit : Option Nat} {now : Nat} {site next : Site (KitchenWorker nCooks)}
  {label : Label nCooks}

/-- A step accepts a pizza, or accepts none and leaves an idle pool idle. -/
theorem Transition.pool_cases (valid : site.process.Valid)
    (moved : Transition limit now site label next) :
    next.process.control = .accepting ∨
      next.process.pool.accepted = site.process.pool.accepted ∧
        (site.process.pool.load = 0 → next.process.pool.load = 0) := by
  cases moved with
  | advance wake process moves =>
      rw [moves.points.1]
      exact .inr ⟨rfl, id⟩
  | accept => exact .inl rfl
  | cook index pool worked | consume index _ pool _ _ worked | serve index _ pool _ worked =>
      exact .inr ⟨ThreadPool.accepted_workerLoop worked, valid.pool.idle_workerLoop worked⟩
  | wakeSpuriously index pool woken =>
      obtain ⟨_, rfl⟩ := waiting_of_wakeSpuriously woken
      exact .inr ⟨rfl, id⟩
  | pollEmpty | pollShutdown | poll | refuse | request | ignore | sendFull | respond | stop | notify
  | join | close | regenerate => exact .inr ⟨rfl, id⟩

end KitchenWorker

namespace Kitchen

variable {nCooks : Nat} {limit : Option Nat}

/-- The active time is the last activity and no activity is later. The moments after it accept no
pizza, and those after the first check that has found the pool idle since then have no load. -/
structure Timed (kitchen : Kitchen nCooks) (watch : Watch) : Prop where
  clock : ∀ moment ∈ watch.moments, moment.time ≤ kitchen.now
  active : kitchen.site.process.lastActiveTime ≤ kitchen.now
  past : ∀ time ∈ watch.activities, time ≤ kitchen.site.process.lastActiveTime
  last : kitchen.site.process.control = .starting ∨
    watch.activities.getLast? = some kitchen.site.process.lastActiveTime
  sampled : ∀ running sampled, kitchen.site.process.control = .checking running sampled →
    kitchen.site.process.lastActiveTime ≤ sampled ∧ sampled ≤ kitchen.now
  late : kitchen.site.process.control ≠ .accepting → ∀ moment ∈ watch.moments,
    kitchen.site.process.lastActiveTime < moment.time →
      moment.accepted = kitchen.site.process.pool.accepted
  idle : kitchen.site.process.control ≠ .accepting → ∀ since ∈ watch.idleSince,
    kitchen.site.process.pool.load = 0 ∧
      ∀ moment ∈ watch.moments, since < moment.time → moment.load = 0

/-- A step that records no activity keeps the history timed. -/
theorem Timed.keep {kitchen next : Kitchen nCooks} {watch : Watch} {since : Option Nat}
    (timed : kitchen.Timed watch) (later : kitchen.now ≤ next.now)
    (active : next.site.process.lastActiveTime = kitchen.site.process.lastActiveTime)
    (starts : kitchen.site.process.control = .starting → next.site.process.control = .starting)
    (sampled : ∀ running sampled, next.site.process.control = .checking running sampled →
      next.site.process.lastActiveTime ≤ sampled ∧ sampled ≤ next.now)
    (same : next.site.process.control ≠ .accepting → kitchen.site.process.control ≠ .accepting ∧
      next.site.process.pool.accepted = kitchen.site.process.pool.accepted ∧
        ∀ time ∈ since, next.site.process.pool.load = 0 ∧
          ∀ moment ∈ watch.moments, time < moment.time → moment.load = 0) :
    next.Timed ⟨watch.moments ++ [next.moment], watch.activities, since⟩ where
  clock moment member := by
    rcases List.mem_append.mp member with before | last
    · exact (timed.clock moment before).trans later
    · obtain rfl := List.mem_singleton.mp last
      exact le_rfl
  active := active ▸ timed.active.trans later
  past := active ▸ timed.past
  last := active ▸ timed.last.imp_left starts
  sampled := sampled
  late accepts moment member after := by
    obtain ⟨before, accepted, _⟩ := same accepts
    rcases List.mem_append.mp member with earlier | last
    · rw [accepted]
      rw [active] at after
      exact timed.late before moment earlier after
    · obtain rfl := List.mem_singleton.mp last
      rfl
  idle accepts time known := by
    obtain ⟨_, _, idle⟩ := same accepts
    obtain ⟨empty, moments⟩ := idle time known
    refine ⟨empty, fun moment member after => ?_⟩
    rcases List.mem_append.mp member with earlier | last
    · exact moments moment earlier after
    · obtain rfl := List.mem_singleton.mp last
      exact empty

/-- An activity starts the history anew. -/
theorem Timed.record {kitchen next : Kitchen nCooks} {watch : Watch} (timed : kitchen.Timed watch)
    (clock : next.now = kitchen.now) (active : next.site.process.lastActiveTime ≤ next.now)
    (grows : kitchen.site.process.lastActiveTime ≤ next.site.process.lastActiveTime)
    (sleeps : ∀ running sampled, next.site.process.control ≠ .checking running sampled)
    (late : ∀ moment ∈ watch.moments, next.site.process.lastActiveTime < moment.time →
      moment.accepted = next.site.process.pool.accepted) :
    next.Timed ⟨watch.moments ++ [next.moment],
      watch.activities ++ [next.site.process.lastActiveTime], none⟩ where
  clock moment member := by
    rcases List.mem_append.mp member with before | last
    · exact clock ▸ timed.clock moment before
    · obtain rfl := List.mem_singleton.mp last
      exact le_rfl
  active := active
  past time member := by
    rcases List.mem_append.mp member with before | last
    · exact (timed.past time before).trans grows
    · exact (List.mem_singleton.mp last).le
  last := .inr (List.getLast?_concat ..)
  sampled running sampled control := absurd control (sleeps running sampled)
  late _ moment member after := by
    rcases List.mem_append.mp member with earlier | last
    · exact late moment earlier after
    · obtain rfl := List.mem_singleton.mp last
      rfl
  idle _ _ known := by cases known

/-- A step of a cook or of the stock keeps the history timed. -/
theorem Timed.work {kitchen : Kitchen nCooks} {watch : Watch} (timed : kitchen.Timed watch)
    (valid : kitchen.site.process.Valid) {site : Site (KitchenWorker nCooks)}
    {label : KitchenWorker.Label nCooks}
    (moved : KitchenWorker.Transition limit kitchen.now kitchen.site label site)
    (control : site.process.control = kitchen.site.process.control)
    (active : site.process.lastActiveTime = kitchen.site.process.lastActiveTime)
    (plain : kitchen.idleSince watch.idleSince (.process label) = watch.idleSince)
    (rests : kitchen.activity (.process label) = none) :
    Timed { kitchen with site } (kitchen.watch (.process label) { kitchen with site } watch) := by
  rw [Kitchen.watch, plain, rests, Option.toList_none, List.append_nil]
  refine timed.keep le_rfl active (fun starts => control.trans starts) ?_ ?_
  · intro running sampled checks
    rw [control] at checks
    exact active ▸ timed.sampled running sampled checks
  · intro accepts
    rcases moved.pool_cases valid with accepting | ⟨accepted, idle⟩
    · exact absurd accepting accepts
    · have before := control ▸ accepts
      refine ⟨before, accepted, fun since known => ?_⟩
      obtain ⟨empty, moments⟩ := timed.idle before since known
      exact ⟨idle empty, moments⟩

/-- A step of the main thread outside of its checks keeps the history timed. -/
theorem Timed.pass {kitchen : Kitchen nCooks} {watch : Watch} (timed : kitchen.Timed watch)
    (valid : kitchen.site.process.Valid) {site : Site (KitchenWorker nCooks)}
    {wake : Fin nCooks → Bool}
    (moved : KitchenWorker.Transition limit kitchen.now kitchen.site (.main wake) site)
    (active : site.process.lastActiveTime = kitchen.site.process.lastActiveTime)
    (accepts : kitchen.site.process.control ≠ .accepting)
    (started : kitchen.site.process.control ≠ .starting)
    (plain : kitchen.idleSince watch.idleSince (.process (.main wake)) = watch.idleSince)
    (rests : kitchen.activity (.process (.main wake)) = none)
    (checks : ∀ running sampled, site.process.control = .checking running sampled →
      sampled = kitchen.now) :
    Timed { kitchen with site } (kitchen.watch (.process (.main wake)) { kitchen with site } watch) := by
  rw [Kitchen.watch, plain, rests, Option.toList_none, List.append_nil]
  refine timed.keep le_rfl active (fun starts => absurd starts started) ?_ ?_
  · intro running sampled control
    obtain rfl := checks running sampled control
    exact ⟨active.trans_le timed.active, le_rfl⟩
  · intro later
    rcases moved.pool_cases valid with accepting | ⟨accepted, idle⟩
    · exact absurd accepting later
    · refine ⟨accepts, accepted, fun since known => ?_⟩
      obtain ⟨empty, moments⟩ := timed.idle accepts since known
      exact ⟨idle empty, moments⟩

/-- A check that finds the pool idle remembers the first such check. -/
theorem Timed.check {kitchen : Kitchen nCooks} {watch : Watch} (timed : kitchen.Timed watch)
    {running stays : Bool} {sampled : Nat} {wake : Fin nCooks → Bool}
    (control : kitchen.site.process.control = .checking running sampled)
    (idle : kitchen.site.process.isIdle = true) {site : Site (KitchenWorker nCooks)}
    (sleeps : site = { kitchen.site with
      process := kitchen.site.process.goto (.sleeping stays (kitchen.now + kPollInterval)) }) :
    Timed { kitchen with site } (kitchen.watch (.process (.main wake)) { kitchen with site } watch) := by
  subst sleeps
  have empty : kitchen.site.process.pool.load = 0 := of_decide_eq_true idle
  have since : kitchen.idleSince watch.idleSince (.process (.main wake)) =
      some (watch.idleSince.getD kitchen.now) := by
    simp only [Kitchen.idleSince, control, idle, if_true]
  have rests : kitchen.activity (.process (.main wake)) = none := by
    simp only [Kitchen.activity, control, idle, if_true]
  rw [Kitchen.watch, since, rests, Option.toList_none, List.append_nil]
  refine timed.keep le_rfl rfl (fun starts => by simp [control] at starts) nofun fun _ => ⟨by simp [control], rfl, ?_⟩
  intro time known
  obtain rfl := Option.some.inj known
  refine ⟨empty, fun moment member after => ?_⟩
  cases first : watch.idleSince with
  | none =>
      rw [first, Option.getD_none] at after
      exact absurd (timed.clock moment member) (Nat.not_le.mpr after)
  | some earlier =>
      rw [first, Option.getD_some] at after
      exact (timed.idle (by simp [control]) earlier first).2 moment member after

/-- Every step of the process keeps the history timed. -/
theorem Timed.process {kitchen : Kitchen nCooks} {watch : Watch} (timed : kitchen.Timed watch)
    (valid : kitchen.site.process.Valid) {site : Site (KitchenWorker nCooks)}
    {label : KitchenWorker.Label nCooks}
    (moved : KitchenWorker.Transition limit kitchen.now kitchen.site label site) :
    Timed { kitchen with site } (kitchen.watch (.process label) { kitchen with site } watch) := by
  have elapsed : ∀ moment ∈ watch.moments, ¬kitchen.now < moment.time :=
    fun moment member => Nat.not_lt.mpr (timed.clock moment member)
  have taken := moved
  cases moved with
  | advance wake process moves =>
      cases moves with
      | start control | accepted control =>
          rw [Kitchen.watch, Kitchen.idleSince, Kitchen.activity, control]
          exact timed.record rfl le_rfl timed.active nofun fun moment member after =>
            absurd after (elapsed moment member)
      | timeOut running sampled control idle elapsed => exact timed.check control idle rfl
      | idle running sampled control idle early => exact timed.check control idle rfl
      | busy running sampled control busy =>
          obtain ⟨earlier, passed⟩ := timed.sampled running sampled control
          rw [Kitchen.watch, Kitchen.idleSince, Kitchen.activity, control]
          simp only [busy]
          exact timed.record rfl passed earlier nofun fun moment member after =>
            timed.late (by simp [control]) moment member (lt_of_le_of_lt earlier after)
      | sample running control =>
          refine timed.pass valid taken rfl (by simp [control]) (by simp [control])
            (by simp [idleSince, control]) (by simp [activity, control]) ?_
          intro other sampled same
          cases same
          rfl
      | wake running wakeTime control =>
          refine timed.pass valid taken rfl (by simp [control]) (by simp [control])
            (by simp [idleSince, control]) (by simp [activity, control]) ?_
          cases running <;> nofun
      | readStock _ control | readCook _ _ _ control | build _ _ _ _ control | responded control =>
          exact timed.pass valid taken rfl (by simp [control]) (by simp [control])
            (by simp [idleSince, control]) (by simp [activity, control]) nofun
  | pollEmpty _ control | pollShutdown _ _ _ control | poll _ _ _ control
  | accept _ _ _ _ control | refuse _ _ control | request _ _ control | ignore _ _ control
  | sendFull _ _ control | respond _ _ _ control | stop _ control | notify _ control
  | join _ control | close _ control =>
      exact timed.pass valid taken rfl (by simp [control]) (by simp [control])
        (by simp [idleSince, control]) (by simp [activity, control]) nofun
  | cook | consume | serve | wakeSpuriously | regenerate =>
      exact timed.work valid taken rfl rfl rfl rfl

/-- Every run keeps its history timed. -/
theorem timed_of_reachable {state : Kitchen nCooks × Watch}
    (reached : (watched nCooks limit).Reachable state) : state.1.Timed state.2 := by
  refine reached.invariant (motive := fun state => state.1.Timed state.2) ?_ ?_
  · refine ⟨fun moment member => ?_, le_rfl, nofun, .inl rfl, nofun, fun _ moment member _ => ?_, nofun⟩
    · obtain rfl := List.mem_singleton.mp member
      exact le_rfl
    · obtain rfl := List.mem_singleton.mp member
      rfl
  · intro state next label before timed _ taken
    obtain ⟨stepped, recorded⟩ := Machine.withHistory_step.mp taken
    have valid := valid_of_reachable before.forget
    rcases step_cases stepped with ⟨moved, site, rfl, same, work⟩ | ⟨other, same, later⟩
    · rw [recorded, same]
      exact timed.process valid work
    · have plain : state.1.idleSince state.2.idleSince label = state.2.idleSince := by
        cases label with
        | process moved => exact absurd rfl (other moved)
        | deliver | collect | elapse => rfl
      have rests : state.1.activity label = none := by
        cases label with
        | process moved => exact absurd rfl (other moved)
        | deliver | collect | elapse => rfl
      rw [recorded, Kitchen.watch, plain, rests, Option.toList_none, List.append_nil]
      refine timed.keep later (by rw [same]) (by rw [same]; exact id) ?_ ?_
      · intro running sampled control
        rw [same] at control ⊢
        obtain ⟨earlier, passed⟩ := timed.sampled running sampled control
        exact ⟨earlier, passed.trans later⟩
      · rw [same]
        exact fun accepts => ⟨accepts, rfl, timed.idle accepts⟩

/-- A kitchen that closes by timeout has been active and none of its activities lies within the timeout.
Its pool has accepted no pizza within the timeout, and it has been idle since the first check after the
last activity. -/
structure Rests (kitchen : Kitchen nCooks) (watch : Watch) (now : Nat) : Prop where
  begun : watch.activities.getLast? = some kitchen.site.process.lastActiveTime
  recorded : ∀ time ∈ watch.activities, time + kIdleTimeout ≤ now
  accepted : ∀ moment ∈ watch.moments, now < moment.time + kIdleTimeout →
    moment.accepted = kitchen.site.process.pool.accepted
  idle : ∀ moment ∈ watch.moments, watch.idleSince.getD kitchen.now < moment.time →
    moment.load = 0

/-- The loop ends by timeout only when the kitchen rests. -/
theorem rests_of_reachable {state : Kitchen nCooks × Watch}
    (reached : (watched nCooks limit).Reachable state) {now : Nat} (ends : state.1.TimesOut now) :
    state.1.Rests state.2 now := by
  obtain ⟨reads, idle, elapsed⟩ := ends
  have timed := timed_of_reachable reached
  have apart : state.1.site.process.control ≠ .accepting := by
    intro control
    rw [Kitchen.sampled, control] at reads
    cases reads
  have started : state.1.site.process.control ≠ .starting := by
    intro control
    rw [Kitchen.sampled, control] at reads
    cases reads
  refine ⟨timed.last.resolve_left started, fun time member => ?_, fun moment member recent => ?_,
    fun moment member after => ?_⟩
  · have past := timed.past time member
    omega
  · exact timed.late apart moment member (by omega)
  · cases first : state.2.idleSince with
    | none =>
        rw [first, Option.getD_none] at after
        exact absurd (timed.clock moment member) (Nat.not_le.mpr after)
    | some since =>
        rw [first, Option.getD_some] at after
        exact (timed.idle apart since first).2 moment member after

/-- The loop starts at once, accepts a pizza after a second and finds the pool busy after two, and then
the cook serves the pizza. -/
def servedRun : List (KitchenLabel 1) :=
  let main (count : Nat) : List (KitchenLabel 1) := List.replicate count (.process (.main fun _ => false))
  .deliver { type := .pizza, pizza := pack ⟨.margarita, .s⟩ } :: main 1 ++ .elapse (10 ^ 9) :: main 3 ++
    .elapse (10 ^ 9) :: main 2 ++ List.replicate 6 (.process (.cook (Fin.last 0))) ++
      .elapse kIdleTimeout :: main 3

/-- The kitchen closes five seconds after the check that has found its pool busy. -/
theorem rests_after_timeout :
    ∃ state : Kitchen 1 × Watch, state.2.activities = [0, 10 ^ 9, 2 * 10 ^ 9] ∧
      state.1.site.process.pool.finished.length = 1 ∧ state.1.TimesOut (7 * 10 ^ 9) ∧
      state.1.Rests state.2 (7 * 10 ^ 9) := by
  obtain ⟨state, reached, checked⟩ := (watched 1 none).exists_reachable servedRun
    (fun state => state.2.activities = [0, 10 ^ 9, 2 * 10 ^ 9] ∧
      state.1.site.process.pool.finished.length = 1 ∧ state.1.TimesOut (7 * 10 ^ 9)) (by decide)
  obtain ⟨activities, finished, ends⟩ := of_decide_eq_true checked
  exact ⟨state, activities, finished, ends, rests_of_reachable reached ends⟩

/-- The pool had no load within the timeout. -/
def Rested (watch : Watch) (now : Nat) : Prop :=
  ∀ moment ∈ watch.moments, now ≤ moment.time + kIdleTimeout → moment.time ≤ now →
    moment.load = 0

instance (watch : Watch) (now : Nat) : Decidable (Rested watch now) :=
  inferInstanceAs (Decidable (∀ _ ∈ _, _))

/-- A kitchen takes a pizza, and its loop sleeps until the pizza is served. -/
def sleepyRun : List (KitchenLabel 1) :=
  .deliver { type := .pizza, pizza := pack ⟨.margarita, .s⟩ } ::
    List.replicate 6 (.process (.main fun _ => false)) ++ .elapse kIdleTimeout ::
      List.replicate 6 (.process (.cook (Fin.last 0))) ++ List.replicate 3 (.process (.main fun _ => false))

/-- The loop closes the kitchen at the moment of its last pizza. -/
theorem not_rested_of_sleepyRun :
    ∃ state : Kitchen 1 × Watch, (watched 1 none).Reachable state ∧
      state.1.TimesOut kIdleTimeout ∧ ¬Rested state.2 kIdleTimeout := by
  obtain ⟨state, reached, checked⟩ := (watched 1 none).exists_reachable sleepyRun
    (fun state => state.1.TimesOut kIdleTimeout ∧ ¬Rested state.2 kIdleTimeout) (by decide)
  exact ⟨state, reached, of_decide_eq_true checked⟩

end Kitchen

end Plazza
