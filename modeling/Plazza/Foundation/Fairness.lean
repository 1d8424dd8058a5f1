import Plazza.Foundation.Machine
import Mathlib.Data.Finset.Lattice.Fold
import Mathlib.Data.Fintype.Basic

namespace Plazza.Foundation

/-- The event happens at infinitely many moments. -/
def Again (happens : Nat → Prop) : Prop := ∀ moment, ∃ later, moment ≤ later ∧ happens later

/-- An event that happens again and again after some moment happens again and again. -/
theorem Again.of_late {happens : Nat → Prop} (start : Nat)
    (late : ∀ moment, start ≤ moment → ∃ later, moment ≤ later ∧ happens later) :
    Again happens := by
  intro moment
  obtain ⟨later, after, happens⟩ := late (max start moment) (le_max_left _ _)
  exact ⟨later, (le_max_right _ _).trans after, happens⟩

/-- Finitely many goals that last are reached together. -/
theorem exists_all {Index : Type*} [Fintype Index] {goal : Index → Nat → Prop} {start : Nat}
    (lasts : ∀ index {moment later}, start ≤ moment → moment ≤ later → goal index moment →
      goal index later)
    (each : ∀ index, ∃ moment, start ≤ moment ∧ goal index moment) :
    ∃ moment, start ≤ moment ∧ ∀ index, goal index moment := by
  choose reached after here using each
  refine ⟨max start (Finset.univ.sup reached), le_max_left _ _, fun index => ?_⟩
  have within : reached index ≤ max start (Finset.univ.sup reached) :=
    (Finset.le_sup (Finset.mem_univ index)).trans (le_max_right _ _)
  exact lasts index (after index) within (here index)

namespace Machine

variable {State Label : Type}

/-- A thread is a set of labels, and it is enabled where one of them has a step. -/
def Enables (machine : Machine State Label) (thread : Label → Prop) (state : State) : Prop :=
  ∃ label next, thread label ∧ machine.step state label = some next

/-- No step from a reachable state ends the property. -/
def Stable (machine : Machine State Label) (property : State → Prop) : Prop :=
  ∀ {state next : State} {label : Label}, machine.Reachable state → property state →
    machine.step state label = some next → property next

/-- An execution goes on forever, and a moment without a label changes nothing. -/
structure Execution (machine : Machine State Label) where
  state : Nat → State
  label : Nat → Option Label
  begins : machine.Reachable (state 0)
  follows : ∀ moment, machine.Follows (state moment) (label moment) (state (moment + 1))

namespace Execution

variable {machine : Machine State Label}

/-- The thread takes the step of this moment. -/
def Takes (execution : machine.Execution) (thread : Label → Prop) (moment : Nat) : Prop :=
  ∃ label, execution.label moment = some label ∧ thread label

/-- A thread that is enabled again and again steps again and again. -/
def Fair (execution : machine.Execution) (thread : Label → Prop) : Prop :=
  Again (fun moment => machine.Enables thread (execution.state moment)) →
    Again (execution.Takes thread)

/-- A state with the first property is followed by one with the second. -/
def LeadsTo (execution : machine.Execution) (before after : State → Prop) : Prop :=
  ∀ moment, before (execution.state moment) →
    ∃ later, moment ≤ later ∧ after (execution.state later)

variable {execution : machine.Execution}

/-- Each moment takes a step of the machine or changes nothing. -/
theorem step_cases (execution : machine.Execution) (moment : Nat) :
    execution.state (moment + 1) = execution.state moment ∧ execution.label moment = none ∨
      ∃ label, execution.label moment = some label ∧
        machine.step (execution.state moment) label = some (execution.state (moment + 1)) := by
  have followed := execution.follows moment
  cases taken : execution.label moment with
  | none =>
      rw [taken] at followed
      exact .inl ⟨followed, rfl⟩
  | some label =>
      rw [taken] at followed
      exact .inr ⟨label, rfl, followed⟩

/-- The label of a moment is its step. -/
theorem taken (execution : machine.Execution) {moment : Nat} {label : Label}
    (labelled : execution.label moment = some label) :
    machine.step (execution.state moment) label = some (execution.state (moment + 1)) := by
  have followed := execution.follows moment
  rw [labelled] at followed
  exact followed

/-- Every state of an execution is reachable. -/
theorem reachable (execution : machine.Execution) (moment : Nat) :
    machine.Reachable (execution.state moment) := by
  induction moment with
  | zero => exact execution.begins
  | succ moment before => exact (execution.follows moment).reachable before

/-- An invariant of the steps after the start holds from the start on. -/
theorem keeps {motive : State → Prop} {start : Nat} (base : motive (execution.state start))
    (keep : ∀ moment label, start ≤ moment → motive (execution.state moment) →
      execution.label moment = some label →
      machine.step (execution.state moment) label = some (execution.state (moment + 1)) →
      motive (execution.state (moment + 1)))
    {moment : Nat} (late : start ≤ moment) : motive (execution.state moment) := by
  induction moment, late using Nat.le_induction with
  | base => exact base
  | succ moment late before =>
      rcases execution.step_cases moment with ⟨same, _⟩ | ⟨label, labelled, taken⟩
      · exact same ▸ before
      · exact keep moment label late before labelled taken

/-- A stable property holds from its first moment on. -/
theorem stays {motive : State → Prop} (stable : machine.Stable motive) {start moment : Nat}
    (late : start ≤ moment) (base : motive (execution.state start)) :
    motive (execution.state moment) :=
  keeps base (fun moment _ _ before _ taken => stable (execution.reachable moment) before taken) late

/-- What only the thread changes stays the same while the thread takes no step. -/
theorem unchanged {Value : Sort*} {thread : Label → Prop} (view : State → Value)
    (frame : ∀ {state next label}, machine.Reachable state → machine.step state label = some next →
      ¬thread label → view next = view state)
    {start moment : Nat} (late : start ≤ moment)
    (rests : ∀ between, start ≤ between → ¬execution.Takes thread between) :
    view (execution.state moment) = view (execution.state start) :=
  keeps (motive := fun state => view state = view (execution.state start)) rfl
    (fun between label after before labelled taken =>
      (frame (execution.reachable between) taken fun chosen =>
        rests between after ⟨label, labelled, chosen⟩).trans before) late

namespace LeadsTo

theorem of_imp {before after : State → Prop}
    (imp : ∀ {state}, machine.Reachable state → before state → after state) :
    execution.LeadsTo before after := fun moment here =>
  ⟨moment, le_rfl, imp (execution.reachable moment) here⟩

theorem trans {first second third : State → Prop} (leads : execution.LeadsTo first second)
    (follows : execution.LeadsTo second third) : execution.LeadsTo first third := by
  intro moment here
  obtain ⟨middle, after, there⟩ := leads moment here
  obtain ⟨later, beyond, finally'⟩ := follows middle there
  exact ⟨later, after.trans beyond, finally'⟩

theorem mono {before after weaker : State → Prop} (leads : execution.LeadsTo before after)
    (imp : ∀ {state}, machine.Reachable state → after state → weaker state) :
    execution.LeadsTo before weaker := leads.trans (of_imp imp)

theorem strengthen {before stronger after : State → Prop} (leads : execution.LeadsTo before after)
    (imp : ∀ {state}, machine.Reachable state → stronger state → before state) :
    execution.LeadsTo stronger after := (of_imp imp).trans leads

/-- Each case of the first property may have its own argument. -/
theorem cases {Case : Sort*} {before after : State → Prop} {part : Case → State → Prop}
    (each : ∀ case, execution.LeadsTo (part case) after)
    (split : ∀ {state}, machine.Reachable state → before state →
      after state ∨ ∃ case, part case state) : execution.LeadsTo before after := by
  intro moment here
  rcases split (execution.reachable moment) here with done | ⟨case, inside⟩
  · exact ⟨moment, le_rfl, done⟩
  · exact each case moment inside

/-- Finitely many stable goals are reached together. -/
theorem all {Index : Type*} [Fintype Index] {before : State → Prop} {after : Index → State → Prop}
    (stable : ∀ index, machine.Stable (after index))
    (each : ∀ index, execution.LeadsTo before (after index)) :
    execution.LeadsTo before fun state => ∀ index, after index state := by
  intro moment here
  exact exists_all (fun index _ _ _ late there => stays (stable index) late there)
    fun index => each index moment here

/-- A measure that goes down until the goal is reached leads to the goal. -/
theorem of_measure {before after : State → Prop} (measure : State → Nat)
    (down : ∀ value, execution.LeadsTo (fun state => before state ∧ measure state = value)
      fun state => after state ∨ before state ∧ measure state < value) :
    execution.LeadsTo before after := by
  have bounded : ∀ value moment, before (execution.state moment) →
      measure (execution.state moment) = value →
      ∃ later, moment ≤ later ∧ after (execution.state later) := by
    intro value
    induction value using Nat.strong_induction_on with
    | _ value ih =>
        intro moment here same
        obtain ⟨middle, late, done | ⟨there, less⟩⟩ := down value moment ⟨here, same⟩
        · exact ⟨middle, late, done⟩
        · obtain ⟨later, beyond, done⟩ := ih _ less middle there rfl
          exact ⟨later, late.trans beyond, done⟩
  exact fun moment here => bounded _ moment here rfl

end LeadsTo

/-- A counter that leaves each value behind passes the bound, unless the wait is cut short. -/
theorem LeadsTo.of_counter {before stop : State → Prop} (stable : machine.Stable before)
    (counter : State → Nat) (bound : Nat)
    (grows : ∀ value, value ≤ bound → execution.LeadsTo
      (fun state => before state ∧ counter state = value)
      fun state => stop state ∨ value < counter state) :
    execution.LeadsTo before fun state => stop state ∨ bound < counter state := by
  refine .of_measure (fun state => bound + 1 - counter state) fun value => ?_
  rintro moment ⟨here, rfl⟩
  rcases Nat.lt_or_ge bound (counter (execution.state moment)) with more | less
  · exact ⟨moment, le_rfl, .inl (.inr more)⟩
  obtain ⟨later, late, cut | more⟩ := grows _ less moment ⟨here, rfl⟩
  · exact ⟨later, late, .inl (.inl cut)⟩
  · exact ⟨later, late, .inr ⟨stays stable late here, by omega⟩⟩

/-- The rule for one fair thread: every step reaches the goal or does not raise the rank, every
step of the thread reaches the goal or lowers it, and a thread that never steps is enabled later. -/
theorem leadsTo_of_rank {thread : Label → Prop} (fair : execution.Fair thread)
    {before after : State → Prop} (rank : State → Nat)
    (keep : ∀ {state next label}, machine.Reachable state → before state →
      machine.step state label = some next →
      after next ∨ before next ∧ (rank next < rank state ∨ rank next = rank state ∧ ¬thread label))
    (enabled : ∀ moment, (∀ later, moment ≤ later →
        before (execution.state later) ∧ ¬execution.Takes thread later) →
      ∃ later, moment ≤ later ∧ machine.Enables thread (execution.state later)) :
    execution.LeadsTo before after := by
  refine LeadsTo.of_measure rank fun value moment ⟨here, same⟩ => ?_
  by_contra never
  have held : ∀ later, moment ≤ later →
      ¬(after (execution.state later) ∨
        before (execution.state later) ∧ rank (execution.state later) < value) :=
    fun later late reached => never ⟨later, late, reached⟩
  have fixed : ∀ {later}, moment ≤ later →
      before (execution.state later) ∧ rank (execution.state later) = value := by
    intro later late
    refine keeps (motive := fun state => before state ∧ rank state = value) ⟨here, same⟩ ?_ late
    rintro between label late ⟨inside, equal⟩ - taken
    rcases keep (execution.reachable between) inside taken with done | ⟨inside, less | ⟨level, _⟩⟩
    · exact absurd (.inl done) (held _ (by omega))
    · exact absurd (.inr ⟨inside, equal ▸ less⟩) (held _ (by omega))
    · exact ⟨inside, level.trans equal⟩
  have rests : ∀ later, moment ≤ later → ¬execution.Takes thread later := by
    rintro later late ⟨label, labelled, chosen⟩
    have level : rank (execution.state (later + 1)) = rank (execution.state later) :=
      (fixed (by omega)).2.trans (fixed late).2.symm
    rcases keep (execution.reachable later) (fixed late).1 (execution.taken labelled) with
      done | ⟨_, less | ⟨_, other⟩⟩
    · exact held _ (by omega) (.inl done)
    · omega
    · exact other chosen
  have again := fair <| Again.of_late moment fun start late =>
    enabled start fun later after => ⟨(fixed (late.trans after)).1, rests later (late.trans after)⟩
  obtain ⟨later, late, taken⟩ := again moment
  exact rests later late taken

/-- The thread steps from every state where it is enabled as long as the state lasts. -/
theorem leadsTo_of_step {thread : Label → Prop} (fair : execution.Fair thread)
    {before after : State → Prop}
    (keep : ∀ {state next label}, machine.Reachable state → before state →
      machine.step state label = some next → after next ∨ before next ∧ ¬thread label)
    (enabled : ∀ {state}, machine.Reachable state → before state →
      machine.Enables thread state) : execution.LeadsTo before after := by
  refine leadsTo_of_rank fair (fun _ => 0) ?_ ?_
  · intro state next label reached here taken
    exact (keep reached here taken).imp_right fun ⟨there, other⟩ => ⟨there, .inr ⟨rfl, other⟩⟩
  · intro moment rests
    exact ⟨moment, le_rfl, enabled (execution.reachable moment) (rests moment le_rfl).1⟩

section Refinement

variable {LowerState LowerLabel UpperState UpperLabel : Type}
  {lower : Machine LowerState LowerLabel} {upper : Machine UpperState UpperLabel}
  {abstraction : LowerState → UpperState}
  {observe : LowerState → LowerLabel → Option UpperLabel}

/-- A stable property of the upper machine is stable below. -/
theorem stable_map {property : UpperState → Prop}
    (refines : Refinement lower upper abstraction observe) (stable : upper.Stable property) :
    lower.Stable fun state => property (abstraction state) := by
  intro state next label reached here taken
  cases observed : observe state label with
  | none => exact refines.silent reached taken observed ▸ here
  | some event =>
      exact stable (refines.reachable (fun _ _ => trivial) reached) here
        (refines.visible reached taken observed)

/-- A refinement carries an execution to an execution. -/
def map (refines : Refinement lower upper abstraction observe) (execution : lower.Execution) :
    upper.Execution where
  state moment := abstraction (execution.state moment)
  label moment := (execution.label moment).bind (observe (execution.state moment))
  begins := refines.reachable (fun _ _ => trivial) execution.begins
  follows moment := by
    rcases execution.step_cases moment with ⟨same, silent⟩ | ⟨label, labelled, taken⟩
    · rw [silent, same]
      rfl
    · rw [labelled, Option.bind_some]
      cases observed : observe (execution.state moment) label with
      | none => exact refines.silent (execution.reachable moment) taken observed
      | some event => exact refines.visible (execution.reachable moment) taken observed

/-- Fairness carries over when each step of the lower thread makes the upper step or lowers a measure
that never rises, and the lower thread does not wait forever while the upper thread is enabled again and
again. -/
theorem Fair.map_measured (refines : Refinement lower upper abstraction observe)
    {execution : lower.Execution} {below : LowerLabel → Prop} {above : UpperLabel → Prop}
    (fair : execution.Fair below) (measure : LowerState → Nat)
    (falls : ∀ moment, measure (execution.state (moment + 1)) ≤ measure (execution.state moment))
    (takes : ∀ moment label, execution.label moment = some label → below label →
      (∃ event, observe (execution.state moment) label = some event ∧ above event) ∨
        measure (execution.state (moment + 1)) < measure (execution.state moment))
    (enables : ∀ moment, (∀ later, moment ≤ later → ¬execution.Takes below later) →
      Again (fun later => upper.Enables above (abstraction (execution.state later))) →
      ∃ later, moment ≤ later ∧ lower.Enables below (execution.state later)) :
    (execution.map refines).Fair above := by
  intro again
  by_contra rarely
  obtain ⟨start, rests⟩ : ∃ start, ∀ later, start ≤ later →
      ¬(execution.map refines).Takes above later := by
    simpa [Again] using rarely
  -- the lower thread is silent once the measure has reached its least value
  obtain ⟨floor, after, least⟩ := (InvImage.wf (fun moment => measure (execution.state moment))
    wellFounded_lt).has_min (Set.Ici start) ⟨start, Set.mem_Ici.mpr le_rfl⟩
  have level : ∀ later, floor ≤ later →
      measure (execution.state later) = measure (execution.state floor) := by
    intro later late
    induction later, late using Nat.le_induction with
    | base => rfl
    | succ later late before =>
        have bound := falls later
        have inside : later + 1 ∈ Set.Ici start :=
          Set.mem_Ici.mpr ((Set.mem_Ici.mp after).trans (late.trans (Nat.le_succ later)))
        have least := least (later + 1) inside
        simp only [InvImage] at least
        omega
  have silent : ∀ later, floor ≤ later → ¬execution.Takes below later := by
    rintro later late ⟨label, labelled, chosen⟩
    rcases takes later label labelled chosen with ⟨event, observed, made⟩ | less
    · refine rests later ((Set.mem_Ici.mp after).trans late) ⟨event, ?_, made⟩
      change (execution.label later).bind _ = some event
      rw [labelled, Option.bind_some, observed]
    · rw [level later late, level (later + 1) (by omega)] at less
      exact lt_irrefl _ less
  have often : Again fun later => lower.Enables below (execution.state later) :=
    Again.of_late floor fun moment late =>
      enables moment (fun later after => silent later (late.trans after)) again
  obtain ⟨later, late, taken⟩ := fair often floor
  exact silent later late taken

/-- Fairness carries over when the lower thread makes the upper step and does not wait forever
while the upper thread is enabled again and again. -/
theorem Fair.map (refines : Refinement lower upper abstraction observe)
    {execution : lower.Execution} {below : LowerLabel → Prop} {above : UpperLabel → Prop}
    (fair : execution.Fair below)
    (takes : ∀ {state next label}, lower.Reachable state → lower.step state label = some next →
      below label → ∃ event, observe state label = some event ∧ above event)
    (enables : ∀ moment, (∀ later, moment ≤ later → ¬execution.Takes below later) →
      Again (fun later => upper.Enables above (abstraction (execution.state later))) →
      ∃ later, moment ≤ later ∧ lower.Enables below (execution.state later)) :
    (execution.map refines).Fair above :=
  fair.map_measured refines (fun _ => 0) (fun _ => le_rfl)
    (fun moment _ labelled chosen =>
      .inl (takes (execution.reachable moment) (execution.taken labelled) chosen)) enables

end Refinement

/-- A schedule proposes a label at each moment, and a disabled label is passed over. -/
def scheduledState (machine : Machine State Label) (schedule : Nat → Option Label) (moment : Nat) :
    State :=
  (List.range moment).foldl
    (fun state before => ((schedule before).bind (machine.step state)).getD state) machine.initial

theorem scheduledState_succ (machine : Machine State Label) (schedule : Nat → Option Label)
    (moment : Nat) :
    scheduledState machine schedule (moment + 1) =
      ((schedule moment).bind (machine.step (scheduledState machine schedule moment))).getD
        (scheduledState machine schedule moment) := by
  simp [scheduledState, List.range_succ]

/-- Every schedule has an execution from the initial state. -/
def scheduled (machine : Machine State Label) (schedule : Nat → Option Label) :
    machine.Execution where
  state := scheduledState machine schedule
  label moment := (schedule moment).filter fun label =>
    (machine.step (scheduledState machine schedule moment) label).isSome
  begins := .initial
  follows moment := by
    rw [scheduledState_succ]
    cases schedule moment with
    | none => rfl
    | some label =>
        cases taken : machine.step (scheduledState machine schedule moment) label with
        | none => simp [Option.filter, taken, Follows]
        | some next => simp [Option.filter, taken, Follows]

/-- A finite run and a rest in its last state. -/
abbrev resting (machine : Machine State Label) (labels : List Label) : machine.Execution :=
  scheduled machine fun moment => labels[moment]?

/-- A schedule that agrees with the labels of a run follows the run and takes each of its steps. -/
theorem scheduledState_run {machine : Machine State Label} (schedule : Nat → Option Label)
    (start : Nat) {allowed : State → Label → Bool} {labels : List Label} {last : State}
    (agrees : ∀ count < labels.length, schedule (start + count) = labels[count]?)
    (ran : machine.run allowed (scheduledState machine schedule start) labels = some last) :
    scheduledState machine schedule (start + labels.length) = last ∧
      ∀ count (inside : count < labels.length),
        allowed (scheduledState machine schedule (start + count)) labels[count] = true ∧
          (machine.step (scheduledState machine schedule (start + count)) labels[count]).isSome := by
  induction labels generalizing start with
  | nil => exact ⟨Option.some.inj ran, nofun⟩
  | cons label rest ih =>
      rw [Machine.run] at ran
      split at ran
      swap
      · cases ran
      rename_i permitted
      obtain ⟨middle, taken, tail⟩ := Option.bind_eq_some_iff.mp ran
      have first : schedule start = some label := agrees 0 (Nat.succ_pos _)
      have stepped : scheduledState machine schedule (start + 1) = middle := by
        rw [scheduledState_succ, first, Option.bind_some, taken, Option.getD_some]
      have shift : ∀ count, start + (count + 1) = start + 1 + count := fun count => by omega
      obtain ⟨ends, each⟩ := ih (start + 1)
        (fun count inside => shift count ▸ agrees (count + 1) (Nat.succ_lt_succ inside))
        (by rwa [stepped])
      refine ⟨(congrArg _ (shift rest.length)).trans ends, fun count inside => ?_⟩
      cases count with
      | zero => exact ⟨permitted, by simp [taken]⟩
      | succ count =>
          rw [shift]
          exact each count (Nat.lt_of_succ_lt_succ inside)

/-- The execution has come to rest when the labels are used up. -/
theorem state_resting {machine : Machine State Label} {labels : List Label} {last : State}
    (ran : machine.run (fun _ _ => true) machine.initial labels = some last) {moment : Nat}
    (late : labels.length ≤ moment) : (resting machine labels).state moment = last := by
  induction moment, late using Nat.le_induction with
  | base =>
      rw [← Nat.zero_add labels.length]
      exact (scheduledState_run _ 0 (fun count _ => by rw [Nat.zero_add]) ran).1
  | succ moment late ih =>
      change scheduledState machine _ (moment + 1) = last
      rw [scheduledState_succ, List.getElem?_eq_none late]
      exact ih

/-- A scheduled execution passes through the end of each run that the schedule agrees with. -/
theorem check_scheduled {machine : Machine State Label} {schedule : Nat → Option Label}
    {labels : List Label} (agrees : ∀ count < labels.length, schedule count = labels[count]?)
    (check : State → Bool)
    (ran : (machine.run (fun _ _ => true) machine.initial labels).any check = true) :
    check ((scheduled machine schedule).state labels.length) = true := by
  obtain ⟨middle, same, checked⟩ := (Option.any_eq_true _ _).mp ran
  have reached : (scheduled machine schedule).state (0 + labels.length) = middle := by
    refine (scheduledState_run _ 0 (fun count inside => ?_) same).1
    rw [Nat.zero_add, agrees count inside]
  rwa [← Nat.zero_add labels.length, reached]

/-- An execution at rest passes through the ends of the first parts of its run. -/
theorem exists_resting (machine : Machine State Label) {labels front : List Label}
    (first : front <+: labels) (check : State → Bool)
    (ran : (machine.run (fun _ _ => true) machine.initial front).any check = true) :
    ∃ moment, check ((resting machine labels).state moment) = true := by
  obtain ⟨back, rfl⟩ := first
  exact ⟨_, check_scheduled (fun _ inside => List.getElem?_append_left inside) check ran⟩

/-- An execution is fair to a thread that is disabled from some moment on. -/
theorem fair_of_disabled {execution : machine.Execution} {thread : Label → Prop} {start : Nat}
    (disabled : ∀ moment, start ≤ moment → ¬machine.Enables thread (execution.state moment)) :
    execution.Fair thread := by
  intro again
  obtain ⟨later, late, enabled⟩ := again start
  exact absurd enabled (disabled later late)

/-- An execution at rest is fair to every thread that is disabled in its last state. -/
theorem fair_resting {machine : Machine State Label} {labels : List Label} {last : State}
    (ran : machine.run (fun _ _ => true) machine.initial labels = some last)
    {thread : Label → Prop} (disabled : ¬machine.Enables thread last) :
    (resting machine labels).Fair thread :=
  fair_of_disabled fun _ late => (state_resting ran late).symm ▸ disabled

/-- The execution begins and goes on under the guard. -/
structure Obeys (execution : machine.Execution) (guard : State → Label → Prop) : Prop where
  begins : machine.ReachableUnder guard (execution.state 0)
  follows : ∀ moment label, execution.label moment = some label → guard (execution.state moment) label

/-- Every state of an execution under the guard is reached under it. -/
theorem Obeys.reachable {execution : machine.Execution} {guard : State → Label → Prop}
    (obeys : execution.Obeys guard) (moment : Nat) :
    machine.ReachableUnder guard (execution.state moment) :=
  keeps (motive := machine.ReachableUnder guard) obeys.begins
    (fun between label _ before labelled taken => .step before (obeys.follows between label labelled) taken)
    (Nat.zero_le moment)

/-- The labels of the front and then the labels of the cycle over and over. -/
def looped (front cycle : List Label) (moment : Nat) : Option Label :=
  if moment < front.length then front[moment]? else cycle[(moment - front.length) % cycle.length]?

/-- A finite run and a cycle that never ends. -/
abbrev looping (machine : Machine State Label) (front cycle : List Label) : machine.Execution :=
  scheduled machine (looped front cycle)

/-- The schedule goes through the cycle in each round. -/
theorem looped_cycle (front : List Label) {cycle : List Label} (round : Nat) {count : Nat}
    (inside : count < cycle.length) :
    looped front cycle (front.length + round * cycle.length + count) = cycle[count]? := by
  have place : (front.length + round * cycle.length + count - front.length) % cycle.length =
      count := by
    rw [Nat.add_assoc, Nat.add_sub_cancel_left, Nat.add_comm, Nat.add_mul_mod_self_right,
      Nat.mod_eq_of_lt inside]
  rw [looped, if_neg (by omega), place]

section Looping

variable {allowed : State → Label → Bool} {front cycle : List Label} {last : State}
  (ran : machine.run allowed machine.initial front = some last)
  (loops : machine.run allowed last cycle = some last)
include ran

/-- The execution takes each step of the front. -/
theorem looping_front :
    (looping machine front cycle).state front.length = last ∧
      ∀ count (inside : count < front.length),
        allowed ((looping machine front cycle).state count) front[count] = true ∧
          (machine.step ((looping machine front cycle).state count) front[count]).isSome := by
  have followed := scheduledState_run (looped front cycle) 0
    (fun count inside => by rw [Nat.zero_add, looped, if_pos inside]) ran
  simp only [Nat.zero_add] at followed
  exact followed

include loops

/-- Every round begins where the front ends. -/
theorem looping_round (round : Nat) :
    (looping machine front cycle).state (front.length + round * cycle.length) = last := by
  induction round with
  | zero =>
      rw [Nat.zero_mul, Nat.add_zero]
      exact (looping_front ran).1
  | succ round ih =>
      rw [Nat.succ_mul, ← Nat.add_assoc]
      exact (scheduledState_run _ _ (fun _ => looped_cycle front round)
        ((congrArg (machine.run allowed · cycle) ih).trans loops)).1

/-- Every round takes each step of the cycle. -/
theorem looping_cycle (round : Nat) {count : Nat} (inside : count < cycle.length) :
    allowed ((looping machine front cycle).state (front.length + round * cycle.length + count))
        cycle[count] = true ∧
      (machine.step ((looping machine front cycle).state
        (front.length + round * cycle.length + count)) cycle[count]).isSome :=
  (scheduledState_run _ _ (fun _ => looped_cycle front round)
    ((congrArg (machine.run allowed · cycle) (looping_round ran loops round)).trans loops)).2
    count inside

/-- A thread with a label of the cycle steps again and again. -/
theorem again_looping {thread : Label → Prop} {label : Label} (member : label ∈ cycle)
    (chosen : thread label) : Again ((looping machine front cycle).Takes thread) := by
  obtain ⟨count, inside, rfl⟩ := List.mem_iff_getElem.mp member
  intro moment
  refine ⟨front.length + moment * cycle.length + count, ?_, cycle[count], ?_, chosen⟩
  · have more := Nat.le_mul_of_pos_right moment (show 0 < cycle.length by omega)
    omega
  · change (looped front cycle _).filter _ = _
    rw [looped_cycle front moment inside, List.getElem?_eq_getElem inside, Option.filter_some]
    exact if_pos (looping_cycle ran loops moment inside).2

/-- The execution obeys what the run and the cycle were allowed. -/
theorem obeys_looping (some' : cycle ≠ []) :
    (looping machine front cycle).Obeys fun state label => allowed state label = true where
  begins := .initial
  follows moment label labelled := by
    have scheduled : looped front cycle moment = some label :=
      (Option.filter_eq_some_iff.mp labelled).1
    rcases Nat.lt_or_ge moment front.length with inside | late
    · rw [looped, if_pos inside, List.getElem?_eq_getElem inside] at scheduled
      exact Option.some.inj scheduled ▸ ((looping_front ran).2 moment inside).1
    · obtain ⟨more, rfl⟩ := Nat.exists_eq_add_of_le late
      have inside := Nat.mod_lt more (List.length_pos_iff.mpr some')
      have split : front.length + more / cycle.length * cycle.length + more % cycle.length =
          front.length + more := by
        rw [Nat.add_assoc, Nat.div_add_mod']
      rw [← split, looped_cycle front _ inside, List.getElem?_eq_getElem inside] at scheduled
      rw [← split, ← Option.some.inj scheduled]
      exact (looping_cycle ran loops _ inside).1

omit ran loops in
/-- The execution passes through the ends of the first parts of the front. -/
theorem check_looping (machine : Machine State Label) (cycle : List Label) {part : List Label}
    (first : part <+: front) (check : State → Bool)
    (passed : (machine.run (fun _ _ => true) machine.initial part).any check = true) :
    check ((looping machine front cycle).state part.length) = true := by
  obtain ⟨back, rfl⟩ := first
  refine check_scheduled (fun count inside => ?_) check passed
  rw [looped, if_pos (by rw [List.length_append]; omega), List.getElem?_append_left inside]

omit ran loops in
/-- From each moment on the execution takes only labels that are left of the front or in the cycle. -/
theorem mem_looping (count : Nat) {moment : Nat} (late : count ≤ moment) {label : Label}
    (labelled : (looping machine front cycle).label moment = some label) :
    label ∈ front.drop count ++ cycle := by
  have scheduled : looped front cycle moment = some label :=
    (Option.filter_eq_some_iff.mp labelled).1
  rw [looped] at scheduled
  split at scheduled
  · have left : (front.drop count)[moment - count]? = some label := by
      rwa [List.getElem?_drop, Nat.add_sub_cancel' late]
    exact List.mem_append_left _ (List.mem_of_getElem? left)
  · exact List.mem_append_right _ (List.mem_of_getElem? scheduled)

end Looping

end Execution

end Machine

end Plazza.Foundation
