import Mathlib.Data.List.Basic

namespace Plazza.Foundation

/-- A machine has one initial state and a partial step for each label. -/
structure Machine (State Label : Type) where
  initial : State
  step : State → Label → Option State

namespace Machine

variable {State Label : Type}

/-- A run takes the labels in order and stops at the first one that is disabled or not allowed. -/
def run (machine : Machine State Label) (allowed : State → Label → Bool) :
    State → List Label → Option State
  | state, [] => some state
  | state, label :: rest =>
      if allowed state label then
        (machine.step state label).bind fun next => machine.run allowed next rest
      else none

/-- The guard restricts the labels that a run may take in each state. -/
inductive ReachableUnder (machine : Machine State Label) (guard : State → Label → Prop) :
    State → Prop
  | initial : machine.ReachableUnder guard machine.initial
  | step {state next : State} {label : Label} (before : machine.ReachableUnder guard state)
      (allowed : guard state label) (taken : machine.step state label = some next) :
      machine.ReachableUnder guard next

/-- A reachable state has a run without any restriction. -/
abbrev Reachable (machine : Machine State Label) : State → Prop :=
  machine.ReachableUnder fun _ _ => True

/-- The same steps begin in another state. -/
def startingAt (machine : Machine State Label) (state : State) : Machine State Label :=
  { machine with initial := state }

/-- A weaker guard reaches at least the same states. -/
theorem ReachableUnder.mono {machine : Machine State Label} {strong weak : State → Label → Prop}
    (weaker : ∀ state label, strong state label → weak state label) {state : State}
    (reached : machine.ReachableUnder strong state) : machine.ReachableUnder weak state := by
  induction reached with
  | initial => exact .initial
  | step _ allowed taken ih => exact .step ih (weaker _ _ allowed) taken

/-- Every guarded run is a run. -/
theorem ReachableUnder.reachable {machine : Machine State Label} {guard : State → Label → Prop}
    {state : State} (reached : machine.ReachableUnder guard state) : machine.Reachable state :=
  reached.mono fun _ _ _ => trivial

/-- A property that holds initially and survives each allowed step holds in each reached state. -/
theorem ReachableUnder.invariant {machine : Machine State Label} {guard : State → Label → Prop}
    {motive : State → Prop} (base : motive machine.initial)
    (keep : ∀ {state next : State} {label : Label}, machine.ReachableUnder guard state →
      motive state → guard state label → machine.step state label = some next → motive next)
    {state : State} (reached : machine.ReachableUnder guard state) : motive state := by
  induction reached with
  | initial => exact base
  | step before allowed taken ih => exact keep before ih allowed taken

/-- The end of a run from a reachable state is reachable. -/
theorem ReachableUnder.run {machine : Machine State Label} {allowed : State → Label → Bool}
    {first last : State} {labels : List Label}
    (reached : machine.ReachableUnder (fun state label => allowed state label) first)
    (ran : machine.run allowed first labels = some last) :
    machine.ReachableUnder (fun state label => allowed state label) last := by
  induction labels generalizing first with
  | nil =>
      obtain rfl : first = last := by simpa [Machine.run] using ran
      exact reached
  | cons label rest ih =>
      simp only [Machine.run] at ran
      split at ran
      · obtain ⟨middle, taken, tail⟩ := Option.bind_eq_some_iff.mp ran
        exact ih (.step reached ‹_› taken) tail
      · cases ran

/-- An allowed run that ends in a checked state shows that such a state is reachable. -/
theorem exists_reachableUnder (machine : Machine State Label) (allowed : State → Label → Bool)
    (labels : List Label) (check : State → Bool)
    (ran : (machine.run allowed machine.initial labels).any check = true) :
    ∃ state, machine.ReachableUnder (fun state label => allowed state label) state ∧
      check state = true := by
  obtain ⟨state, same, checked⟩ := (Option.any_eq_true _ _).mp ran
  exact ⟨state, ReachableUnder.run .initial same, checked⟩

/-- A run that ends in a checked state shows that such a state is reachable. -/
theorem exists_reachable (machine : Machine State Label) (labels : List Label)
    (check : State → Bool)
    (ran : (machine.run (fun _ _ => true) machine.initial labels).any check = true) :
    ∃ state, machine.Reachable state ∧ check state = true := by
  obtain ⟨state, reached, checked⟩ := machine.exists_reachableUnder _ labels check ran
  exact ⟨state, reached.mono fun _ _ _ => trivial, checked⟩

/-- Every state that the run visits has the property. -/
def Visits (machine : Machine State Label) (property : State → Prop) : State → List Label → Prop
  | state, [] => property state
  | state, label :: rest => property state ∧
      ∀ next, machine.step state label = some next → machine.Visits property next rest

/-- Every step that the run takes meets the guard. -/
def Obeys (machine : Machine State Label) (guard : State → Label → Prop) :
    State → List Label → Prop
  | _, [] => True
  | state, label :: rest => ∀ next, machine.step state label = some next →
      guard state label ∧ machine.Obeys guard next rest

/-- The first visited state has the property. -/
theorem Visits.first {machine : Machine State Label} {property : State → Prop} {state : State}
    {labels : List Label} (visits : machine.Visits property state labels) : property state := by
  cases labels with
  | nil => exact visits
  | cons _ _ => exact visits.1

/-- The guard is exact when each step keeps the property if and only if it meets the guard. -/
theorem visits_iff_obeys {machine : Machine State Label} {property : State → Prop}
    {guard : State → Label → Prop}
    (exact : ∀ {state next : State} {label : Label}, machine.Reachable state → property state →
      machine.step state label = some next → (property next ↔ guard state label))
    {first : State} (labels : List Label) (reached : machine.Reachable first)
    (holds : property first) :
    machine.Visits property first labels ↔ machine.Obeys guard first labels := by
  induction labels generalizing first with
  | nil => exact ⟨fun _ => trivial, fun _ => holds⟩
  | cons label rest ih =>
      constructor
      · rintro ⟨_, visits⟩ next taken
        have kept := (visits next taken).first
        exact ⟨(exact reached holds taken).mp kept,
          (ih (.step reached trivial taken) kept).mp (visits next taken)⟩
      · intro obeys
        refine ⟨holds, fun next taken => ?_⟩
        have kept := (exact reached holds taken).mpr (obeys next taken).1
        exact (ih (.step reached trivial taken) kept).mpr (obeys next taken).2

/-- The record extends a history beside the state that no step reads. -/
def withHistory {History : Type} (machine : Machine State Label)
    (record : State → Label → State → History → History) (first : History) :
    Machine (State × History) Label where
  initial := (machine.initial, first)
  step state label := (machine.step state.1 label).map fun next =>
    (next, record state.1 label next state.2)

/-- A step with a history is a step of the machine and its record. -/
theorem withHistory_step {History : Type} {machine : Machine State Label}
    {record : State → Label → State → History → History} {first : History}
    {state next : State × History} {label : Label} :
    (machine.withHistory record first).step state label = some next ↔
      machine.step state.1 label = some next.1 ∧
        next.2 = record state.1 label next.1 state.2 := by
  constructor
  · intro taken
    obtain ⟨after, stepped, rfl⟩ := Option.map_eq_some_iff.mp taken
    exact ⟨stepped, rfl⟩
  · rintro ⟨stepped, recorded⟩
    refine Option.map_eq_some_iff.mpr ⟨next.1, stepped, ?_⟩
    rw [← recorded]

/-- The history restricts no run. -/
theorem ReachableUnder.exists_history {History : Type} {machine : Machine State Label}
    {guard : State → Label → Prop} {state : State} (reached : machine.ReachableUnder guard state)
    (record : State → Label → State → History → History) (first : History) :
    ∃ history, (machine.withHistory record first).ReachableUnder
      (fun state label => guard state.1 label) (state, history) := by
  induction reached with
  | initial => exact ⟨first, .initial⟩
  | @step state next label _ allowed taken ih =>
      obtain ⟨history, before⟩ := ih
      let later := record state label next history
      have stepped : (machine.withHistory record first).step (state, history) label =
          some (next, later) := withHistory_step.mpr ⟨taken, rfl⟩
      exact ⟨later, .step before allowed stepped⟩

/-- A run with a history is a run. -/
theorem ReachableUnder.forget {History : Type} {machine : Machine State Label}
    {record : State → Label → State → History → History} {first : History}
    {guard : State × History → Label → Prop} {state : State × History}
    (reached : (machine.withHistory record first).ReachableUnder guard state) :
    machine.Reachable state.1 :=
  reached.invariant (motive := fun state => machine.Reachable state.1) .initial
    fun _ before _ taken => .step before trivial (withHistory_step.mp taken).1

/-- Each lower step is the observed upper step, or changes nothing above when nothing is observed. -/
structure Refinement {LowerState LowerLabel UpperState UpperLabel : Type}
    (lower : Machine LowerState LowerLabel) (upper : Machine UpperState UpperLabel)
    (abstraction : LowerState → UpperState)
    (observe : LowerState → LowerLabel → Option UpperLabel) : Prop where
  initial : abstraction lower.initial = upper.initial
  silent : ∀ {state next label}, lower.Reachable state → lower.step state label = some next →
    observe state label = none → abstraction next = abstraction state
  visible : ∀ {state next label event}, lower.Reachable state → lower.step state label = some next →
    observe state label = some event → upper.step (abstraction state) event = some (abstraction next)

/-- An unobserved step changes nothing, and an observed one is a step of the machine. -/
def Follows (machine : Machine State Label) (before : State) (event : Option Label)
    (after : State) : Prop :=
  match event with
  | none => after = before
  | some event => machine.step before event = some after

/-- A machine that follows stays in its reachable states. -/
theorem Follows.reachable {machine : Machine State Label} {before after : State}
    {event : Option Label} (followed : machine.Follows before event after)
    (reached : machine.Reachable before) : machine.Reachable after := by
  cases event with
  | none => exact followed ▸ reached
  | some event => exact .step reached trivial followed

/-- A lower machine whose steps the upper machine follows refines it. -/
theorem Refinement.of_follows {LowerState LowerLabel UpperState UpperLabel : Type}
    {lower : Machine LowerState LowerLabel} {upper : Machine UpperState UpperLabel}
    {abstraction : LowerState → UpperState}
    {observe : LowerState → LowerLabel → Option UpperLabel}
    (initial : abstraction lower.initial = upper.initial)
    (follows : ∀ {state next label}, lower.Reachable state → lower.step state label = some next →
      upper.Follows (abstraction state) (observe state label) (abstraction next)) :
    Refinement lower upper abstraction observe where
  initial := initial
  silent reached taken unobserved := by
    have followed := follows reached taken
    rw [unobserved] at followed
    exact followed
  visible reached taken observed := by
    have followed := follows reached taken
    rw [observed] at followed
    exact followed

/-- Steps that the upper machine follows from its own reachable states keep it in such a state. -/
theorem ReachableUnder.follow {LowerState LowerLabel UpperState UpperLabel : Type}
    {lower : Machine LowerState LowerLabel} {upper : Machine UpperState UpperLabel}
    {abstraction : LowerState → UpperState}
    {observe : LowerState → LowerLabel → Option UpperLabel}
    {guard : LowerState → LowerLabel → Prop} {above : UpperState → UpperLabel → Prop}
    (initial : abstraction lower.initial = upper.initial)
    (follows : ∀ {state next label}, upper.ReachableUnder above (abstraction state) →
      guard state label → lower.step state label = some next →
      upper.Follows (abstraction state) (observe state label) (abstraction next) ∧
        ∀ event, observe state label = some event → above (abstraction state) event)
    {state : LowerState} (reached : lower.ReachableUnder guard state) :
    upper.ReachableUnder above (abstraction state) := by
  induction reached with
  | initial => exact initial ▸ .initial
  | @step state next label _ permitted taken ih =>
      obtain ⟨followed, allowed⟩ := follows ih permitted taken
      cases observed : observe state label with
      | none =>
          rw [observed] at followed
          exact followed ▸ ih
      | some event =>
          rw [observed] at followed
          exact .step ih (allowed event observed) followed

/-- A refinement carries each run with allowed observations to a run of the upper machine. -/
theorem Refinement.reachable {LowerState LowerLabel UpperState UpperLabel : Type}
    {lower : Machine LowerState LowerLabel} {upper : Machine UpperState UpperLabel}
    {abstraction : LowerState → UpperState}
    {observe : LowerState → LowerLabel → Option UpperLabel}
    (refines : Refinement lower upper abstraction observe)
    {guard : LowerState → LowerLabel → Prop} {above : UpperState → UpperLabel → Prop}
    (allowed : ∀ {state label event}, guard state label → observe state label = some event →
      above (abstraction state) event)
    {state : LowerState} (reached : lower.ReachableUnder guard state) :
    upper.ReachableUnder above (abstraction state) := by
  induction reached with
  | initial => exact refines.initial ▸ .initial
  | @step state next label before permitted taken ih =>
      cases observed : observe state label with
      | none => exact refines.silent before.reachable taken observed ▸ ih
      | some event =>
          exact .step ih (allowed permitted observed) (refines.visible before.reachable taken observed)

/-- Refinements compose, and so do their observations. -/
theorem Refinement.trans {LowerState LowerLabel MiddleState MiddleLabel UpperState UpperLabel : Type}
    {lower : Machine LowerState LowerLabel} {middle : Machine MiddleState MiddleLabel}
    {upper : Machine UpperState UpperLabel} {below : LowerState → MiddleState}
    {above : MiddleState → UpperState} {observe : LowerState → LowerLabel → Option MiddleLabel}
    {watch : MiddleState → MiddleLabel → Option UpperLabel}
    (first : Refinement lower middle below observe) (second : Refinement middle upper above watch) :
    Refinement lower upper (fun state => above (below state))
      fun state label => (observe state label).bind (watch (below state)) := by
  refine .of_follows ((congrArg above first.initial).trans second.initial) ?_
  intro state next label reached taken
  cases seen : observe state label with
  | none => exact congrArg above (first.silent reached taken seen)
  | some event =>
      have stepped := first.visible reached taken seen
      have standing : middle.Reachable (below state) :=
        first.reachable (fun _ _ => trivial) reached
      rw [Option.bind_some]
      cases noticed : watch (below state) event with
      | none => exact second.silent standing stepped noticed
      | some outer => exact second.visible standing stepped noticed

/-- Each step from a reachable lower state is the relabelled upper step, and both are disabled
together. -/
structure Agreement {LowerState LowerLabel UpperState UpperLabel : Type}
    (lower : Machine LowerState LowerLabel) (upper : Machine UpperState UpperLabel)
    (abstraction : LowerState → UpperState) (relabel : LowerLabel → UpperLabel) : Prop where
  initial : abstraction lower.initial = upper.initial
  steps : ∀ {state} label, lower.Reachable state →
    (lower.step state label).map abstraction = upper.step (abstraction state) (relabel label)

/-- Machines that agree have the same runs. -/
theorem Agreement.run {LowerState LowerLabel UpperState UpperLabel : Type}
    {lower : Machine LowerState LowerLabel} {upper : Machine UpperState UpperLabel}
    {abstraction : LowerState → UpperState} {relabel : LowerLabel → UpperLabel}
    (agrees : Agreement lower upper abstraction relabel) {first : LowerState}
    (reached : lower.Reachable first) (labels : List LowerLabel) :
    (lower.run (fun _ _ => true) first labels).map abstraction =
      upper.run (fun _ _ => true) (abstraction first) (labels.map relabel) := by
  induction labels generalizing first with
  | nil => rfl
  | cons label rest ih =>
      simp only [List.map_cons, Machine.run, if_true]
      rw [← agrees.steps label reached]
      cases taken : lower.step first label with
      | none => rfl
      | some next => exact ih (.step reached trivial taken)

end Machine

end Plazza.Foundation
