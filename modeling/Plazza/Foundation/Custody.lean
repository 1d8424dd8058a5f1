import Plazza.Foundation.Machine
import Mathlib.Data.Set.Insert
import Mathlib.Logic.Function.Basic

namespace Plazza.Foundation

/-- Each holder has at most one resource. The two lists are the history. -/
@[ext]
structure Custody (Holder Resource : Type) where
  holds : Holder → Option Resource
  outstanding : Set Resource
  acquired : List Resource
  released : List Resource

/-- A holder gets a new resource, takes the one of another holder over or gives its own back. -/
inductive CustodyLabel (Holder Resource : Type) where
  | acquire (holder : Holder) (resource : Resource)
  | replace (target source : Holder)
  | release (holder : Holder)

namespace Custody

variable {Holder Resource : Type} [DecidableEq Holder]

def acquire (custody : Custody Holder Resource) (holder : Holder) (resource : Resource) :
    Custody Holder Resource where
  holds := Function.update custody.holds holder (some resource)
  outstanding := insert resource custody.outstanding
  acquired := custody.acquired ++ [resource]
  released := custody.released

def release (custody : Custody Holder Resource) (holder : Holder) : Custody Holder Resource where
  holds := Function.update custody.holds holder none
  outstanding := {resource ∈ custody.outstanding | custody.holds holder ≠ some resource}
  acquired := custody.acquired
  released := custody.released ++ (custody.holds holder).toList

def move (custody : Custody Holder Resource) (target source : Holder) : Custody Holder Resource :=
  { custody with
    holds := Function.update (Function.update custody.holds target (custody.holds source)) source
      none }

def step (custody : Custody Holder Resource) :
    CustodyLabel Holder Resource → Option (Custody Holder Resource)
  | .acquire holder resource => some (custody.acquire holder resource)
  | .replace target source => some ((custody.release target).move target source)
  | .release holder => some (custody.release holder)

def machine : Machine (Custody Holder Resource) (CustodyLabel Holder Resource) where
  initial := ⟨fun _ => none, ∅, [], []⟩
  step := step

/-- A new resource goes to a holder without one, and nobody takes its own resource over. -/
def Allowed (custody : Custody Holder Resource) : CustodyLabel Holder Resource → Prop
  | .acquire holder resource => custody.holds holder = none ∧ resource ∉ custody.outstanding
  | .replace target source => target ≠ source
  | .release _ => True

/-- Exactly one holder has each outstanding resource, and the history agrees. -/
structure Accounted [DecidableEq Resource] (custody : Custody Holder Resource) : Prop where
  kept : ∀ {holder resource}, custody.holds holder = some resource →
    resource ∈ custody.outstanding
  held : ∀ {resource}, resource ∈ custody.outstanding → ∃ holder, custody.holds holder = some resource
  sole : ∀ {first second resource}, custody.holds first = some resource →
    custody.holds second = some resource → first = second
  due : ∀ {resource}, resource ∈ custody.outstanding →
    custody.acquired.count resource = custody.released.count resource + 1
  settled : ∀ {resource}, resource ∉ custody.outstanding →
    custody.acquired.count resource = custody.released.count resource

section Holding

variable {custody : Custody Holder Resource} {holder other : Holder} {resource found : Resource}

theorem holds_acquire : (custody.acquire holder resource).holds other = some found ↔
    other = holder ∧ resource = found ∨ other ≠ holder ∧ custody.holds other = some found := by
  change Function.update custody.holds holder (some resource) other = some found ↔ _
  by_cases same : other = holder
  · rw [same, Function.update_self]
    simp
  · rw [Function.update_of_ne same]
    simp [same]

theorem holds_release : (custody.release holder).holds other = some found ↔
    other ≠ holder ∧ custody.holds other = some found := by
  change Function.update custody.holds holder none other = some found ↔ _
  by_cases same : other = holder
  · rw [same, Function.update_self]
    simp
  · rw [Function.update_of_ne same]
    simp [same]

theorem holds_move {target source : Holder} (distinct : target ≠ source) :
    (custody.move target source).holds other = some found ↔
      other = target ∧ custody.holds source = some found ∨
        other ≠ target ∧ other ≠ source ∧ custody.holds other = some found := by
  change Function.update (Function.update custody.holds target (custody.holds source)) source none
    other = some found ↔ _
  by_cases last : other = source
  · rw [last, Function.update_self]
    simp [distinct.symm]
  · rw [Function.update_of_ne last]
    by_cases same : other = target
    · rw [same, Function.update_self]
      simp
    · rw [Function.update_of_ne same]
      simp [same, last]

end Holding

variable [DecidableEq Resource] {custody : Custody Holder Resource}

/-- A new resource is accounted for by its holder. -/
theorem Accounted.acquire {holder : Holder} {resource : Resource} (accounted : custody.Accounted)
    (free : custody.holds holder = none) (unused : resource ∉ custody.outstanding) :
    (custody.acquire holder resource).Accounted where
  kept := by
    intro other found holds
    obtain ⟨_, rfl⟩ | ⟨_, holds⟩ := holds_acquire.mp holds
    · exact Set.mem_insert ..
    · exact Set.mem_insert_of_mem _ (accounted.kept holds)
  held := by
    rintro found (rfl | member)
    · exact ⟨holder, holds_acquire.mpr (.inl ⟨rfl, rfl⟩)⟩
    · obtain ⟨other, holds⟩ := accounted.held member
      have apart : other ≠ holder := by
        rintro rfl
        cases free.symm.trans holds
      exact ⟨other, holds_acquire.mpr (.inr ⟨apart, holds⟩)⟩
  sole := by
    intro first second found holds also
    obtain ⟨rfl, rfl⟩ | ⟨_, old⟩ := holds_acquire.mp holds <;>
      obtain ⟨rfl, same⟩ | ⟨_, older⟩ := holds_acquire.mp also
    · rfl
    · exact absurd (accounted.kept older) unused
    · exact absurd (accounted.kept (same ▸ old)) unused
    · exact accounted.sole old older
  due := by
    intro found member
    change (custody.acquired ++ [resource]).count found = custody.released.count found + 1
    rw [List.count_append]
    obtain rfl | member := member
    · rw [accounted.settled unused, List.count_singleton_self]
    · have other : resource ≠ found := by
        rintro rfl
        exact unused member
      rw [accounted.due member, List.count_singleton, if_neg (by simpa using other)]
  settled := by
    intro found absent
    have other : resource ≠ found := by
      rintro rfl
      exact absent (Set.mem_insert ..)
    change (custody.acquired ++ [resource]).count found = custody.released.count found
    rw [List.count_append, List.count_singleton, if_neg (by simpa using other)]
    exact accounted.settled fun member => absent (Set.mem_insert_of_mem _ member)

/-- A resource that goes back leaves its holder and is settled. -/
theorem Accounted.release (accounted : custody.Accounted) (holder : Holder) :
    (custody.release holder).Accounted where
  kept := by
    intro other found holds
    obtain ⟨apart, old⟩ := holds_release.mp holds
    exact ⟨accounted.kept old, fun same => apart (accounted.sole old same)⟩
  held := by
    rintro found ⟨member, other⟩
    obtain ⟨owner, holds⟩ := accounted.held member
    have apart : owner ≠ holder := by
      rintro rfl
      exact other holds
    exact ⟨owner, holds_release.mpr ⟨apart, holds⟩⟩
  sole holds also := accounted.sole (holds_release.mp holds).2 (holds_release.mp also).2
  due := by
    rintro found ⟨member, other⟩
    have absent : found ∉ (custody.holds holder).toList := by simpa using other
    change custody.acquired.count found = (custody.released ++ _).count found + 1
    rw [List.count_append, List.count_eq_zero_of_not_mem absent]
    exact accounted.due member
  settled := by
    intro found absent
    change custody.acquired.count found = (custody.released ++ _).count found
    rw [List.count_append]
    by_cases own : custody.holds holder = some found
    · rw [accounted.due (accounted.kept own), own, Option.toList_some, List.count_singleton_self]
    · have missing : found ∉ (custody.holds holder).toList := by simpa using own
      rw [List.count_eq_zero_of_not_mem missing]
      exact accounted.settled fun member => absent ⟨member, own⟩

/-- A resource that changes its holder stays outstanding. -/
theorem Accounted.move {target source : Holder} (accounted : custody.Accounted)
    (distinct : target ≠ source) (free : custody.holds target = none) :
    (custody.move target source).Accounted where
  kept := by
    intro other found holds
    obtain ⟨_, old⟩ | ⟨_, _, old⟩ := (holds_move distinct).mp holds
    · exact accounted.kept old
    · exact accounted.kept old
  held := by
    intro found member
    obtain ⟨owner, holds⟩ := accounted.held member
    have apart : owner ≠ target := by
      rintro rfl
      cases free.symm.trans holds
    by_cases moved : owner = source
    · exact ⟨target, (holds_move distinct).mpr (.inl ⟨rfl, moved ▸ holds⟩)⟩
    · exact ⟨owner, (holds_move distinct).mpr (.inr ⟨apart, moved, holds⟩)⟩
  sole := by
    intro first second found holds also
    obtain ⟨rfl, old⟩ | ⟨_, away, old⟩ := (holds_move distinct).mp holds <;>
      obtain ⟨rfl, older⟩ | ⟨_, gone, older⟩ := (holds_move distinct).mp also
    · rfl
    · exact absurd (accounted.sole old older).symm gone
    · exact absurd (accounted.sole old older) away
    · exact accounted.sole old older
  due member := accounted.due member
  settled absent := accounted.settled absent

/-- Every allowed run accounts for its resources. -/
theorem accounted_of_reachable
    (reached : (machine : Machine (Custody Holder Resource) _).ReachableUnder Allowed custody) :
    custody.Accounted := by
  refine reached.invariant (motive := Accounted) ?_ ?_
  · constructor
    · intro _ _ holds
      cases holds
    · intro _ member
      cases member
    · intro _ _ _ holds
      cases holds
    · intro _ member
      cases member
    · intro _ _
      rfl
  · intro before after label _ accounted allowed taken
    cases label with
    | acquire holder resource =>
        cases taken
        exact accounted.acquire allowed.1 allowed.2
    | replace target source =>
        cases taken
        exact (accounted.release target).move allowed (Function.update_self ..)
    | release holder =>
        cases taken
        exact accounted.release holder

/-- The resources that a step gives back. -/
def spent (custody : Custody Holder Resource) : CustodyLabel Holder Resource → List Resource
  | .acquire _ _ => []
  | .replace target _ => (custody.holds target).toList
  | .release holder => (custody.holds holder).toList

omit [DecidableEq Resource] in
/-- The history gets what a step gives back. -/
theorem released_step {next : Custody Holder Resource} {label : CustodyLabel Holder Resource}
    (taken : custody.step label = some next) :
    next.released = custody.released ++ custody.spent label := by
  cases label <;> cases taken
  · exact (List.append_nil _).symm
  · rfl
  · rfl

omit [DecidableEq Resource] in
/-- The source of a replacement has nothing left. -/
theorem holds_source {next : Custody Holder Resource} {target source : Holder}
    (taken : custody.step (.replace target source) = some next) : next.holds source = none := by
  cases taken
  exact Function.update_self ..

omit [DecidableEq Resource] in
theorem outstanding_release {holder : Holder} {resource : Resource}
    (member : resource ∈ custody.outstanding) :
    resource ∈ (custody.release holder).outstanding ↔
      resource ∉ (custody.holds holder).toList := by
  rw [Option.mem_toList]
  exact and_iff_right member

omit [DecidableEq Resource] in
/-- An outstanding resource stays outstanding unless a step gives it back. -/
theorem outstanding_step {next : Custody Holder Resource} {label : CustodyLabel Holder Resource}
    {resource : Resource} (member : resource ∈ custody.outstanding)
    (taken : custody.step label = some next) :
    resource ∈ next.outstanding ↔ resource ∉ custody.spent label := by
  cases label <;> cases taken
  · exact iff_of_true (Set.mem_insert_of_mem _ member) List.not_mem_nil
  · exact outstanding_release member
  · exact outstanding_release member

omit [DecidableEq Holder] in
/-- Exactly one holder has an outstanding resource. -/
theorem Accounted.existsUnique {resource : Resource} (accounted : custody.Accounted)
    (member : resource ∈ custody.outstanding) :
    ∃! holder, custody.holds holder = some resource := by
  obtain ⟨holder, holds⟩ := accounted.held member
  exact ⟨holder, holds, fun other also => accounted.sole also holds⟩

end Custody

end Plazza.Foundation
