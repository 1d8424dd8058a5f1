import Mathlib.Algebra.Order.Floor.Div
import Mathlib.Algebra.BigOperators.Group.List.Basic
import Mathlib.Data.List.Count
import Mathlib.Tactic.Ring

namespace Plazza.Foundation

/-- One job goes to a least loaded server with room, or to a new server when no server has room. -/
inductive Assign (capacity : Nat) : List Nat → Nat → List Nat → Prop
  | least {loads : List Nat} {index load : Nat} (found : loads[index]? = some load)
      (room : load < capacity) (least : ∀ other ∈ loads, other < capacity → load ≤ other) :
      Assign capacity loads index (loads.set index (load + 1))
  | fresh {loads : List Nat} (full : ∀ load ∈ loads, capacity ≤ load) :
      Assign capacity loads loads.length (loads ++ [1])

/-- The jobs are assigned one after another and each index names the server of its job. -/
inductive AssignAll (capacity : Nat) (first : List Nat) : List Nat → List Nat → Prop
  | nil : AssignAll capacity first [] first
  | snoc {indices middle last : List Nat} {index : Nat}
      (before : AssignAll capacity first indices middle) (next : Assign capacity middle index last) :
      AssignAll capacity first (indices ++ [index]) last

/-- The free places of all servers. -/
def free (capacity : Nat) (loads : List Nat) : Nat := (loads.map fun load => capacity - load).sum

/-- A changed entry exchanges its share of a sum. -/
theorem sum_map_set (value : Nat → Nat) {loads : List Nat} {index load : Nat}
    (found : loads[index]? = some load) (after : Nat) :
    ((loads.set index after).map value).sum + value load = (loads.map value).sum + value after := by
  induction loads generalizing index with
  | nil => cases found
  | cons head tail ih =>
      cases index with
      | zero =>
          obtain rfl : head = load := by simpa using found
          simp only [List.set_cons_zero, List.map_cons, List.sum_cons]
          ring
      | succ index =>
          have inner : tail[index]? = some load := by simpa using found
          have rest := ih inner
          simp only [List.set_cons_succ, List.map_cons, List.sum_cons]
          omega

/-- Full servers have no free place. -/
theorem free_of_full {capacity : Nat} {loads : List Nat} (full : ∀ load ∈ loads, capacity ≤ load) :
    free capacity loads = 0 := by
  refine List.sum_eq_zero fun share inside => ?_
  obtain ⟨load, member, rfl⟩ := List.mem_map.mp inside
  exact Nat.sub_eq_zero_of_le (full load member)

variable {capacity : Nat} {first last indices : List Nat}

/-- No job is assigned above the capacity. -/
theorem AssignAll.le_capacity (all : AssignAll capacity first indices last) (positive : 0 < capacity)
    (within : ∀ load ∈ first, load ≤ capacity) : ∀ load ∈ last, load ≤ capacity := by
  induction all with
  | nil => exact within
  | snoc _ next ih =>
      intro load member
      cases next with
      | least _ room _ =>
          rcases List.mem_or_eq_of_mem_set member with old | rfl
          · exact ih load old
          · exact room
      | fresh _ =>
          rcases List.mem_append.mp member with old | new
          · exact ih load old
          · rw [List.mem_singleton.mp new]
            exact positive

/-- The first servers keep their places. -/
theorem AssignAll.length_le (all : AssignAll capacity first indices last) :
    first.length ≤ last.length := by
  induction all with
  | nil => exact le_rfl
  | snoc _ next ih =>
      cases next with
      | least => simpa using ih
      | fresh => simpa using Nat.le_succ_of_le ih

/-- Every job goes to a server that exists in the end. -/
theorem AssignAll.lt_length (all : AssignAll capacity first indices last) :
    ∀ index ∈ indices, index < last.length := by
  induction all with
  | nil => nofun
  | @snoc indices middle last index _ next ih =>
      intro other member
      have grown : middle.length ≤ last.length ∧ index < last.length := by
        cases next with
        | least found _ _ => simpa using (List.getElem?_eq_some_iff.mp found).1
        | fresh _ => simp
      rcases List.mem_append.mp member with old | new
      · exact (ih other old).trans_le grown.1
      · rw [List.mem_singleton.mp new]
        exact grown.2

/-- The load of a server grows by the number of its jobs. -/
theorem AssignAll.load_eq (all : AssignAll capacity first indices last) (index : Nat) :
    last.getD index 0 = first.getD index 0 + indices.count index := by
  induction all with
  | nil => rfl
  | @snoc indices middle last chosen _ next ih =>
      rw [List.count_append, ← Nat.add_assoc, ← ih]
      cases next with
      | @least _ load found _ _ =>
          by_cases same : chosen = index
          · subst same
            have inside := (List.getElem?_eq_some_iff.mp found).1
            rw [List.getD_eq_getElem?_getD, List.getD_eq_getElem?_getD, found,
              List.getElem?_set_self inside, List.count_singleton_self]
            rfl
          · simp [List.getD_eq_getElem?_getD, same]
      | fresh _ =>
          rcases Nat.lt_trichotomy index middle.length with below | rfl | above
          · have other : middle.length ≠ index := by omega
            simp [List.getD_eq_getElem?_getD, List.getElem?_append_left below, other]
          · simp [List.getD_eq_getElem?_getD]
          · have other : middle.length ≠ index := by omega
            have outside : middle[index]? = none := List.getElem?_eq_none (by omega)
            have beyond : (middle ++ [1])[index]? = none := List.getElem?_eq_none (by
              rw [List.length_append, List.length_singleton]
              omega)
            simp [List.getD_eq_getElem?_getD, outside, beyond, other]

/-- The places are accounted for, and after the first new server never a whole server is free. -/
theorem AssignAll.free_add (all : AssignAll capacity first indices last) (positive : 0 < capacity) :
    ∃ opened, last.length = first.length + opened ∧
      free capacity last + indices.length = free capacity first + opened * capacity ∧
      (opened = 0 ∨ free capacity last < capacity) := by
  induction all with
  | nil => exact ⟨0, rfl, by simp, .inl rfl⟩
  | @snoc indices middle last chosen _ next ih =>
      obtain ⟨opened, length, account, few⟩ := ih
      cases next with
      | @least _ load found room _ =>
          have exchanged := sum_map_set (fun load => capacity - load) found (load + 1)
          have fewer : free capacity (middle.set chosen (load + 1)) + 1 = free capacity middle := by
            unfold free
            omega
          refine ⟨opened, by simpa using length, ?_, few.imp id fun few => by omega⟩
          rw [List.length_append, List.length_singleton]
          omega
      | fresh full =>
          have none_left := free_of_full full
          have left : free capacity (middle ++ [1]) = capacity - 1 := by
            simp only [free, List.map_append, List.sum_append, List.map_singleton,
              List.sum_singleton] at none_left ⊢
            omega
          refine ⟨opened + 1, by simp [length, Nat.add_assoc], ?_, .inr (by omega)⟩
          rw [List.length_append, List.length_singleton, Nat.succ_mul]
          omega

/-- Only the jobs without a free place open new servers, and each new server takes all it can. -/
theorem AssignAll.length_eq (all : AssignAll capacity first indices last) (positive : 0 < capacity) :
    last.length = first.length + (indices.length - free capacity first) ⌈/⌉ capacity := by
  obtain ⟨opened, length, account, few⟩ := all.free_add positive
  suffices opened = (indices.length - free capacity first) ⌈/⌉ capacity by rw [length, this]
  rw [Nat.ceilDiv_eq_add_pred_div]
  symm
  rcases few with rfl | few
  · rw [Nat.div_eq_zero_iff]
    omega
  · cases opened with
    | zero =>
        rw [Nat.div_eq_zero_iff]
        omega
    | succ opened =>
        -- the last new server has at least one job
        rw [Nat.succ_mul] at account
        have split : indices.length - free capacity first + (capacity - 1) =
            capacity - 1 - free capacity last + capacity * (opened + 1) := by
          rw [Nat.mul_succ, Nat.mul_comm]
          omega
        rw [Nat.add_sub_assoc positive, split, Nat.add_mul_div_left _ _ positive,
          Nat.div_eq_of_lt (by omega), Nat.zero_add]

/-- A server with a new job exceeds no first server with room by more than one. -/
theorem AssignAll.balanced (all : AssignAll capacity first indices last) {index other : Nat}
    (member : index ∈ indices) {load : Nat} (found : last[index]? = some load)
    (old : other < first.length) {least : Nat} (compared : last[other]? = some least)
    (room : least < capacity) : load ≤ least + 1 := by
  induction all generalizing load least with
  | nil => cases member
  | @snoc indices middle last chosen before next ih =>
      cases next with
      | @least _ _ chosenFound _ minimal =>
          have inside := (List.getElem?_eq_some_iff.mp chosenFound).1
          have receivers := List.mem_append.mp member
          by_cases toChosen : chosen = index
          · subst toChosen
            rw [List.getElem?_set_self inside] at found
            cases found
            by_cases same : chosen = other
            · subst same
              rw [List.getElem?_set_self inside] at compared
              cases compared
              omega
            · rw [List.getElem?_set_ne same] at compared
              have smallest := minimal least (List.mem_of_getElem? compared) room
              omega
          · have earlier : index ∈ indices :=
              receivers.resolve_right fun last => toChosen (List.mem_singleton.mp last).symm
            rw [List.getElem?_set_ne toChosen] at found
            by_cases same : chosen = other
            · subst same
              rw [List.getElem?_set_self inside] at compared
              cases compared
              have below := ih earlier found chosenFound (by omega)
              omega
            · rw [List.getElem?_set_ne same] at compared
              exact ih earlier found compared room
      | fresh full =>
          have inside : other < middle.length := old.trans_le before.length_le
          rw [List.getElem?_append_left inside] at compared
          have filled := full least (List.mem_of_getElem? compared)
          omega

end Plazza.Foundation
