import Mathlib.Algebra.GroupWithZero.Nat
import Mathlib.Data.List.Basic
import Mathlib.Data.List.Range
import Mathlib.Algebra.BigOperators.Group.List.Basic
import Mathlib.Algebra.Order.BigOperators.Group.List
import Mathlib.Algebra.Order.Group.Nat

namespace Plazza.Foundation

/-- The sum of the first totals. -/
def prefixSum (totals : List Nat) (number : Nat) : Nat := (totals.take number).sum

/-- The numbers of the totals start with one. -/
def numbers (totals : List Nat) : List Nat := List.range' 1 totals.length

/-- The numbers of the totals that the count has reached. -/
def closedNumbers (totals : List Nat) (count : Nat) : List Nat :=
  (numbers totals).filter fun number => prefixSum totals number ≤ count

/-- The numbers of the totals that the count has not reached. -/
def openNumbers (totals : List Nat) (count : Nat) : List Nat :=
  (numbers totals).filter fun number => count < prefixSum totals number

theorem numbers_append (closed opened : List Nat) :
    numbers (closed ++ opened) =
      numbers closed ++ List.range' (closed.length + 1) opened.length := by
  rw [numbers, numbers, List.length_append, ← List.range'_append_1, Nat.add_comm 1]

theorem prefixSum_append_of_le {closed opened : List Nat} {number : Nat}
    (within : number ≤ closed.length) :
    prefixSum (closed ++ opened) number = prefixSum closed number := by
  rw [prefixSum, prefixSum, List.take_append_of_le_length within]

theorem prefixSum_le (totals : List Nat) (number : Nat) : prefixSum totals number ≤ totals.sum := by
  conv_rhs => rw [← List.take_append_drop number totals, List.sum_append]
  exact Nat.le_add_right _ _

/-- The first open number adds the first open total to the closed ones. -/
theorem prefixSum_first (closed rest : List Nat) (total : Nat) :
    prefixSum (closed ++ total :: rest) (closed.length + 1) = closed.sum + total := by
  rw [prefixSum, List.take_length_add_append, List.take_succ_cons, List.take_zero, List.sum_append,
    List.sum_singleton]

/-- A later number sums up at least the first open total and the closed ones. -/
theorem le_prefixSum (closed rest : List Nat) (total : Nat) {number : Nat}
    (later : closed.length < number) :
    closed.sum + total ≤ prefixSum (closed ++ total :: rest) number := by
  obtain ⟨more, rfl⟩ := Nat.exists_eq_add_of_lt later
  rw [prefixSum, Nat.add_assoc, List.take_length_add_append, List.take_succ_cons, List.sum_append,
    List.sum_cons]
  omega

/-- The totals after the first ones are numbered from there on. -/
theorem map_zipIdx {Entry : Type} (entry : Nat → Nat → Entry) (before rest : List Nat) :
    ((rest.zipIdx (before.length + 1)).map fun item => entry item.2 item.1) =
      (List.range' (before.length + 1) rest.length).map fun number =>
        entry number ((before ++ rest).getD (number - 1) 0) := by
  induction rest generalizing before with
  | nil => rfl
  | cons total rest ih =>
      have tail := ih (before ++ [total])
      rw [List.length_append, List.length_singleton, List.append_assoc, List.singleton_append] at tail
      have first : (before ++ total :: rest).getD (before.length + 1 - 1) 0 = total := by simp
      rw [List.zipIdx_cons, List.map_cons, List.length_cons, List.range'_succ, List.map_cons, first,
        tail]

section Split

variable {closed opened : List Nat} {count : Nat} (reached : closed.sum ≤ count)
  (short : ∀ total ∈ opened.head?, count < closed.sum + total)

include short in
/-- The count is short of every open number. -/
theorem lt_prefixSum {number : Nat}
    (member : number ∈ List.range' (closed.length + 1) opened.length) :
    count < prefixSum (closed ++ opened) number := by
  rw [List.mem_range'_1] at member
  cases opened with
  | nil => simp only [List.length_nil] at member; omega
  | cons total rest =>
      exact lt_of_lt_of_le (short total rfl) (le_prefixSum closed rest total (by omega))

include reached in
/-- The count has reached every closed number. -/
theorem prefixSum_reached {number : Nat} (member : number ∈ numbers closed) :
    prefixSum (closed ++ opened) number ≤ count := by
  rw [numbers, List.mem_range'_1] at member
  rw [prefixSum_append_of_le (by omega)]
  exact le_trans (prefixSum_le closed number) reached

include reached short in
/-- A count between the closed totals and the first open one splits the numbers there. -/
theorem closedNumbers_append : closedNumbers (closed ++ opened) count = numbers closed := by
  rw [closedNumbers, numbers_append, List.filter_append, List.filter_eq_self.mpr,
    List.filter_eq_nil_iff.mpr, List.append_nil]
  · intro number member
    simpa using lt_prefixSum short member
  · intro number member
    simpa using prefixSum_reached reached member

include reached short in
theorem openNumbers_append : openNumbers (closed ++ opened) count =
    List.range' (closed.length + 1) opened.length := by
  rw [openNumbers, numbers_append, List.filter_append, List.filter_eq_nil_iff.mpr,
    List.filter_eq_self.mpr, List.nil_append]
  · intro number member
    simpa using lt_prefixSum short member
  · intro number member
    simpa using prefixSum_reached reached member

end Split

end Plazza.Foundation
