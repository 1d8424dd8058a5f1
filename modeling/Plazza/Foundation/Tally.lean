import Mathlib.Algebra.BigOperators.Fin
import Mathlib.Algebra.BigOperators.Group.Finset.Piecewise

namespace Plazza.Foundation

variable {Index Value Total : Type} [DecidableEq Index] [AddCommMonoid Total]

/-- A change at one index of the range exchanges one summand. -/
theorem sum_update_on {range : Finset Index} (weight : Value → Total) (values : Index → Value)
    {index : Index} (member : index ∈ range) (value : Value) :
    (∑ other ∈ range, weight (Function.update values index value other)) + weight (values index) =
      (∑ other ∈ range, weight (values other)) + weight value := by
  have others : ∑ other ∈ range.erase index, weight (Function.update values index value other) =
      ∑ other ∈ range.erase index, weight (values other) := by
    apply Finset.sum_congr rfl
    intro other member
    rw [Function.update_of_ne (Finset.ne_of_mem_erase member)]
  rw [← Finset.sum_erase_add _ _ member, others, Function.update_self,
    ← Finset.sum_erase_add _ (fun other => weight (values other)) member]
  exact add_right_comm _ _ _

/-- A change that keeps the weight keeps the sum. -/
theorem sum_update_same_on {range : Finset Index} (weight : Value → Total) (values : Index → Value)
    (index : Index) (value : Value) (same : weight value = weight (values index)) :
    (∑ other ∈ range, weight (Function.update values index value other)) =
      ∑ other ∈ range, weight (values other) := by
  apply Finset.sum_congr rfl
  intro other _
  by_cases equal : other = index
  · subst other; simpa using same
  · rw [Function.update_of_ne equal]

/-- A change at one index exchanges one summand. -/
theorem sum_update [Fintype Index] (weight : Value → Total) (values : Index → Value) (index : Index)
    (value : Value) :
    (∑ other, weight (Function.update values index value other)) + weight (values index) =
      (∑ other, weight (values other)) + weight value :=
  sum_update_on weight values (Finset.mem_univ index) value

/-- A change that keeps the weight keeps the sum. -/
theorem sum_update_same [Fintype Index] (weight : Value → Total) (values : Index → Value)
    (index : Index) (value : Value) (same : weight value = weight (values index)) :
    (∑ other, weight (Function.update values index value other)) =
      ∑ other, weight (values other) :=
  sum_update_same_on weight values index value same

end Plazza.Foundation
