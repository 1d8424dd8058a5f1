import Plazza.Construction.StockClient
import Mathlib.Data.List.Count
import Mathlib.Data.List.Nodup

namespace Plazza

namespace Stock

/-- The units of an ingredient without a key are zero. -/
def units (stock : Stock) (ingredient : Ingredient) : Nat := (stock ingredient).getD 0

/-- An available ingredient has a key and a unit. -/
theorem allAvailable_iff {stock : Stock} {needed : List Ingredient} :
    stock.allAvailable needed = true ↔ ∀ ingredient ∈ needed, 0 < stock.units ingredient := by
  rw [allAvailable, List.all_eq_true]
  refine forall₂_congr fun ingredient _ => ?_
  cases found : stock ingredient with
  | none => simp [units, found]
  | some count => simp [units, found]

/-- A unit that is there is taken without a wrap. -/
theorem takeUnit_eq {stock : Stock} {ingredient : Ingredient}
    (fits : ∀ ingredient units, stock ingredient = some units → units < 2 ^ 64)
    (enough : 0 < stock.units ingredient) :
    stock.takeUnit ingredient =
      Function.update stock ingredient (some (stock.units ingredient - 1)) := by
  obtain ⟨count, found⟩ : ∃ count, stock ingredient = some count := by
    cases found : stock ingredient with
    | none => simp [units, found] at enough
    | some count => exact ⟨count, rfl⟩
  have small := fits ingredient count found
  have here : (stock ingredient).getD 0 = count := by rw [found]; rfl
  rw [units, here] at enough ⊢
  have taken : (count + (2 ^ 64 - 1)) % 2 ^ 64 = count - 1 := by omega
  rw [takeUnit, here, taken]

/-- A list that the units cover is taken unit by unit without a wrap. -/
theorem units_consume {stock : Stock}
    (fits : ∀ ingredient units, stock ingredient = some units → units < 2 ^ 64)
    {needed : List Ingredient}
    (enough : ∀ ingredient ∈ needed, needed.count ingredient ≤ stock.units ingredient)
    (ingredient : Ingredient) :
    (stock.consume needed).units ingredient + needed.count ingredient = stock.units ingredient := by
  induction needed generalizing stock with
  | nil => rfl
  | cons taken rest ih =>
      have first := enough taken List.mem_cons_self
      rw [List.count_cons_self] at first
      have one := takeUnit_eq fits (by omega : 0 < stock.units taken)
      have left : ∀ other, (stock.takeUnit taken).units other =
          stock.units other - if other = taken then 1 else 0 := by
        intro other
        rw [one]
        by_cases same : other = taken
        · subst same
          simp [units]
        · simp [units, same]
      have later : ∀ other ∈ rest, rest.count other ≤ (stock.takeUnit taken).units other := by
        intro other member
        have bounded := enough other (List.mem_cons_of_mem _ member)
        rw [List.count_cons] at bounded
        rw [left]
        by_cases same : other = taken
        · subst same
          simp at bounded ⊢
          omega
        · simp [same, Ne.symm same] at bounded ⊢
          omega
      have rest := ih (Stock.takeUnit_fits fits taken) later
      have total := left ingredient
      change ((stock.takeUnit taken).consume _).units ingredient + _ = _
      rw [List.count_cons]
      by_cases same : ingredient = taken
      · subst same
        simp at total ⊢
        omega
      · simp [same, Ne.symm same] at total ⊢
        omega

/-- No key appears or vanishes. -/
theorem isSome_consume {stock : Stock} {needed : List Ingredient}
    (keys : ∀ ingredient ∈ needed, (stock ingredient).isSome) (ingredient : Ingredient) :
    (stock.consume needed ingredient).isSome = (stock ingredient).isSome := by
  induction needed generalizing stock with
  | nil => rfl
  | cons taken rest ih =>
      have same : ∀ other, (stock.takeUnit taken other).isSome = (stock other).isSome := by
        intro other
        by_cases same : other = taken
        · subst same
          simp [takeUnit, keys other List.mem_cons_self]
        · simp [takeUnit, Function.update_of_ne same]
      change ((stock.takeUnit taken).consume rest ingredient).isSome = _
      rw [ih fun other member => (same other).trans (keys other (List.mem_cons_of_mem _ member)),
        same]

end Stock

namespace IngredientStock

/-- A call returns false and changes nothing or consumes an available list. -/
theorem waitAndConsumeIngredients_cases {room next : IngredientStock} {needed : List Ingredient}
    {consumed : Bool} (returned : room.waitAndConsumeIngredients needed = some (consumed, next)) :
    consumed = false ∧ next = room ∨ consumed = true ∧
      room.stock.allAvailable needed = true ∧ next.stock = room.stock.consume needed := by
  unfold waitAndConsumeIngredients at returned
  split at returned
  · cases returned
  · rename_i noWait
    split at returned <;> cases returned
    · exact .inl ⟨rfl, rfl⟩
    · rename_i running
      refine .inr ⟨rfl, ?_, rfl⟩
      simpa [Bool.eq_true_of_not_eq_false (by simpa using running)] using noWait

/-- The stock that holds one unit of each ingredient. -/
def single : IngredientStock where
  stock _ := some 1
  running := true
  fits := by
    intro _ units found
    rw [← Option.some.inj found]
    exact Nat.one_lt_two_pow (by decide)

end IngredientStock

end Plazza
