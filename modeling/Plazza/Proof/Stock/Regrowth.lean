import Plazza.Proof.Stock.Consumption
import Plazza.Proof.Stock.Sleepers
import Mathlib.Data.Fintype.Card

namespace Plazza.Stock

/-- The ingredients that wrap to zero within the number of ticks. -/
def wrapping (stock : Stock) (ticks : Nat) : Finset (Fin 9) :=
  Finset.univ.filter fun index => 2 ^ 64 ≤ stock.units (Ingredient.ofIndex index) + ticks

/-- Not every one of the next ticks can wrap an ingredient. -/
def Regrows (stock : Stock) (ticks : Nat) : Prop := (stock.wrapping ticks).card < ticks

/-- There are fewer ingredients than ten. -/
theorem regrows_ten (stock : Stock) : stock.Regrows 10 :=
  Nat.lt_succ_of_le ((Finset.card_le_univ _).trans_eq (Fintype.card_fin 9))

theorem not_regrows_zero (stock : Stock) : ¬stock.Regrows 0 := Nat.not_lt_zero _

/-- A stock with no more units wraps no earlier. -/
theorem Regrows.of_le {stock next : Stock} {ticks : Nat} (regrows : stock.Regrows ticks)
    (less : ∀ ingredient, next.units ingredient ≤ stock.units ingredient) : next.Regrows ticks := by
  refine lt_of_le_of_lt (Finset.card_le_card fun index inside => ?_) regrows
  simp only [wrapping, Finset.mem_filter, Finset.mem_univ, true_and] at inside ⊢
  exact inside.trans (Nat.add_le_add_right (less _) _)

/-- A tick adds a unit to each ingredient and wraps the ones that are full. -/
theorem units_regenerate {stock : Stock} {ingredient : Ingredient}
    (key : (stock ingredient).isSome) :
    stock.regenerate.units ingredient = (stock.units ingredient + 1) % 2 ^ 64 := by
  obtain ⟨count, found⟩ := Option.isSome_iff_exists.mp key
  simp [units, regenerate, found]

/-- A tick that leaves an ingredient without a unit has wrapped it, so fewer can wrap later. -/
theorem Regrows.regenerate {stock : Stock} {ticks : Nat} (regrows : stock.Regrows (ticks + 1))
    (keys : ∀ ingredient, (stock ingredient).isSome)
    (fits : ∀ ingredient units, stock ingredient = some units → units < 2 ^ 64)
    (small : ticks < 2 ^ 64) :
    (∀ ingredient, 0 < stock.regenerate.units ingredient) ∨ stock.regenerate.Regrows ticks := by
  have bounded : ∀ ingredient, stock.units ingredient < 2 ^ 64 := by
    intro ingredient
    obtain ⟨count, found⟩ := Option.isSome_iff_exists.mp (keys ingredient)
    simpa [units, found] using fits ingredient count found
  by_cases all : ∀ ingredient, 0 < stock.regenerate.units ingredient
  · exact .inl all
  obtain ⟨wrapped, empty⟩ := not_forall.mp all
  obtain ⟨first, rfl⟩ := wrapped.exists_index
  have full : stock.units (Ingredient.ofIndex first) + 1 = 2 ^ 64 := by
    have below := bounded (Ingredient.ofIndex first)
    rw [units_regenerate (keys _)] at empty
    omega
  have fewer : stock.regenerate.wrapping ticks ⊂ stock.wrapping (ticks + 1) := by
    refine Finset.ssubset_iff_of_subset (fun index inside => ?_) |>.mpr ⟨first, ?_, ?_⟩
    · have below := bounded (Ingredient.ofIndex index)
      simp only [wrapping, Finset.mem_filter, Finset.mem_univ, true_and,
        units_regenerate (keys _)] at inside ⊢
      omega
    · simp only [wrapping, Finset.mem_filter, Finset.mem_univ, true_and]
      omega
    · simp only [wrapping, Finset.mem_filter, Finset.mem_univ, true_and,
        units_regenerate (keys _), full]
      omega
  exact .inr (Nat.lt_of_lt_of_le (Finset.card_lt_card fewer) (Nat.le_of_lt_succ regrows))

/-- A consumed list only lowers the units. -/
theorem units_consume_le {stock : Stock} {needed : List Ingredient}
    (fits : ∀ ingredient units, stock ingredient = some units → units < 2 ^ 64)
    (nodup : needed.Nodup) (available : stock.allAvailable needed = true) (ingredient : Ingredient) :
    (stock.consume needed).units ingredient ≤ stock.units ingredient := by
  have all := allAvailable_iff.mp available
  have once := List.nodup_iff_count_le_one.mp nodup
  have taken := units_consume fits (fun other member => (once other).trans (all other member))
    ingredient
  omega

end Plazza.Stock
