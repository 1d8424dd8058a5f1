import Mathlib
import Plazza.Construction.Parser

namespace Plazza.Parser

/-- The order language names each type by one word. -/
def typeWord : PizzaType → String
  | .regina => "regina"
  | .margarita => "margarita"
  | .americana => "americana"
  | .fantasia => "fantasia"

/-- The order language names each size by one word. -/
def sizeWord : PizzaSize → String
  | .s => "s"
  | .m => "m"
  | .l => "l"
  | .xl => "xl"
  | .xxl => "xxl"

/-- A decimal numeral starts with a digit other than zero. -/
structure Numeral (digits : Text) : Prop where
  nonempty : digits ≠ []
  decimal : ∀ digit ∈ digits, digit.isDigit
  leading : digits.head? ≠ some '0'

/-- A number is the letter x in either case and the numeral of a positive 64-bit quantity. -/
def Quantifies (number : Text) (quantity : Nat) : Prop :=
  ∃ mark digits, number = mark :: digits ∧ mark.toLower = 'x' ∧ Numeral digits ∧
    Nat.ofDigitChars 10 digits 0 = quantity ∧ 1 ≤ quantity ∧ quantity ≤ 2 ^ 64 - 1

/-- The type token is accepted exactly when it is the word of the type in any case. -/
theorem parseType_eq_ok_iff {token : Text} {type : PizzaType} :
    parseType token = .ok type ↔ toLower token = (typeWord type).toList := by
  unfold parseType
  constructor
  · intro parsed
    simp only at parsed
    split_ifs at parsed <;> cases parsed <;> assumption
  · intro named
    rw [named]
    cases type <;> rfl

/-- The size token is accepted exactly when it is the word of the size in any case. -/
theorem parseSize_eq_ok_iff {token : Text} {size : PizzaSize} :
    parseSize token = .ok size ↔ toLower token = (sizeWord size).toList := by
  unfold parseSize
  constructor
  · intro parsed
    simp only at parsed
    split_ifs at parsed <;> cases parsed <;> assumption
  · intro named
    rw [named]
    cases size <;> rfl

/-- A letter is not a digit. -/
theorem isDigit_of_isAlpha {character : Char} (alpha : character.isAlpha) :
    character.isDigit = false := by
  simp only [Char.isAlpha, Char.isUpper, Char.isLower, Char.isDigit, UInt32.le_iff_toNat_le,
    Char.toNat_val] at alpha ⊢
  simp at alpha ⊢
  omega

/-- The case of a character does not change whether it is a digit. -/
theorem isDigit_toLower (character : Char) : character.toLower.isDigit = character.isDigit := by
  by_cases alpha : character.isAlpha
  · rw [isDigit_of_isAlpha alpha, isDigit_of_isAlpha (by rwa [Char.isAlpha_toLower_eq_isAlpha])]
  · have lower : ¬character.isUpper := fun upper => alpha (by rw [Char.isAlpha, upper, Bool.true_or])
    rw [Char.toLower_eq_of_not_isUpper lower]

/-- A digit has no case. -/
theorem toLower_of_isDigit {character : Char} (digit : character.isDigit) :
    character.toLower = character := by
  refine Char.toLower_eq_of_not_isUpper fun upper => ?_
  have alpha : character.isAlpha := by rw [Char.isAlpha, upper, Bool.true_or]
  rw [isDigit_of_isAlpha alpha] at digit
  cases digit

/-- A whitespace character is neither a letter nor a digit. -/
theorem plain_of_isSpace {character : Char} (space : isSpace character) :
    character.isAlpha = false ∧ character.isDigit = false := by
  have listed := of_decide_eq_true space
  simp only [List.mem_cons, List.not_mem_nil, or_false] at listed
  rcases listed with rfl | rfl | rfl | rfl | rfl | rfl <;> decide

/-- The range from one to nine has the digits other than zero. -/
theorem range_iff {character : Char} :
    range '1' '9' character ↔ character.isDigit ∧ character ≠ '0' := by
  rw [range, Bool.and_eq_true, decide_eq_true_iff, decide_eq_true_iff, Char.isDigit_iff_toNat,
    Char.le_def, Char.le_def, UInt32.le_iff_toNat_le, UInt32.le_iff_toNat_le, Ne,
    ← Char.toNat_inj]
  simp only [Char.toNat_val, Char.reduceToNat]
  omega

/-- A numeral has a positive value. -/
theorem Numeral.pos {digits : Text} (numeral : Numeral digits) :
    1 ≤ Nat.ofDigitChars 10 digits 0 := by
  cases digits with
  | nil => exact absurd rfl numeral.nonempty
  | cons first others =>
      have digit := numeral.decimal first List.mem_cons_self
      have leading : first ≠ '0' := fun zero => numeral.leading (by rw [zero, List.head?_cons])
      rw [Char.isDigit_iff_toNat] at digit
      rw [Ne, ← Char.toNat_inj] at leading
      rw [Nat.ofDigitChars_cons, Nat.ofDigitChars_eq_ofDigitChars_zero]
      have scale : 0 < 10 ^ others.length := Nat.pow_pos (by decide)
      have positive : 0 < 10 * 0 + (first.toNat - '0'.toNat) := by
        simp only [Char.reduceToNat] at digit leading ⊢
        omega
      have product := Nat.mul_pos scale positive
      omega

/-- The conversion of a numeral is its value unless it is out of range. -/
theorem stoul_numeral {digits : Text} (numeral : Numeral digits) :
    stoul digits = if 2 ^ 64 ≤ Nat.ofDigitChars 10 digits 0 then none
      else some (Nat.ofDigitChars 10 digits 0) := by
  obtain ⟨first, others, rfl⟩ := List.exists_cons_of_ne_nil numeral.nonempty
  have digit := numeral.decimal first List.mem_cons_self
  have whole : (first :: others).takeWhile Char.isDigit = first :: others :=
    List.takeWhile_eq_self_iff.mpr numeral.decimal
  have spaceless : isSpace first = false := by
    by_contra space
    rw [(plain_of_isSpace (Bool.of_not_eq_false space)).2] at digit
    cases digit
  have unsigned : ∀ sign : Char, sign.isDigit = false → first ≠ sign := by
    rintro sign other rfl
    exact absurd digit (by rw [other]; decide)
  have plus := unsigned '+' (by decide)
  have minus := unsigned '-' (by decide)
  simp only [stoul, List.dropWhile_cons, spaceless, List.head?_cons, Option.some.injEq, plus, minus,
    whole, Bool.false_eq_true, if_false, or_self, List.isEmpty_cons, false_or]

/-- The checks on the characters after the mark accept exactly the numerals. -/
theorem numeral_iff {digits : Text} :
    ((toLower digits)[0]?.any (range '1' '9') ∧ ((toLower digits).drop 1).all Char.isDigit) ↔
      Numeral digits := by
  cases digits with
  | nil =>
      constructor
      · rintro ⟨first, _⟩
        cases first
      · intro numeral
        exact absurd rfl numeral.nonempty
  | cons first others =>
      simp only [toLower, List.map_cons, List.getElem?_cons_zero, Option.any_some, List.drop_one,
        List.tail_cons, List.all_map, List.all_eq_true, Function.comp_apply, isDigit_toLower,
        range_iff]
      constructor
      · rintro ⟨⟨digit, positive⟩, decimal⟩
        rw [toLower_of_isDigit digit] at positive
        refine ⟨List.cons_ne_nil _ _, List.forall_mem_cons.mpr ⟨digit, decimal⟩, ?_⟩
        rwa [List.head?_cons, Ne, Option.some.injEq]
      · rintro ⟨_, decimal, leading⟩
        obtain ⟨digit, decimal⟩ := List.forall_mem_cons.mp decimal
        rw [List.head?_cons, Ne, Option.some.injEq] at leading
        exact ⟨⟨digit, by rwa [toLower_of_isDigit digit]⟩, decimal⟩

/-- A numeral has no case. -/
theorem Numeral.toLower_eq {digits : Text} (numeral : Numeral digits) : toLower digits = digits :=
  (List.map_congr_left fun digit member => toLower_of_isDigit (numeral.decimal digit member)).trans
    (List.map_id digits)

/-- The number token is accepted exactly when it names the quantity. -/
theorem parseNumber_eq_ok_iff {token : Text} {quantity : Nat} :
    parseNumber token = .ok quantity ↔ Quantifies token quantity := by
  cases token with
  | nil =>
      constructor
      · intro parsed
        cases parsed
      · rintro ⟨_, _, none, _⟩
        cases none
  | cons mark digits =>
      have checks := @numeral_iff digits
      have shape : Quantifies (mark :: digits) quantity ↔ mark.toLower = 'x' ∧ Numeral digits ∧
          Nat.ofDigitChars 10 digits 0 = quantity ∧ 1 ≤ quantity ∧ quantity ≤ 2 ^ 64 - 1 := by
        constructor
        · rintro ⟨_, _, same, named⟩
          cases same
          exact named
        · exact fun named => ⟨mark, digits, rfl, named⟩
      rw [shape]
      have second : (toLower (mark :: digits))[1]? = (toLower digits)[0]? := rfl
      have later : (toLower (mark :: digits)).drop 2 = (toLower digits).drop 1 := rfl
      have tail : (toLower (mark :: digits)).drop 1 = toLower digits := rfl
      have first : (toLower (mark :: digits)).head? = some mark.toLower := rfl
      rw [parseNumber, second, later, tail, first]
      by_cases named : mark.toLower = 'x'
      · rw [if_neg (by simp [named])]
        by_cases numeral : Numeral digits
        · obtain ⟨leading, decimal⟩ := checks.mpr numeral
          have positive := numeral.pos
          rw [if_neg (not_not.mpr leading), if_neg (not_not.mpr decimal), numeral.toLower_eq,
            stoul_numeral numeral]
          split_ifs with large
          · simp only [false_iff]
            omega
          · simp only [Except.ok.injEq, named, numeral, true_and]
            omega
        · have failed := mt checks.mp numeral
          by_cases leading : (toLower digits)[0]?.any (range '1' '9')
          · rw [if_neg (not_not.mpr leading), if_pos fun decimal => failed ⟨leading, decimal⟩]
            simp only [reduceCtorEq, numeral, false_and, and_false]
          · rw [if_pos leading]
            simp only [reduceCtorEq, numeral, false_and, and_false]
      · rw [if_pos (by simp [named])]
        simp only [reduceCtorEq, named, false_and]

end Plazza.Parser
