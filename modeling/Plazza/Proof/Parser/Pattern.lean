import Plazza.Proof.Parser.Tokens

namespace Plazza.Parser

open Foundation Regex

/-- Whitespace may stand around each of the three tokens of a segment. -/
def Splits (segment word size number : Text) : Prop :=
  ∃ lead gap space trail : Text, (∀ character ∈ lead, isSpace character) ∧
    (∀ character ∈ gap, isSpace character) ∧ (∀ character ∈ space, isSpace character) ∧
    (∀ character ∈ trail, isSpace character) ∧
    segment = lead ++ (word ++ (gap ++ (size ++ (space ++ (number ++ trail)))))

/-- The texts with a property form a language. -/
def texts (property : Text → Prop) : Language Char := {text | property text}

/-- The texts of the group for the type. -/
def IsWord (word : Text) : Prop := word ≠ [] ∧ ∀ character ∈ word, character.isAlpha

/-- The texts of the group for the size. -/
def IsSize (text : Text) : Prop := ∃ size, toLower text = (sizeWord size).toList

/-- The texts of the group for the quantity. -/
def IsNumber (number : Text) : Prop :=
  ∃ mark digits, number = mark :: digits ∧ mark.toLower = 'x' ∧ Numeral digits

theorem letter_eq (character : Char) : letter character = character.isAlpha := by
  have cases : ∀ other : Char,
      (range 'A' 'Z' other || range 'a' 'z' other) = other.isAlpha := by
    intro other
    simp [range, Char.isAlpha, Char.isUpper, Char.isLower, Char.le_def]
  rw [letter, icase, cases, cases, Char.isAlpha_toLower_eq_isAlpha,
    Char.isAlpha_toUpper_eq_isAlpha, Bool.or_self]

/-- Without regard to case a character equals another one when their lower cases agree. -/
theorem icase_eq_iff {expected character : Char} :
    icase (· == expected) character ↔ character.toLower = expected.toLower := by
  rw [icase, Bool.or_eq_true, beq_iff_eq, beq_iff_eq]
  constructor
  · rintro (rfl | rfl)
    · rw [Char.toLower_toLower_eq_toLower]
    · rw [Char.toLower_toUpper_eq_toLower]
  · intro same
    by_cases upper : expected.isUpper
    · right
      rw [← Char.toUpper_toLower_eq_toUpper, same, Char.toUpper_toLower_eq_toUpper,
        Char.toUpper_eq_of_not_isLower (Char.not_isLower_of_isUpper upper)]
    · left
      rw [same, Char.toLower_eq_of_not_isUpper upper]

/-- A range of digits accepts only digits. -/
theorem isDigit_of_range {first last character : Char} (low : '0' ≤ first) (high : last ≤ '9')
    (inside : range first last character) : character.isDigit := by
  rw [range, Bool.and_eq_true, decide_eq_true_iff, decide_eq_true_iff] at inside
  rw [Char.isDigit, Bool.and_eq_true, decide_eq_true_iff, decide_eq_true_iff]
  exact ⟨low.trans inside.1, inside.2.trans high⟩

/-- A range of digits has no case. -/
theorem icase_digits (first last : Char) (low : '0' ≤ first) (high : last ≤ '9')
    (character : Char) : icase (range first last) character = range first last character := by
  have upper : character.toUpper.isDigit = character.isDigit := by
    rw [← isDigit_toLower character.toUpper, Char.toLower_toUpper_eq_toLower, isDigit_toLower]
  by_cases digit : character.isDigit
  · have same : character.toUpper = character := by
      refine Char.toUpper_eq_of_not_isLower fun lower => ?_
      rw [isDigit_of_isAlpha (by rw [Char.isAlpha, lower, Bool.or_true])] at digit
      cases digit
    rw [icase, toLower_of_isDigit digit, same, Bool.or_self]
  · have outside : ∀ other : Char, other.isDigit = character.isDigit →
        range first last other = false := by
      intro other same
      by_contra inside
      exact digit (same ▸ isDigit_of_range low high (Bool.of_not_eq_false inside))
    rw [icase, outside _ (isDigit_toLower character), outside _ upper, outside _ rfl, Bool.or_self]

/-- The type pattern reads the words. -/
theorem reads_typePattern : typePattern.Reads (texts IsWord) := by
  refine ((reads_set letter).seq ((reads_set letter).star false)).congr fun word => ?_
  simp only [Language.mem_mul, mem_kstar_set, letter_eq]
  constructor
  · rintro ⟨_, ⟨first, alpha, rfl⟩, others, alphas, rfl⟩
    rw [letter_eq] at alpha
    exact ⟨List.cons_ne_nil _ _, List.forall_mem_cons.mpr ⟨alpha, alphas⟩⟩
  · rintro ⟨nonempty, alphas⟩
    obtain ⟨first, others, rfl⟩ := List.exists_cons_of_ne_nil nonempty
    obtain ⟨alpha, alphas⟩ := List.forall_mem_cons.mp alphas
    exact ⟨[first], ⟨first, by rwa [letter_eq], rfl⟩, others, alphas, rfl⟩

/-- A literal reads its text in any case. -/
theorem reads_literal (word : String) :
    (literal word).Reads (texts fun text => toLower text = toLower word.toList) := by
  refine (reads_sequence _).congr fun text => ?_
  change List.Forall₂ _ _ _ ↔ text.map Char.toLower = word.toList.map Char.toLower
  rw [eq_comm (b := word.toList.map _), ← List.forall₂_eq_eq_eq, List.forall₂_map_left_iff,
    List.forall₂_map_left_iff, List.forall₂_map_right_iff]
  constructor
  · exact List.Forall₂.imp fun _ _ same => (icase_eq_iff.mp same).symm
  · exact List.Forall₂.imp fun _ _ same => icase_eq_iff.mpr same.symm

/-- The size pattern reads the words of the sizes in any case. -/
theorem reads_sizePattern : sizePattern.Reads (texts IsSize) := by
  have reads := (reads_literal "XXL").alt <| (reads_literal "XL").alt <| (reads_literal "S").alt <|
    (reads_literal "M").alt (reads_literal "L")
  refine reads.congr fun text => ?_
  constructor
  · rintro (named | named | named | named | named)
    · exact ⟨.xxl, named⟩
    · exact ⟨.xl, named⟩
    · exact ⟨.s, named⟩
    · exact ⟨.m, named⟩
    · exact ⟨.l, named⟩
  · rintro ⟨size, named⟩
    cases size with
    | s => exact .inr (.inr (.inl named))
    | m => exact .inr (.inr (.inr (.inl named)))
    | l => exact .inr (.inr (.inr (.inr named)))
    | xl => exact .inr (.inl named)
    | xxl => exact .inl named

/-- The number pattern reads the letter x in any case and a numeral. -/
theorem reads_numberPattern : numberPattern.Reads (texts IsNumber) := by
  have reads := (reads_literal "x").seq
    ((reads_set (icase (range '1' '9'))).seq ((reads_set (icase (range '0' '9'))).star true))
  refine reads.congr fun number => ?_
  have positive := icase_digits '1' '9' (by decide) (by decide)
  have digits := icase_digits '0' '9' (by decide) (by decide)
  have decimal : ∀ character, range '0' '9' character = character.isDigit := fun _ => rfl
  simp only [Language.mem_mul, mem_kstar_set, digits, decimal]
  constructor
  · rintro ⟨mark, named, _, ⟨_, ⟨first, leading, rfl⟩, others, decimal, rfl⟩, rfl⟩
    obtain ⟨character, rfl, mark⟩ := List.map_eq_singleton_iff.mp named
    obtain ⟨digit, nonzero⟩ := range_iff.mp ((positive first).symm.trans leading)
    refine ⟨character, first :: others, rfl, mark, List.cons_ne_nil _ _, ?_, ?_⟩
    · exact List.forall_mem_cons.mpr ⟨digit, decimal⟩
    · rwa [List.head?_cons, Ne, Option.some.injEq]
  · rintro ⟨mark, digits, rfl, named, numeral⟩
    obtain ⟨first, others, rfl⟩ := List.exists_cons_of_ne_nil numeral.nonempty
    obtain ⟨digit, decimal⟩ := List.forall_mem_cons.mp numeral.decimal
    have nonzero := numeral.leading
    rw [List.head?_cons, Ne, Option.some.injEq] at nonzero
    refine ⟨[mark], ?_, first :: others, ⟨[first], ⟨first, ?_, rfl⟩, others, decimal, rfl⟩, rfl⟩
    · exact congrArg (fun letter => [letter]) named
    · rw [positive]
      exact range_iff.mpr ⟨digit, nonzero⟩

/-- The subexpression for whitespace reads it. -/
theorem reads_spaces : spaces.Reads (texts fun text => ∀ character ∈ text, isSpace character) :=
  ((reads_set isSpace).star true).congr fun _ => mem_kstar_set

end Plazza.Parser
