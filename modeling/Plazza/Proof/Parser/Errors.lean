import Plazza.Proof.Parser.Orders

namespace Plazza.Parser

open Foundation Regex

/-- The captured tokens pass every check of the validators that follow the match. -/
structure Validated (size number : Text) : Prop where
  knownSize : ∃ named, parseSize size = .ok named
  mark : (toLower number).head? = some 'x'
  positive : (toLower number)[1]?.any (range '1' '9') = true
  decimal : ((toLower number).drop 2).all Char.isDigit = true
  conversion : stoul ((toLower number).drop 1) = none ↔
    2 ^ 64 - 1 < Nat.ofDigitChars 10 (number.drop 1) 0

/-- The parser has these messages for its callers. -/
inductive Expected : String → Prop
  | emptySegment : Expected kEmptyOrderSegment
  | emptyOrder : Expected kEmptyOrder
  | invalidToken : Expected kInvalidToken
  | unknownType (word : Text) (isWord : IsWord word)
      (unknown : ∀ type, toLower word ≠ (typeWord type).toList) :
      Expected (kUnknownPizzaType ++ String.ofList word)
  | outOfRange (number : Text) (isNumber : IsNumber number)
      (large : 2 ^ 64 - 1 < Nat.ofDigitChars 10 (number.drop 1) 0) :
      Expected (kInvalidNumberFormat ++ String.ofList number)

/-- The validators agree with the groups of the pattern. -/
theorem validated_of_groups {size number : Text} (isSize : IsSize size)
    (isNumber : IsNumber number) : Validated size number := by
  obtain ⟨named, word⟩ := isSize
  obtain ⟨mark, digits, rfl, isMark, numeral⟩ := isNumber
  obtain ⟨leading, decimal⟩ := numeral_iff.mpr numeral
  have head : (toLower (mark :: digits)).head? = some mark.toLower := rfl
  have tail : (toLower (mark :: digits)).drop 1 = toLower digits := rfl
  refine ⟨⟨named, parseSize_eq_ok_iff.mpr word⟩, ?_, leading, decimal, ?_⟩
  · rw [head, isMark]
  · rw [tail, numeral.toLower_eq, stoul_numeral numeral, List.drop_one, List.tail_cons]
    split_ifs with large
    · simp only [true_iff]
      omega
    · simp only [false_iff]
      omega

/-- The captured groups are the groups of a split. -/
theorem groups_of_regexMatch {segment : Text} {found : Found Char}
    (matched : regexMatch pattern segment = some found) :
    IsWord (found.str 1) ∧ IsSize (found.str 2) ∧ IsNumber (found.str 3) := by
  obtain ⟨word, size, number, _, isWord, isSize, isNumber, rfl⟩ :=
    mem_finds_pattern.mp (mem_of_regexMatch matched)
  exact ⟨isWord, isSize, isNumber⟩

/-- The type validator rejects only the unknown words. -/
theorem parseType_eq_error {word : Text} {message : String}
    (failed : parseType word = .error message) :
    message = kUnknownPizzaType ++ String.ofList word ∧
      ∀ type, toLower word ≠ (typeWord type).toList := by
  constructor
  · unfold parseType at failed
    simp only at failed
    split_ifs at failed
    cases failed
    rfl
  · intro type named
    rw [parseType_eq_ok_iff.mpr named] at failed
    cases failed

/-- The number validator rejects a validated token only in its conversion. -/
theorem Validated.parseNumber_eq_error {size number : Text} {message : String}
    (validated : Validated size number) (failed : parseNumber number = .error message) :
    message = kInvalidNumberFormat ++ String.ofList number ∧
      2 ^ 64 - 1 < Nat.ofDigitChars 10 (number.drop 1) 0 := by
  unfold parseNumber at failed
  simp only [validated.mark, validated.positive, validated.decimal, ne_eq, not_true_eq_false,
    if_false] at failed
  split at failed
  · rename_i rejected
    cases failed
    exact ⟨rfl, validated.conversion.mp rejected⟩
  · cases failed

/-- A sequence of two steps fails with the error of the first one that fails. -/
theorem bind_eq_error_iff {Value Result : Type} {first : Except String Value}
    {second : Value → Except String Result} {message : String} :
    first >>= second = .error message ↔
      first = .error message ∨ ∃ value, first = .ok value ∧ second value = .error message := by
  cases first with
  | error reason =>
      constructor
      · exact fun failed => .inl (Except.error.inj failed ▸ rfl)
      · rintro (same | ⟨_, done, _⟩)
        · cases same
          rfl
        · cases done
  | ok value =>
      constructor
      · exact fun failed => .inr ⟨value, rfl, failed⟩
      · rintro (failed | ⟨_, same, failed⟩)
        · cases failed
        · cases same
          exact failed

/-- A loop fails with the error of one of its steps. -/
theorem exists_of_mapM_eq_error {Value Result : Type} {step : Value → Except String Result}
    {values : List Value} {message : String} (failed : values.mapM step = .error message) :
    ∃ value ∈ values, step value = .error message := by
  induction values with
  | nil =>
      rw [List.mapM_nil] at failed
      cases failed
  | cons value others ih =>
      rw [List.mapM_cons, bind_eq_error_iff] at failed
      rcases failed with first | ⟨result, _, rest⟩
      · exact ⟨value, List.mem_cons_self, first⟩
      · rcases bind_eq_error_iff.mp rest with later | ⟨last, _, done⟩
        · obtain ⟨other, member, failed⟩ := ih later
          exact ⟨other, List.mem_cons_of_mem _ member, failed⟩
        · cases done

/-- A segment fails only with an expected message. -/
theorem expected_of_parseLine {segment : Text} {message : String}
    (failed : parseLine segment = .error message) : Expected message := by
  unfold parseLine at failed
  split at failed
  · cases failed
    exact .invalidToken
  · rename_i found matched
    obtain ⟨isWord, isSize, isNumber⟩ := groups_of_regexMatch matched
    have validated := validated_of_groups isSize isNumber
    rcases bind_eq_error_iff.mp failed with first | ⟨type, _, failed⟩
    · obtain ⟨rfl, unknown⟩ := parseType_eq_error first
      exact .unknownType _ isWord unknown
    · rcases bind_eq_error_iff.mp failed with second | ⟨size, _, failed⟩
      · obtain ⟨named, parsed⟩ := validated.knownSize
        rw [parsed] at second
        cases second
      · rcases bind_eq_error_iff.mp failed with third | ⟨quantity, _, done⟩
        · obtain ⟨rfl, large⟩ := validated.parseNumber_eq_error third
          exact .outOfRange _ isNumber large
        · cases done

/-- A line fails only with an expected message. -/
theorem expected_of_parse {line : Text} {message : String}
    (failed : parse line = .error message) : Expected message := by
  unfold parse at failed
  split at failed
  · cases failed
    exact .emptySegment
  · rcases bind_eq_error_iff.mp failed with inside | ⟨orders, _, rest⟩
    · obtain ⟨segment, _, failed⟩ := exists_of_mapM_eq_error inside
      unfold parseSegment at failed
      split at failed
      · cases failed
        exact .emptySegment
      · exact expected_of_parseLine failed
    · split at rest <;> cases rest
      exact .emptyOrder

/-- Whatever the pattern captures passes the checks of the validators, whose conversion fails only out
of range, so the parser fails with no other message. -/
theorem validators_agree (line : Text) :
    (∀ found, regexMatch pattern line = some found → Validated (found.str 2) (found.str 3)) ∧
      ∀ message, parse line = .error message → Expected message := by
  refine ⟨fun found matched => ?_, fun message failed => expected_of_parse failed⟩
  obtain ⟨_, isSize, isNumber⟩ := groups_of_regexMatch matched
  exact validated_of_groups isSize isNumber

/-- A numeral with twenty digits is out of range. -/
theorem validators_agree_twenty :
    Validated "S".toList "x99999999999999999999".toList ∧
      Expected (kInvalidNumberFormat ++ "x99999999999999999999") := by
  constructor
  · exact (validators_agree "reginaSx99999999999999999999".toList).1
      ⟨"reginaSx99999999999999999999".toList, [], [(1, "regina".toList), (2, "S".toList),
        (3, "x99999999999999999999".toList)]⟩ rfl
  · exact (validators_agree "reginaSx99999999999999999999".toList).2 _ (by decide)

end Plazza.Parser
