import Plazza.Proof.Parser.Pattern

namespace Plazza.Parser

open Foundation Regex

/-- The finds of the pattern are the splits of the segment. -/
theorem mem_finds_pattern {segment : Text} {found : Found Char} :
    found ∈ finds pattern true segment ↔
      ∃ word size number, Splits segment word size number ∧ IsWord word ∧ IsSize size ∧
        IsNumber number ∧ found = ⟨segment, [], [(1, word), (2, size), (3, number)]⟩ := by
  simp only [pattern, finds_bol_seq, reads_spaces.mem_seq, reads_typePattern.mem_group_seq,
    reads_sizePattern.mem_group_seq, reads_numberPattern.mem_group_seq, mem_finds_eol]
  constructor
  · rintro ⟨lead, leading, _, rfl, _, ⟨word, isWord, _, rfl, _, ⟨gap, between, _, rfl, _,
      ⟨size, isSize, _, rfl, _, ⟨space, spacing, _, rfl, _, ⟨number, isNumber, _, rfl, _,
      ⟨trail, trailing, _, rfl, _, ⟨rfl, rfl⟩, rfl⟩, rfl⟩, rfl⟩, rfl⟩, rfl⟩, rfl⟩, rfl⟩
    refine ⟨word, size, number, ⟨lead, gap, space, trail, leading, between, spacing, trailing, ?_⟩,
      isWord, isSize, isNumber, rfl⟩
    rw [List.append_nil]
  · rintro ⟨word, size, number, ⟨lead, gap, space, trail, leading, between, spacing, trailing, rfl⟩,
      isWord, isSize, isNumber, rfl⟩
    exact ⟨lead, leading, _, rfl, _, ⟨word, isWord, _, rfl, _, ⟨gap, between, _, rfl, _,
      ⟨size, isSize, _, rfl, _, ⟨space, spacing, _, rfl, _, ⟨number, isNumber, _, rfl, _,
      ⟨trail, trailing, [], List.append_nil _, _, ⟨rfl, rfl⟩, rfl⟩, rfl⟩, rfl⟩, rfl⟩, rfl⟩, rfl⟩,
      by simp⟩

/-- The whitespace before a word is determined by the text. -/
theorem lead_eq {lead other word third rest tail : Text}
    (leading : ∀ character ∈ lead, isSpace character)
    (others : ∀ character ∈ other, isSpace character) (isWord : IsWord word)
    (isThird : IsWord third) (same : lead ++ (word ++ rest) = other ++ (third ++ tail)) :
    lead = other ∧ word ++ rest = third ++ tail := by
  have stop : ∀ {word : Text}, IsWord word → ∀ rest, (word ++ rest).takeWhile isSpace = [] := by
    intro word isWord rest
    obtain ⟨first, others, rfl⟩ := List.exists_cons_of_ne_nil isWord.1
    have alpha := isWord.2 first List.mem_cons_self
    rw [List.cons_append, List.takeWhile_cons, if_neg]
    intro space
    rw [(plain_of_isSpace space).1] at alpha
    cases alpha
  have taken := congrArg (List.takeWhile isSpace) same
  rw [List.takeWhile_append_of_pos leading, List.takeWhile_append_of_pos others, stop isWord,
    stop isThird, List.append_nil, List.append_nil] at taken
  subst taken
  exact ⟨rfl, List.append_cancel_left same⟩

/-- The matcher tries the shorter words first. -/
theorem pairwise_pattern (tail : Regex Char) (segment : Text) :
    (finds (.seq .bol (.seq spaces (.seq (.group 1 typePattern) tail))) true segment).Pairwise
      fun earlier later => (earlier.str 1).length ≤ (later.str 1).length := by
  rw [finds_bol_seq]
  have word : ∀ (lead front back : Found Char), lead.captures = [] →
      front.captures = [(1, front.text)] → ((lead.follow (front.follow back)).str 1) = front.text := by
    intro lead front back none one
    simp [Found.follow, Found.str, none, one]
  refine pairwise_seq ?_ ?_
  · -- Two different leads cannot both stand before a word.
    refine (pairwise_star_set isSpace true true segment).imp_of_mem ?_
    intro earlier later earlierFound laterFound shorter front frontFound back backFound
    exfalso
    obtain ⟨leading, whole, _⟩ := (reads_spaces _ _ _).mp earlierFound
    obtain ⟨others, same, _⟩ := (reads_spaces _ _ _).mp laterFound
    obtain ⟨word, isWord, rest, wordRest, _⟩ := reads_typePattern.mem_group_seq.mp frontFound
    obtain ⟨third, isThird, tail, thirdTail, _⟩ := reads_typePattern.mem_group_seq.mp backFound
    have equal := (lead_eq leading others isWord isThird
      (by rw [wordRest, thirdTail, whole, same])).1
    rw [Preferred, if_pos rfl, equal] at shorter
    exact lt_irrefl _ shorter
  · intro lead leadFound
    obtain ⟨_, _, none⟩ := (reads_spaces _ _ _).mp leadFound
    refine pairwise_seq ?_ ?_
    · have ordered : (finds (.group 1 typePattern) (true && lead.text.isEmpty) lead.rest).Pairwise
          (Preferred false) :=
        List.pairwise_map.mpr (pairwise_plus_set letter false _ lead.rest)
      refine ordered.imp_of_mem ?_
      intro earlier later earlierFound laterFound shorter front _ back _
      rw [word lead earlier front none (reads_typePattern.mem_group.mp earlierFound).2.2,
        word lead later back none (reads_typePattern.mem_group.mp laterFound).2.2]
      exact le_of_lt shorter
    · intro found member
      refine List.pairwise_of_forall fun front back => ?_
      have captures := (reads_typePattern.mem_group.mp member).2.2
      rw [word lead found front none captures, word lead found back none captures]

/-- The lower case of a character of a text is a character of the lower case of the text. -/
theorem mem_toLower {text : Text} {character : Char} (member : character ∈ text) :
    character.toLower ∈ toLower text := List.mem_map_of_mem member

/-- The word of a type is a word in any case. -/
theorem isWord_of_type {word : Text} {type : PizzaType}
    (named : toLower word = (typeWord type).toList) : IsWord word := by
  have nonempty : (typeWord type).toList ≠ [] := by cases type <;> decide
  have letters : (typeWord type).toList.all Char.isAlpha := by cases type <;> decide
  rw [← named] at nonempty letters
  refine ⟨fun none => nonempty (by rw [none]; rfl), fun character member => ?_⟩
  rw [← Char.isAlpha_toLower_eq_isAlpha]
  exact List.all_eq_true.mp letters _ (mem_toLower member)

/-- The word of every type ends with the letter a. -/
theorem last_of_type {word : Text} {type : PizzaType}
    (named : toLower word = (typeWord type).toList) :
    ∃ front last, word = front ++ [last] ∧ last.toLower = 'a' := by
  have ends : ∃ front, (typeWord type).toList = front ++ ['a'] := by
    cases type with
    | regina => exact ⟨"regin".toList, rfl⟩
    | margarita => exact ⟨"margarit".toList, rfl⟩
    | americana => exact ⟨"american".toList, rfl⟩
    | fantasia => exact ⟨"fantasi".toList, rfl⟩
  obtain ⟨shown, ends⟩ := ends
  obtain ⟨front, back, rfl, _, single⟩ := List.map_eq_append_iff.mp (named.trans ends)
  obtain ⟨last, rfl, lower⟩ := List.map_eq_singleton_iff.mp single
  exact ⟨front, last, rfl, lower⟩

/-- A size has letters only, and none of them is the letter a. -/
theorem IsSize.letters {size : Text} (isSize : IsSize size) :
    ∀ character ∈ size, character.isAlpha ∧ character.toLower ≠ 'a' := by
  intro character member
  obtain ⟨named, same⟩ := isSize
  have letters : (sizeWord named).toList.all fun other => other.isAlpha ∧ other ≠ 'a' := by
    cases named <;> decide
  rw [← same] at letters
  rw [← Char.isAlpha_toLower_eq_isAlpha]
  exact of_decide_eq_true (List.all_eq_true.mp letters _ (mem_toLower member))

/-- The text after the word of a segment. -/
structure Tail (tail size : Text) (mark : Char) (digits : Text) : Prop where
  isSize : IsSize size
  isMark : mark.toLower = 'x'
  numeral : Numeral digits
  split : ∃ gap space trail : Text, (∀ character ∈ gap, isSpace character) ∧
    (∀ character ∈ space, isSpace character) ∧ (∀ character ∈ trail, isSpace character) ∧
    tail = gap ++ (size ++ (space ++ (mark :: digits ++ trail)))

namespace Tail

variable {tail size digits : Text} {mark : Char}

theorem isAlpha_mark (inside : Tail tail size mark digits) : mark.isAlpha := by
  rw [← Char.isAlpha_toLower_eq_isAlpha, inside.isMark]
  decide

/-- The letters of the tail are the size and the mark of the number. -/
theorem letters (inside : Tail tail size mark digits) :
    tail.filter Char.isAlpha = size ++ [mark] := by
  obtain ⟨gap, space, trail, between, spacing, trailing, rfl⟩ := inside.split
  have blank : ∀ {text : Text}, (∀ character ∈ text, isSpace character) →
      text.filter Char.isAlpha = [] := fun spaces =>
    List.filter_eq_nil_iff.mpr fun character member =>
      Bool.not_eq_true _ |>.mpr (plain_of_isSpace (spaces character member)).1
  have whole : size.filter Char.isAlpha = size :=
    List.filter_eq_self.mpr fun character member => (inside.isSize.letters character member).1
  have none : digits.filter Char.isAlpha = [] := by
    refine List.filter_eq_nil_iff.mpr fun digit member alpha => ?_
    have decimal := inside.numeral.decimal digit member
    rw [isDigit_of_isAlpha alpha] at decimal
    cases decimal
  rw [List.filter_append, List.filter_append, List.filter_append, List.filter_append,
    List.filter_cons, if_pos inside.isAlpha_mark, blank between, blank spacing, blank trailing,
    whole, none]
  rfl

/-- The digits of the tail are the numeral. -/
theorem digits_eq (inside : Tail tail size mark digits) :
    tail.filter Char.isDigit = digits := by
  obtain ⟨gap, space, trail, between, spacing, trailing, rfl⟩ := inside.split
  have blank : ∀ {text : Text}, (∀ character ∈ text, isSpace character) →
      text.filter Char.isDigit = [] := fun spaces =>
    List.filter_eq_nil_iff.mpr fun character member =>
      Bool.not_eq_true _ |>.mpr (plain_of_isSpace (spaces character member)).2
  have none : size.filter Char.isDigit = [] :=
    List.filter_eq_nil_iff.mpr fun character member =>
      Bool.not_eq_true _ |>.mpr (isDigit_of_isAlpha (inside.isSize.letters character member).1)
  have whole : digits.filter Char.isDigit = digits :=
    List.filter_eq_self.mpr inside.numeral.decimal
  rw [List.filter_append, List.filter_append, List.filter_append, List.filter_append,
    List.filter_cons, isDigit_of_isAlpha inside.isAlpha_mark, blank between, blank spacing,
    blank trailing, none, whole]
  simp

/-- No character of the tail is the letter a. -/
theorem ne_a (inside : Tail tail size mark digits) :
    ∀ character ∈ tail, character.toLower ≠ 'a' := by
  intro character member isA
  have alpha : character.isAlpha := by
    rw [← Char.isAlpha_toLower_eq_isAlpha, isA]
    decide
  have letter : character ∈ size ++ [mark] := by
    rw [← inside.letters]
    exact List.mem_filter.mpr ⟨member, alpha⟩
  rcases List.mem_append.mp letter with before | last
  · exact (inside.isSize.letters character before).2 isA
  · rw [List.mem_singleton.mp last, inside.isMark] at isA
    cases isA

/-- The tail determines the size and the number. -/
theorem unique {other later : Text} {sign : Char} (inside : Tail tail size mark digits)
    (another : Tail tail other sign later) : other = size ∧ sign = mark ∧ later = digits := by
  obtain ⟨same, marks⟩ := List.append_inj' (another.letters.symm.trans inside.letters) rfl
  exact ⟨same, List.singleton_inj.mp marks, another.digits_eq.symm.trans inside.digits_eq⟩

end Tail

/-- A split with the word of a type is the only split whose word is not longer. -/
theorem splits_unique {segment word size number third other last : Text} {type : PizzaType}
    (named : toLower word = (typeWord type).toList) (splits : Splits segment word size number)
    (isSize : IsSize size) (isNumber : IsNumber number) (others : Splits segment third other last)
    (isThird : IsWord third) (isOther : IsSize other) (isLast : IsNumber last)
    (shorter : third.length ≤ word.length) : third = word ∧ other = size ∧ last = number := by
  obtain ⟨mark, digits, rfl, isMark, numeral⟩ := isNumber
  obtain ⟨sign, later, rfl, isSign, decimal⟩ := isLast
  obtain ⟨lead, gap, space, trail, leading, between, spacing, trailing, whole⟩ := splits
  obtain ⟨front, hole, blank, back, fronting, holes, blanks, backing, same⟩ := others
  obtain ⟨_, equal⟩ := lead_eq leading fronting (isWord_of_type named) isThird
    (whole.symm.trans same)
  have inside : Tail _ size mark digits :=
    ⟨isSize, isMark, numeral, gap, space, trail, between, spacing, trailing, rfl⟩
  have another : Tail _ other sign later :=
    ⟨isOther, isSign, decimal, hole, blank, back, holes, blanks, backing, rfl⟩
  obtain ⟨extra, longer⟩ : ∃ extra, word = third ++ extra := by
    rcases List.append_eq_append_iff.mp equal with ⟨extra, longer, _⟩ | ⟨extra, longer, _⟩
    · rw [longer, List.length_append] at shorter
      obtain rfl := List.length_eq_zero_iff.mp (show extra.length = 0 by omega)
      exact ⟨[], by rw [longer, List.append_nil, List.append_nil]⟩
    · exact ⟨extra, longer⟩
  rw [longer, List.append_assoc] at equal
  have tails := List.append_cancel_left equal
  -- A longer word would put its last letter into the other tail.
  have none : extra = [] := by
    by_contra nonempty
    obtain ⟨front, last, ends, isA⟩ := last_of_type named
    have lastExtra : last ∈ extra := by
      have := congrArg List.getLast? (longer.symm.trans ends)
      rw [List.getLast?_append_of_ne_nil _ nonempty, List.getLast?_concat] at this
      exact List.mem_of_getLast? this
    exact another.ne_a last (tails ▸ List.mem_append_left _ lastExtra) isA
  subst none
  rw [List.nil_append] at tails
  obtain ⟨rfl, rfl, rfl⟩ := inside.unique (tails ▸ another)
  exact ⟨by rw [longer, List.append_nil], rfl, rfl⟩

/-- The matcher finds the split with the word of a type whenever there is one. -/
theorem regexMatch_of_splits {segment word size number : Text} {type : PizzaType}
    (splits : Splits segment word size number) (named : toLower word = (typeWord type).toList)
    (isSize : IsSize size) (isNumber : IsNumber number) :
    regexMatch pattern segment = some ⟨segment, [], [(1, word), (2, size), (3, number)]⟩ := by
  have member := mem_finds_pattern.mpr
    ⟨word, size, number, splits, isWord_of_type named, isSize, isNumber, rfl⟩
  obtain ⟨first, matched⟩ := exists_regexMatch member rfl
  obtain ⟨third, other, last, others, isThird, isOther, isLast, rfl⟩ :=
    mem_finds_pattern.mp (mem_of_regexMatch matched)
  have shorter := regexMatch_le (pairwise_pattern _ segment) matched member rfl
  obtain ⟨rfl, rfl, rfl⟩ :=
    splits_unique named splits isSize isNumber others isThird isOther isLast shorter
  exact matched

end Plazza.Parser
