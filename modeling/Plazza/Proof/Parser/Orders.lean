import Plazza.Proof.Parser.Splits

namespace Plazza.Parser

open Foundation Regex

/-- A segment writes an order when its tokens name the type, the size and the quantity. -/
def Writes (segment : Text) (order : PizzaOrder) : Prop :=
  ∃ word size number, Splits segment word size number ∧
    toLower word = (typeWord order.type).toList ∧ toLower size = (sizeWord order.size).toList ∧
    Quantifies number order.quantity

/-- A line writes at least one order, and a semicolon separates the segments of two orders. -/
def Written (line : Text) (orders : List PizzaOrder) : Prop :=
  orders ≠ [] ∧ ∃ parts, line = [';'].intercalate parts ∧ List.Forall₂ Writes parts orders

/-- A sequence of two steps succeeds exactly when both succeed. -/
theorem bind_eq_ok_iff {Value Result : Type} {first : Except String Value}
    {second : Value → Except String Result} {result : Result} :
    first >>= second = .ok result ↔ ∃ value, first = .ok value ∧ second value = .ok result := by
  cases first with
  | error message =>
      constructor
      · intro failed
        cases failed
      · rintro ⟨_, failed, _⟩
        cases failed
  | ok value =>
      constructor
      · exact fun done => ⟨value, rfl, done⟩
      · rintro ⟨_, same, done⟩
        cases same
        exact done

/-- A loop succeeds exactly when each of its steps does. -/
theorem mapM_eq_ok_iff {Value Result : Type} {step : Value → Except String Result}
    {values : List Value} {results : List Result} :
    values.mapM step = .ok results ↔
      List.Forall₂ (fun value result => step value = .ok result) values results := by
  induction values generalizing results with
  | nil =>
      rw [List.mapM_nil, List.forall₂_nil_left_iff]
      exact Except.ok.injEq [] results ▸ eq_comm
  | cons value others ih =>
      rw [List.mapM_cons, bind_eq_ok_iff, List.forall₂_cons_left_iff]
      constructor
      · rintro ⟨result, done, rest⟩
        obtain ⟨last, each, same⟩ := bind_eq_ok_iff.mp rest
        cases same
        exact ⟨result, last, done, ih.mp each, rfl⟩
      · rintro ⟨result, last, done, rest, rfl⟩
        exact ⟨result, done, bind_eq_ok_iff.mpr ⟨last, ih.mpr rest, rfl⟩⟩

/-- The line parser accepts exactly the segments that write an order. -/
theorem parseLine_eq_ok_iff {segment : Text} {order : PizzaOrder} :
    parseLine segment = .ok order ↔ Writes segment order := by
  unfold parseLine
  constructor
  · intro parsed
    cases matched : regexMatch pattern segment with
    | none =>
        rw [matched] at parsed
        cases parsed
    | some found =>
        obtain ⟨word, size, number, splits, _, _, _, rfl⟩ :=
          mem_finds_pattern.mp (mem_of_regexMatch matched)
        rw [matched] at parsed
        obtain ⟨type, first, parsed⟩ := bind_eq_ok_iff.mp parsed
        obtain ⟨named, second, parsed⟩ := bind_eq_ok_iff.mp parsed
        obtain ⟨quantity, third, parsed⟩ := bind_eq_ok_iff.mp parsed
        cases parsed
        exact ⟨word, size, number, splits, parseType_eq_ok_iff.mp first,
          parseSize_eq_ok_iff.mp second, parseNumber_eq_ok_iff.mp third⟩
  · rintro ⟨word, size, number, splits, type, named, quantity⟩
    obtain ⟨mark, digits, shape, isMark, numeral, _⟩ := id quantity
    rw [regexMatch_of_splits splits type ⟨_, named⟩ ⟨mark, digits, shape, isMark, numeral⟩]
    refine bind_eq_ok_iff.mpr ⟨order.type, parseType_eq_ok_iff.mpr type, ?_⟩
    refine bind_eq_ok_iff.mpr ⟨order.size, parseSize_eq_ok_iff.mpr named, ?_⟩
    exact bind_eq_ok_iff.mpr ⟨order.quantity, parseNumber_eq_ok_iff.mpr quantity, rfl⟩

/-- A written segment has whitespace, letters and digits only. -/
theorem Writes.plain {segment : Text} {order : PizzaOrder} (writes : Writes segment order) :
    ∀ character ∈ segment, isSpace character ∨ character.isAlpha ∨ character.isDigit := by
  obtain ⟨word, size, number, ⟨lead, gap, space, trail, leading, between, spacing, trailing, rfl⟩,
    type, named, mark, digits, rfl, isMark, numeral, _⟩ := writes
  have alpha : mark.isAlpha := by
    rw [← Char.isAlpha_toLower_eq_isAlpha, isMark]
    decide
  have letters := IsSize.letters ⟨order.size, named⟩
  intro character member
  simp only [List.mem_append, List.mem_cons] at member
  rcases member with here | here | here | here | here | (rfl | here) | here
  · exact .inl (leading character here)
  · exact .inr (.inl ((isWord_of_type type).2 character here))
  · exact .inl (between character here)
  · exact .inr (.inl (letters character here).1)
  · exact .inl (spacing character here)
  · exact .inr (.inl alpha)
  · exact .inr (.inr (numeral.decimal character here))
  · exact .inl (trailing character here)

/-- A written segment has no separator. -/
theorem Writes.separator {segment : Text} {order : PizzaOrder} (writes : Writes segment order) :
    ';' ∉ segment := by
  intro member
  have plain := writes.plain ';' member
  revert plain
  decide

/-- A written segment has a character that is not blank. -/
theorem Writes.visible {segment : Text} {order : PizzaOrder} (writes : Writes segment order) :
    ∃ character ∈ segment, isBlank character = false := by
  obtain ⟨word, size, number, ⟨lead, gap, space, trail, _, _, _, _, rfl⟩, _, _, mark, digits, rfl,
    isMark, _⟩ := writes
  refine ⟨mark, by simp, ?_⟩
  by_contra blank
  have listed := of_decide_eq_true (Bool.of_not_eq_false blank)
  simp only [List.mem_cons, List.not_mem_nil, or_false] at listed
  rcases listed with rfl | rfl | rfl | rfl <;> cases isMark

/-- The blank check rejects no segment that writes an order. -/
theorem parseSegment_eq_ok_iff {segment : Text} {order : PizzaOrder} :
    parseSegment segment = .ok order ↔ Writes segment order := by
  rw [← parseLine_eq_ok_iff]
  unfold parseSegment
  split
  · rename_i blank
    constructor
    · intro failed
      cases failed
    · intro parsed
      obtain ⟨character, member, visible⟩ := (parseLine_eq_ok_iff.mp parsed).visible
      rw [List.all_eq_true.mp blank character member] at visible
      cases visible
  · exact Iff.rfl

/-- The loop collects the characters before the next separator. -/
theorem segments_append {segment text : Text} (free : ';' ∉ text) (rest : Text) :
    segments segment (text ++ rest) = segments (segment ++ text) rest := by
  induction text generalizing segment with
  | nil => rw [List.nil_append, List.append_nil]
  | cons character others ih =>
      rw [List.mem_cons, not_or] at free
      rw [List.cons_append, segments, if_neg (Ne.symm free.1), ih free.2, List.append_assoc,
        List.singleton_append]

/-- The loop separates the segments of a line that does not end with a separator. -/
theorem segments_intercalate {parts : List Text} (free : ∀ part ∈ parts, ';' ∉ part)
    (nonempty : ∀ part ∈ parts, part ≠ []) : segments [] ([';'].intercalate parts) = parts := by
  induction parts with
  | nil => rfl
  | cons part others ih =>
      obtain ⟨partFree, free⟩ := List.forall_mem_cons.mp free
      obtain ⟨partNonempty, nonempty⟩ := List.forall_mem_cons.mp nonempty
      cases others with
      | nil =>
          rw [List.intercalate_singleton, ← List.append_nil part, segments_append partFree,
            List.append_nil, List.nil_append, segments, if_neg]
          exact fun none => partNonempty (List.isEmpty_iff.mp none)
      | cons next others =>
          rw [List.intercalate_cons_cons, List.append_assoc, segments_append partFree,
            List.nil_append, List.singleton_append, segments, if_pos rfl, ih free nonempty]

/-- The segments of a line make up the line unless it ends with a separator. -/
theorem intercalate_segments {segment rest : Text} (nonempty : segment ++ rest ≠ [])
    (closed : (segment ++ rest).getLast? ≠ some ';') :
    [';'].intercalate (segments segment rest) = segment ++ rest := by
  induction rest generalizing segment with
  | nil =>
      rw [List.append_nil] at nonempty
      rw [segments, if_neg, List.intercalate_singleton, List.append_nil]
      exact fun none => nonempty (List.isEmpty_iff.mp none)
  | cons character rest ih =>
      rw [segments]
      split
      · rename_i separator
        subst separator
        cases rest with
        | nil => exact absurd List.getLast?_concat closed
        | cons next others =>
            rw [List.getLast?_append_of_ne_nil _ (List.cons_ne_nil _ _), List.getLast?_cons_cons]
              at closed
            have whole := @ih [] (List.cons_ne_nil next others) closed
            cases parts : segments [] (next :: others) with
            | nil =>
                rw [parts] at whole
                cases whole
            | cons part more =>
                rw [parts, List.nil_append] at whole
                rw [List.intercalate_cons_cons, whole, List.append_assoc, List.singleton_append]
      · rw [List.append_cons] at nonempty closed
        rw [ih nonempty closed, List.append_assoc, List.singleton_append]

/-- A joined line ends with its last part. -/
theorem exists_intercalate_append {parts : List Text} (nonempty : parts ≠ []) :
    ∃ last ∈ parts, ∃ front, [';'].intercalate parts = front ++ last := by
  induction parts with
  | nil => exact absurd rfl nonempty
  | cons part others ih =>
      cases others with
      | nil => exact ⟨part, List.mem_cons_self, [], List.intercalate_singleton⟩
      | cons next others =>
          obtain ⟨last, member, front, ends⟩ := ih (List.cons_ne_nil _ _)
          refine ⟨last, List.mem_cons_of_mem _ member, part ++ [';'] ++ front, ?_⟩
          rw [List.intercalate_cons_cons, ends, List.append_assoc (part ++ [';'])]

/-- The parts of a written line have no separator and a visible character. -/
theorem forall_parts {parts : List Text} {orders : List PizzaOrder}
    (each : List.Forall₂ Writes parts orders) :
    ∀ part ∈ parts, ';' ∉ part ∧ ∃ character ∈ part, isBlank character = false :=
  ((List.forall₂_and_left parts orders).mp
    (each.imp fun _ _ writes => ⟨⟨writes.separator, writes.visible⟩, writes⟩)).1

/-- The last visible character of a written line is not a separator. -/
theorem Written.closed {line : Text} {orders : List PizzaOrder} (written : Written line orders) :
    line.reverse.find? (fun character => !isBlank character) ≠ some ';' := by
  obtain ⟨ordered, parts, rfl, each⟩ := written
  have nonempty : parts ≠ [] := by
    rintro rfl
    exact ordered (List.forall₂_nil_left_iff.mp each)
  obtain ⟨last, member, front, ends⟩ := exists_intercalate_append nonempty
  obtain ⟨free, character, inside, visible⟩ := forall_parts each last member
  have found : (last.reverse.find? fun character => !isBlank character).isSome :=
    List.find?_isSome.mpr ⟨character, List.mem_reverse.mpr inside, by rw [visible]; rfl⟩
  obtain ⟨first, found⟩ := Option.isSome_iff_exists.mp found
  have here := List.mem_reverse.mp (List.mem_of_find?_eq_some found)
  rw [ends, List.reverse_append, List.find?_append, found, Option.some_or]
  intro same
  exact free (Option.some.inj same ▸ here)

/-- A line whose last visible character is not a separator does not end with one. -/
theorem getLast_of_closed {line : Text}
    (closed : line.reverse.find? (fun character => !isBlank character) ≠ some ';') :
    line.getLast? ≠ some ';' := by
  intro last
  obtain ⟨front, rfl⟩ := List.getLast?_eq_some_iff.mp last
  refine closed ?_
  rw [List.reverse_append, List.reverse_singleton, List.singleton_append, List.find?_cons]
  rfl

/-- The parser accepts exactly the lines of the order language and returns the written orders. -/
theorem parse_eq_ok_iff {line : Text} {orders : List PizzaOrder} :
    parse line = .ok orders ↔ Written line orders := by
  have each : ∀ {parts : List Text}, parts.mapM parseSegment = .ok orders ↔
      List.Forall₂ Writes parts orders := by
    intro parts
    simp only [mapM_eq_ok_iff, parseSegment_eq_ok_iff]
  constructor
  · intro parsed
    unfold parse at parsed
    split at parsed
    · cases parsed
    · rename_i closed
      obtain ⟨results, done, parsed⟩ := bind_eq_ok_iff.mp parsed
      split at parsed
      · cases parsed
      · rename_i nonempty
        cases parsed
        have ordered : orders ≠ [] := fun none => nonempty (List.isEmpty_iff.mpr none)
        refine ⟨ordered, segments [] line, ?_, each.mp done⟩
        have ends : ([] ++ line).getLast? ≠ some ';' := getLast_of_closed closed
        refine (intercalate_segments ?_ ends).symm
        rintro rfl
        exact ordered (List.forall₂_nil_left_iff.mp (each.mp done))
  · intro written
    have closed := written.closed
    obtain ⟨ordered, parts, rfl, written⟩ := written
    have shape := forall_parts written
    have separated : segments [] ([';'].intercalate parts) = parts :=
      segments_intercalate (fun part member => (shape part member).1) fun part member none => by
        obtain ⟨_, inside, _⟩ := (shape part member).2
        rw [none] at inside
        cases inside
    rw [parse, if_neg closed, separated]
    refine bind_eq_ok_iff.mpr ⟨orders, each.mpr written, ?_⟩
    rw [if_neg fun none => ordered (List.isEmpty_iff.mp none)]
    rfl

/-- The parser returns exactly the orders that the line writes and rejects every other line, and the
pattern finds the split with a known type whenever there is one. -/
theorem parse_accepts_exactly (line : Text) :
    (∀ orders, parse line = .ok orders ↔ Written line orders) ∧
      ((∀ orders, ¬Written line orders) → ∃ message, parse line = .error message) ∧
      ∀ segment word size number type, Splits segment word size number →
        toLower word = (typeWord type).toList → IsSize size → IsNumber number →
        regexMatch pattern segment = some ⟨segment, [], [(1, word), (2, size), (3, number)]⟩ := by
  refine ⟨fun orders => parse_eq_ok_iff, ?_, ?_⟩
  · intro unwritten
    cases parsed : parse line with
    | error message => exact ⟨message, rfl⟩
    | ok orders => exact absurd (parse_eq_ok_iff.mp parsed) (unwritten orders)
  · exact fun _ _ _ _ _ => regexMatch_of_splits

example : parse "reginaXXLx2;FantasiaMX3 ; margarita S x1".toList =
    .ok [⟨.regina, .xxl, 2⟩, ⟨.fantasia, .m, 3⟩, ⟨.margarita, .s, 1⟩] := by decide

end Plazza.Parser
